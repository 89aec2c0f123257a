import KrabkaO11y.Concurrent.VolatileTier
import KrabkaO11y.Profiles.WalTailStore

/-!
Queries over the saved blocks and a hot tier that restarts (`crates/traces/src/livestore/run.rs`,
`querier/store/krabka_span_store.rs`, `crates/profiles/src/hot_store/run_wal_tail_with_topic.rs`).

The live store and the profiles tail commit what they have taken into memory. After a restart
they resume there with nothing in memory, so what the block builder has not saved by then is
in neither tier.
-/

namespace KrabkaO11y.Traces.Live

open Concurrent Concurrent.VolatileTier List

variable {α : Type} {n : Nat}

/-! ### The querier -/

/-- What copies of a span agree on. -/
def Span.identity (span : Span α) : BitVec 128 × BitVec 64 := (span.traceId, span.spanId)

/-- The first copy of each span. -/
def deduplicate : List (BitVec 128 × BitVec 64) → List (Span α) → List (Span α)
  | _, [] => []
  | seen, span :: rest =>
    if span.identity ∈ seen then deduplicate seen rest
    else span :: deduplicate (span.identity :: seen) rest

/-- The spans of a tenant in the saved blocks. -/
def coldSpans (s : Tiers n (SpanRecord α)) (tenant : String) : List (Span α) :=
  (s.savedRecords.filter (·.tenant = tenant)).map SpanRecord.span

/-- The live store since its last start. -/
def liveStore (retentionNs : Int64) (s : Tiers n (SpanRecord α)) : LiveStore α :=
  .fed retentionNs s.batches.flatten

def scan (retentionNs : Int64) (s : Tiers n (SpanRecord α)) (tenant : String)
    (startNs endNs : Int64) : List (Span α) :=
  deduplicate [] ((coldSpans s tenant).filter (inTimeRange startNs endNs) ++
    ((liveStore retentionNs s).spansOf tenant).filter (inTimeRange startNs endNs))

/-- Only a trace that the live store holds is deduplicated. -/
def traceById (retentionNs : Int64) (s : Tiers n (SpanRecord α)) (tenant : String)
    (traceId : BitVec 128) : List (Span α) :=
  let cold := (coldSpans s tenant).filter (·.traceId = traceId)
  let live := (liveStore retentionNs s).traceById tenant traceId
  if live = [] then cold else orderSpans (deduplicate [] (cold ++ live))

/-- A span counts as recent while every span that was consumed leaves it within the retention. -/
def WithinRetention (retentionNs : Int64) (other record : SpanRecord α) : Prop :=
  keeps retentionNs other.span.startNs record.span.startNs = true

/-- A span is dropped only for one of its identity. -/
theorem mem_deduplicate (spans : List (Span α)) :
    ∀ {seen : List (BitVec 128 × BitVec 64)} {span : Span α}, span ∈ spans →
      span.identity ∈ seen ∨ ∃ found ∈ deduplicate seen spans, found.identity = span.identity := by
  induction spans with
  | nil => simp
  | cons first rest ih =>
    intro seen span hsp
    rw [deduplicate]
    split
    · rename_i hse
      rcases mem_cons.mp hsp with rfl | hr
      · exact .inl hse
      · exact ih hr
    · rcases mem_cons.mp hsp with rfl | hr
      · exact .inr ⟨span, mem_cons_self, rfl⟩
      · rcases @ih (first.identity :: seen) span hr with hse | ⟨found, hfd, heq⟩
        · rcases mem_cons.mp hse with heq | hse
          · exact .inr ⟨first, mem_cons_self, heq.symm⟩
          · exact .inl hse
        · exact .inr ⟨found, mem_cons_of_mem _ hfd, heq⟩

theorem found_of_mem {spans : List (Span α)} {span : Span α} (h : span ∈ spans) :
    ∃ found ∈ deduplicate [] spans, found.identity = span.identity :=
  (mem_deduplicate spans h).resolve_left not_mem_nil

/-- The newest start is that of a record, or none was newer than the least time. -/
theorem newestStart_mem (records : List (SpanRecord α)) :
    newestStart records = Int64.minValue ∨
      ∃ record ∈ records, newestStart records = record.span.startNs := by
  induction records using List.reverseRecOn with
  | nil => exact .inl rfl
  | append_singleton records record ih =>
    rw [newestStart_append]
    split
    · exact .inr ⟨record, by simp, rfl⟩
    · refine ih.imp_right fun hmem => ?_
      obtain ⟨other, ho, heq⟩ := hmem
      exact ⟨other, mem_append_left _ ho, heq⟩

variable {record : SpanRecord α} {retentionNs : Int64}

/-- The live store holds a record of its own that all its records leave within the retention. -/
theorem mem_spansOf_fed {records : List (SpanRecord α)} (hmem : record ∈ records)
    (hw : ∀ other ∈ records, WithinRetention retentionNs other record) :
    record.span ∈ (LiveStore.fed retentionNs records).spansOf record.tenant := by
  rw [spansOf_fed]
  refine mem_map_of_mem (mem_filter.mpr ⟨mem_filter.mpr ⟨hmem, by simp⟩, ?_⟩)
  rcases newestStart_mem records with hmin | ⟨newest, hnew, heq⟩
  · simp [keeps, hmin]
  · rw [heq]
    exact hw newest hnew

/-- A record that is saved or in memory and recent is found by both queries. -/
theorem found_of_covered {s : Tiers n (SpanRecord α)}
    (h : record ∈ s.savedRecords ∨ record.span ∈ (liveStore retentionNs s).spansOf record.tenant) :
    (∀ startNs endNs, inTimeRange startNs endNs record.span = true →
      ∃ found ∈ scan retentionNs s record.tenant startNs endNs,
        found.identity = record.span.identity) ∧
    ∃ found ∈ traceById retentionNs s record.tenant record.span.traceId,
      found.identity = record.span.identity := by
  have hco (hsv : record ∈ s.savedRecords) : record.span ∈ coldSpans s record.tenant :=
    mem_map_of_mem (mem_filter.mpr ⟨hsv, by simp⟩)
  constructor
  · intro startNs endNs hr
    refine found_of_mem (mem_append.mpr ?_)
    exact h.imp (fun hsv => mem_filter.mpr ⟨hco hsv, hr⟩)
      fun hlv => mem_filter.mpr ⟨hlv, hr⟩
  · have hmem : record.span ∈ (coldSpans s record.tenant).filter
        (·.traceId = record.span.traceId) ∨
        record.span ∈ (liveStore retentionNs s).traceById record.tenant record.span.traceId := by
      refine h.imp (fun hsv => mem_filter.mpr ⟨hco hsv, by simp⟩) fun hlv => ?_
      exact (mem_insertionSort _).mpr (mem_filter.mpr ⟨hlv, by simp⟩)
    simp only [traceById]
    split
    · rename_i hno
      rw [hno] at hmem
      exact ⟨record.span, hmem.resolve_right not_mem_nil, rfl⟩
    · obtain ⟨found, hfd, heq⟩ := found_of_mem (mem_append.mpr hmem)
      exact ⟨found, (List.mem_insertionSort _).mpr hfd, heq⟩

end KrabkaO11y.Traces.Live

namespace KrabkaO11y.Profiles.WalTail

open Concurrent Concurrent.VolatileTier Machine

variable {α : Type} {n : Nat}

/-- The rows of a union of the saved blocks and the tail since its last start. -/
def unionRows [DecidableEq α] (config : RetentionConfig) (s : Tiers n (Record α)) : List (Row α) :=
  s.savedRecords.flatMap applyRecord ++
    (fed config s.batches).inner.filter (· ∉ s.savedRecords.flatMap applyRecord)

/-- A record counts as recent while every record that was consumed leaves its newest sample
within the maximal age. -/
def WithinAge (config : RetentionConfig) (other record : Record α) : Prop :=
  ∀ newest ∈ maxTsMs other, ∀ own ∈ maxTsMs record, saturatingSub newest config.maxAgeMs ≤ own

/-- A sample that every record consumed leaves within the maximal age. -/
def RecentRow (config : RetentionConfig) (s : Tiers n (Record α)) (row : Row α) : Prop :=
  ∀ other, Below s.log s.position other → ∀ newest ∈ maxTsMs other,
    saturatingSub newest config.maxAgeMs ≤ row.timestampMs

variable {record : Record α} {row : Row α}

/-- No row of a record is newer than its newest sample. -/
theorem timestampMs_le_maxTsMs (hrow : row ∈ applyRecord record) {newest : Int64}
    (hnew : maxTsMs record = some newest) : row.timestampMs ≤ newest := by
  obtain ⟨sample, hsam, rfl⟩ := List.mem_map.mp hrow
  exact (List.max?_eq_some_iff.mp hnew).2 _ (List.mem_map_of_mem hsam)

variable {config : RetentionConfig}

/-- A record that is not passed shows its rows. -/
theorem mem_inner_of_not_passed {batches : List (List (Record α))}
    (hunr : Unreached config {} batches) {item : Retained α} (hit : item ∈ batches.flatMap fresh)
    (hno : ¬ Passed config batches item) (hrow : row ∈ applyRecord item.record) :
    row ∈ (fed config batches).inner := by
  obtain ⟨gone, shown, hall, hin, hgo, -⟩ := (tracks_fed batches hunr).split
  rw [hall, List.append_assoc, List.mem_append] at hit
  rcases hit with hgo' | hsh
  · exact absurd (hgo item hgo') hno
  · rw [hin]
    exact List.mem_flatMap.mpr ⟨item, hsh, hrow⟩

variable {s : Tiers n (Record α)}

/-- Restarts find the recent records saved, and the batch of a poll leaves the queue, once the
age has been looked at, within the count limit. -/
def Spares (config : RetentionConfig) (s : Tiers n (Record α)) : TierEvent n (Record α) → Prop
  | .poll takes => ∀ taken ∈ takeNext s.log s.position takes,
      (survivors config ((fed config s.batches).records ++ fresh taken.1)).length ≤
        config.maxRecords
  | event => SavedAtRestart (WithinAge config) s event

/-- Under the condition every recent record is saved or hot, and the cap is not met. -/
theorem covered_of_spares
    (h : System.Reachable Tiers.step (· = {}) (Spares config) s) :
    Covered (WithinAge config) s ∧ Unreached config {} s.batches := by
  refine h.invariant (P := fun s => Covered (WithinAge config) s ∧ Unreached config {} s.batches)
    (fun s hinitial => ?_) fun s event s' hs hspares hstep => ?_
  · subst hinitial
    exact ⟨covered_initial _, trivial⟩
  · have hsaved : SavedAtRestart (WithinAge config) s event := by
      cases event <;> first | exact hspares | exact trivial
    refine ⟨hs.1.step hsaved hstep, ?_⟩
    cases event with
    | poll takes =>
      obtain ⟨taken, htaken, rfl⟩ := Option.map_eq_some_iff.mp hstep
      exact unreached_append.mpr ⟨hs.2, hspares taken htaken⟩
    | builderPoll p | builderCommit =>
      obtain ⟨-, heq⟩ := Option.ite_none_right_eq_some.mp hstep
      cases heq
      exact hs.2
    | restart =>
      cases hstep
      exact trivial
    | append | builderSave | builderRestart | commit =>
      cases hstep
      exact hs.2

/-- The union takes hot rows that no block has, and loses none. -/
theorem mem_unionRows [DecidableEq α]
    (h : row ∈ s.savedRecords.flatMap applyRecord ∨ row ∈ (fed config s.batches).inner) :
    row ∈ unionRows config s := by
  rw [unionRows, List.mem_append]
  by_cases hco : row ∈ s.savedRecords.flatMap applyRecord
  · exact .inl hco
  · exact .inr (List.mem_filter.mpr ⟨h.resolve_left hco, by simpa using hco⟩)

/-- The sample-wise reading of recent implies the record-wise one. -/
theorem recent_of_recentRow (hrow : row ∈ applyRecord record) (h : RecentRow config s row) :
    Recent (WithinAge config) s.log s.position record := by
  intro other ho newest hnew own hown
  exact Int64.le_trans (h other ho newest hnew) (timestampMs_le_maxTsMs hrow hown)

theorem found_of_covered [DecidableEq α] (hcvd : Covered (WithinAge config) s)
    (hunr : Unreached config {} s.batches) {p : Fin n} {o : Nat} (hlt : o < s.position p)
    (hrec : (s.log p)[o]? = some record) (hrow : row ∈ applyRecord record)
    (hrct : RecentRow config s row) :
    row ∈ unionRows config s := by
  refine mem_unionRows ?_
  have hw := recent_of_recentRow hrow hrct
  rcases hcvd.covered p o record hlt hrec hw with hsv | hmem
  · exact .inl (List.mem_flatMap.mpr ⟨record, mem_savedRecords hsv hrec, hrow⟩)
  · right
    -- a record with a row has a newest sample
    cases hnew : maxTsMs record with
    | none =>
      rw [applyRecord, maxTsMs_eq_none.mp hnew] at hrow
      cases hrow
    | some newest =>
      obtain ⟨batch, hba, hin⟩ := List.mem_flatten.mp hmem
      have hit : (⟨newest, record⟩ : Retained α) ∈ s.batches.flatMap fresh :=
        List.mem_flatMap.mpr ⟨batch, hba, List.mem_filterMap.mpr ⟨record, hin, by rw [hnew]; rfl⟩⟩
      refine mem_inner_of_not_passed hunr hit ?_ hrow
      rintro ⟨sofar, other, hpre, -, horizon, hhor, hlt⟩
      have ho := hpre.subset (List.mem_append_right sofar List.mem_cons_self)
      obtain ⟨last, hl, rfl⟩ := Option.map_eq_some_iff.mp hhor
      obtain ⟨lastRecord, hlas, hmax⟩ :=
        List.mem_filterMap.mp (List.mem_of_getLast? hl)
      obtain ⟨lastNewest, hla, rfl⟩ := Option.map_eq_some_iff.mp hmax
      exact Int64.not_lt.mpr
        (hw lastRecord (hcvd.batches _ (List.mem_flatten.mpr ⟨other, ho, hlas⟩))
        lastNewest hla newest hnew) hlt

end KrabkaO11y.Profiles.WalTail

namespace KrabkaO11y.Traces.Live

open Concurrent Concurrent.VolatileTier Profiles

variable {α β : Type} {n : Nat}

/-- In every run in which a hot tier restarts only once the recent records that it committed are
saved, every recent span below the position of the live store is found by both queries, and, if no
poll exceeds the count limit, every recent sample below the position of the profiles tail by its
union. -/
theorem recent_data_survives_restarts [DecidableEq β] (retentionNs : Int64)
    (config : WalTail.RetentionConfig) :
    (∀ s : Tiers n (SpanRecord α),
      System.Reachable Tiers.step (· = {}) (SavedAtRestart (WithinRetention retentionNs)) s →
      ∀ p o record, o < s.position p → (s.log p)[o]? = some record →
        Recent (WithinRetention retentionNs) s.log s.position record →
        (∀ startNs endNs, inTimeRange startNs endNs record.span = true →
          ∃ found ∈ scan retentionNs s record.tenant startNs endNs,
            found.identity = record.span.identity) ∧
        ∃ found ∈ traceById retentionNs s record.tenant record.span.traceId,
          found.identity = record.span.identity) ∧
    ∀ s : Tiers n (WalTail.Record β),
      System.Reachable Tiers.step (· = {}) (WalTail.Spares config) s →
      ∀ p o record, o < s.position p → (s.log p)[o]? = some record →
        ∀ row ∈ WalTail.applyRecord record, WalTail.RecentRow config s row →
          row ∈ WalTail.unionRows config s := by
  refine ⟨fun s hreach p o record hlt hrecord hrecent => ?_,
    fun s hreach p o record hlt hrecord row hrow hrecent => ?_⟩
  · have hcovered := covered_of_reachable hreach
    refine found_of_covered ?_
    refine (hcovered.covered p o record hlt hrecord hrecent).imp
      (fun hsaved => mem_savedRecords hsaved hrecord) fun hmem => ?_
    exact mem_spansOf_fed hmem fun other hother => hrecent other (hcovered.batches other hother)
  · obtain ⟨hcovered, hunreached⟩ := WalTail.covered_of_spares hreach
    exact WalTail.found_of_covered hcovered hunreached hlt hrecord hrow hrecent

/-- A restart after the block builder has saved the record. -/
def restartEvents {ρ : Type} (record : ρ) : List (TierEvent 1 ρ) :=
  [.append (Fin.last 0) record, .poll [Fin.last 0], .commit, .builderPoll (Fin.last 0),
    .builderSave, .restart]

def restarted {ρ : Type} (record : ρ) : Tiers 1 ρ :=
  (System.run Tiers.step {} (restartEvents record)).get rfl

theorem reachable_restarted {ρ : Type} {record : ρ} {condition : Tiers 1 ρ → TierEvent 1 ρ → Prop}
    (hpoll : condition { log := Function.update (fun _ => []) (Fin.last 0) [record] }
      (.poll [Fin.last 0]))
    (hrestart : ∀ s, (∀ p, s.committed p ≤ s.saved p) → condition s .restart)
    (hother : ∀ s event, event ≠ .restart → (∀ takes, event ≠ .poll takes) → condition s event) :
    System.Reachable Tiers.step (· = {}) condition (restarted record) := by
  refine System.Reachable.run (.initial rfl) ?_ (Option.some_get rfl).symm
  refine ⟨hother _ _ nofun nofun, fun s hs => ?_⟩
  cases hs
  refine ⟨hpoll, fun s hs => ?_⟩
  cases hs
  refine ⟨hother _ _ nofun nofun, fun s hs => ?_⟩
  cases hs
  refine ⟨hother _ _ nofun nofun, fun s hs => ?_⟩
  cases hs
  refine ⟨hother _ _ nofun nofun, fun s hs => ?_⟩
  cases hs
  refine ⟨hrestart _ fun p => ?_, fun _ _ => trivial⟩
  fin_cases p
  exact Nat.le_refl _

/-- The record is the only one below the position. -/
theorem below_restarted {ρ : Type} {record other : ρ}
    (h : Below (restarted record).log (restarted record).position other) : other = record := by
  obtain ⟨p, o, hlt, hother⟩ := h
  fin_cases p
  obtain rfl : o = 0 := Nat.lt_one_iff.mp hlt
  exact (Option.some.inj hother).symm

/-- A restart after the save: the memory is empty and the record is found. -/
theorem recent_data_survives_restarts_saved :
    ((restarted (sampleSpan "a" 5)).batches = [] ∧
      ∃ found ∈ scan 10 (restarted (sampleSpan "a" 5)) "a" 0 100, found.identity = (1, 2)) ∧
    (restarted (sampleRecord "a" 5000000)).batches = [] ∧
      ⟨"a", 5, ()⟩ ∈ WalTail.unionRows sampleConfig (restarted (sampleRecord "a" 5000000)) := by
  obtain ⟨hspans, hsamples⟩ := @recent_data_survives_restarts Unit Unit 1 _ 10 sampleConfig
  refine ⟨⟨rfl, ?_⟩, rfl, ?_⟩
  · refine (hspans (restarted (sampleSpan "a" 5)) (reachable_restarted trivial ?_ ?_) 0 0
      (sampleSpan "a" 5) (by decide) rfl ?_).1 0 100 (by decide)
    · exact fun s hsaved p o record hlt _ _ => lt_of_lt_of_le hlt (hsaved p)
    · intro s event hrestart _
      cases event <;> trivial
    · intro other hother
      rw [below_restarted hother]
      exact (by decide : keeps 10 5 5 = true)
  · refine hsamples (restarted (sampleRecord "a" 5000000)) (reachable_restarted ?_ ?_ ?_) 0 0
      (sampleRecord "a" 5000000) (by decide) rfl _ (by decide +kernel) ?_
    · rintro taken htaken
      cases htaken
      decide +kernel
    · exact fun s hsaved p o record hlt _ _ => lt_of_lt_of_le hlt (hsaved p)
    · intro s event hrestart hpoll
      cases event <;> first | trivial | exact absurd rfl (hpoll _)
    · intro other hother newest hnewest
      rw [below_restarted hother] at hnewest
      cases hnewest
      decide +kernel

/-- A live store that took a span, committed and restarted has passed the span, and neither query
finds it while the block builder has not saved it; the same for the profiles tail. -/
theorem recent_data_lost_at_restart :
    (System.run Tiers.step ({} : Tiers 1 (SpanRecord Unit))
        [.append 0 (sampleSpan "a" 5), .poll [0], .commit, .restart]).map
      (fun s => (s.position 0, (scan 10 s "a" 0 100).length, (traceById 10 s "a" 1).length)) =
        some (1, 0, 0) ∧
    (System.run Tiers.step ({} : Tiers 1 (WalTail.Record Unit))
        [.append 0 (sampleRecord "a" 5), .poll [0], .commit, .restart]).map
      (fun s => (s.position 0, (WalTail.unionRows sampleConfig s).length)) = some (1, 0) := by
  constructor <;> decide +kernel

end KrabkaO11y.Traces.Live
