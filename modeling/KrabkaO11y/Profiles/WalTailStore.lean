import KrabkaO11y.Traces.LiveStore

/-!
The hot tier of profiles (`crates/profiles/src/hot_store/wal_tail_profile_store.rs`).

Records of all tenants wait in one queue. After a batch, the records at its front are dropped
that are older than the maximal age before the last record of the queue, and once enough were
dropped the queryable store is rebuilt from the queue. A record leaves only after a horizon
passed its newest sample.
-/

namespace KrabkaO11y.Profiles

open List

open Machine (saturatingSub)

variable {α : Type}

/-- Milliseconds since the epoch, rounded down. -/
def profileTimestampMs (timestampNs : Int64) : Int64 := Int64.ofInt (timestampNs.toInt / 1000000)

instance lawfulOrderMaxInt64 : Std.LawfulOrderMax Int64 where
  max_eq_or a b := by
    change (if a ≤ b then b else a) = a ∨ (if a ≤ b then b else a) = b
    split
    · exact .inr rfl
    · exact .inl rfl
  max_le_iff a b c := by
    change (if a ≤ b then b else a) ≤ c ↔ a ≤ c ∧ b ≤ c
    split <;> simp only [Int64.le_iff_toInt_le] at * <;> omega

namespace WalTail

/-- A sample of a record, with everything but its time as one payload. -/
structure Sample (α : Type) where
  timestampNs : Int64
  payload : α
deriving DecidableEq, Repr

structure Record (α : Type) where
  tenant : String
  samples : List (Sample α)
deriving DecidableEq, Repr

/-- A row of the queryable store. -/
structure Row (α : Type) where
  tenant : String
  timestampMs : Int64
  payload : α
deriving DecidableEq, Repr

structure RetentionConfig where
  maxAgeMs : Int64
  maxRecords : Nat
deriving DecidableEq, Repr

structure Retained (α : Type) where
  maxTsMs : Int64
  record : Record α
deriving DecidableEq, Repr

structure State (α : Type) where
  inner : List (Row α) := []
  records : List (Retained α) := []
  evictedSinceRebuild : Nat := 0
deriving DecidableEq, Repr

def rebuildAmortizeFactor : Nat := 8

/-- The rows that `apply_record` pushes. -/
def applyRecord (record : Record α) : List (Row α) :=
  record.samples.map fun sample =>
    ⟨record.tenant, profileTimestampMs sample.timestampNs, sample.payload⟩

/-- The newest sample of a record, if it has one. -/
def maxTsMs (record : Record α) : Option Int64 :=
  (record.samples.map fun sample => profileTimestampMs sample.timestampNs).max?

/-- The records of a batch that carry a timestamp. -/
def fresh (batch : List (Record α)) : List (Retained α) :=
  batch.filterMap fun record => (maxTsMs record).map fun newest => ⟨newest, record⟩

def horizon (config : RetentionConfig) (records : List (Retained α)) : Int64 :=
  saturatingSub ((records.getLast?.map Retained.maxTsMs).getD Int64.minValue) config.maxAgeMs

/-- The records that survive the age, before the count is looked at. -/
def survivors (config : RetentionConfig) (records : List (Retained α)) : List (Retained α) :=
  records.dropWhile fun item => item.maxTsMs < horizon config records

def prune (config : RetentionConfig) (state : State α) : State α :=
  let kept := survivors config state.records
  let kept := kept.drop (kept.length - config.maxRecords)
  { state with
    records := kept
    evictedSinceRebuild := state.evictedSinceRebuild + (state.records.length - kept.length) }

variable (state : State α)

def shouldRebuild : Bool :=
  0 < state.evictedSinceRebuild &&
    state.records.length ≤ state.evictedSinceRebuild * rebuildAmortizeFactor

def rebuild : State α :=
  { state with
    inner := state.records.flatMap fun item => applyRecord item.record
    evictedSinceRebuild := 0 }

def rebuildIfWorth : State α :=
  if shouldRebuild state then rebuild state else state

/-- The part of `append_records_with_positions` after the rows were pushed. -/
def retain (config : RetentionConfig) (state : State α) (new : List (Retained α)) : State α :=
  if new = [] then state
  else
    let pruned := prune config { state with records := state.records ++ new }
    rebuildIfWorth pruned

def appendRecords (config : RetentionConfig) (state : State α) (batch : List (Record α)) :
    State α :=
  retain config { state with inner := state.inner ++ batch.flatMap applyRecord } (fresh batch)

/-- A store that some batches were appended to, in order. -/
def fed (config : RetentionConfig) (batches : List (List (Record α))) : State α :=
  batches.foldl (appendRecords config) {}

/-- The samples of a tenant that a query over a range and any other criteria selects. -/
def select (tenant : String) (criteria : α → Bool) (startMs endMs : Int64) :
    List (Row α) :=
  state.inner.filter fun row => row.tenant = tenant && criteria row.payload &&
    startMs ≤ row.timestampMs && row.timestampMs ≤ endMs

/-- The count limit drops nothing at any append. -/
def Unreached (config : RetentionConfig) : State α → List (List (Record α)) → Prop
  | _, [] => True
  | state, batch :: rest =>
    (survivors config (state.records ++ fresh batch)).length ≤ config.maxRecords ∧
      Unreached config (appendRecords config state batch) rest

/-! ### What is dropped -/

/-- The horizon that a batch prunes at: the maximal age before its last record. -/
def batchHorizon (config : RetentionConfig) (batch : List (Record α)) : Option Int64 :=
  (fresh batch).getLast?.map fun last => saturatingSub last.maxTsMs config.maxAgeMs

/-- The horizon comes from the last record of the batch. -/
theorem horizon_append {config : RetentionConfig} {records new : List (Retained α)}
    {last : Retained α} (hl : new.getLast? = some last) :
    horizon config (records ++ new) = saturatingSub last.maxTsMs config.maxAgeMs := by
  rw [horizon, getLast?_append, hl]
  rfl

/-- The store shows the records since some position and queues those since a later one, and
every record before was passed. -/
structure Tracks (passed : Retained α → Prop) (all : List (Retained α)) (state : State α) :
    Prop where
  split : ∃ gone shown, all = gone ++ shown ++ state.records ∧
    state.inner = (shown ++ state.records).flatMap (fun item => applyRecord item.record) ∧
    (∀ item ∈ gone, passed item) ∧ ∀ item ∈ shown, passed item

theorem tracks_empty (passed : Retained α → Prop) : Tracks passed [] {} :=
  ⟨[], [], rfl, rfl, by simp, by simp⟩

theorem maxTsMs_eq_none {record : Record α} : maxTsMs record = none ↔ record.samples = [] := by
  rw [maxTsMs, max?_eq_none_iff, map_eq_nil_iff]

/-- A batch pushes the rows of its records that carry a timestamp. -/
theorem flatMap_fresh (batch : List (Record α)) :
    (fresh batch).flatMap (fun item => applyRecord item.record) = batch.flatMap applyRecord := by
  induction batch with
  | nil => rfl
  | cons record rest ih =>
    rw [fresh] at ih
    rw [fresh, filterMap_cons, flatMap_cons, ← ih]
    cases hmax : maxTsMs record with
    | none => rw [applyRecord, maxTsMs_eq_none.mp hmax]; rfl
    | some newest => rfl

variable {passed : Retained α → Prop} {config : RetentionConfig}

/-- The queue is what the horizon of its last record has passed, and the survivors. -/
theorem exists_dropped {records new : List (Retained α)} {last : Retained α}
    (hl : new.getLast? = some last) :
    ∃ dropped, records ++ new = dropped ++ survivors config (records ++ new) ∧
      ∀ item ∈ dropped, item ∈ records ++ new ∧
        item.maxTsMs < saturatingSub last.maxTsMs config.maxAgeMs := by
  refine ⟨_, takeWhile_append_dropWhile.symm, fun item hit => ?_⟩
  have hbefore := mem_takeWhile_imp hit
  rw [horizon_append hl, decide_eq_true_eq] at hbefore
  exact ⟨(takeWhile_sublist _).subset hit, hbefore⟩

/-- A batch drops passed records only, from the queue and from what is shown. -/
theorem Tracks.retain {all new : List (Retained α)} {state : State α} {rows : List (Row α)}
    (h : Tracks passed all state)
    (hrows : rows = new.flatMap fun item => applyRecord item.record)
    (hpas : ∀ last ∈ new.getLast?, ∀ item ∈ state.records ++ new,
      item.maxTsMs < saturatingSub last.maxTsMs config.maxAgeMs → passed item)
    (hcount : (survivors config (state.records ++ new)).length ≤ config.maxRecords) :
    Tracks passed (all ++ new)
      (retain config { state with inner := state.inner ++ rows } new) := by
  obtain ⟨gone, shown, hall, hin, hgo, hsh⟩ := h.split
  rw [WalTail.retain]
  split
  · rename_i hnil
    subst hnil
    refine ⟨gone, shown, by rw [hall, append_nil], ?_, hgo, hsh⟩
    rw [hrows]
    simpa using hin
  rename_i hne
  obtain ⟨last, hl⟩ := Option.isSome_iff_exists.mp (getLast?_isSome.mpr hne)
  obtain ⟨dropped, hsp, hdr⟩ := @exists_dropped _ config state.records _ _ hl
  have hpr : (prune config { state with
      inner := state.inner ++ rows, records := state.records ++ new }).records =
        survivors config (state.records ++ new) := by
    rw [prune, Nat.sub_eq_zero_of_le hcount]
    rfl
  have hbo : ∀ item ∈ shown ++ dropped, passed item := by
    intro item hit
    rcases mem_append.mp hit with hold | hnew
    · exact hsh item hold
    · exact hpas last hl item (hdr item hnew).1 (hdr item hnew).2
  change Tracks passed (all ++ new) (rebuildIfWorth (prune config { state with
    inner := state.inner ++ rows, records := state.records ++ new }))
  rw [rebuildIfWorth]
  split
  · refine ⟨gone ++ (shown ++ dropped), [], ?_, ?_, ?_, by simp⟩
    · change _ = _ ++ (prune config _).records
      rw [hpr, hall, append_nil, append_assoc, append_assoc, append_assoc,
        append_assoc, ← hsp]
    · rfl
    · intro item hit
      rcases mem_append.mp hit with hold | hnew
      · exact hgo item hold
      · exact hbo item hnew
  · refine ⟨gone, shown ++ dropped, ?_, ?_, hgo, hbo⟩
    · rw [hpr, hall, append_assoc, append_assoc, append_assoc,
        append_assoc, ← hsp]
    · change state.inner ++ rows = _
      rw [hpr, append_assoc, ← hsp, hin, hrows]
      simp only [flatMap_append, append_assoc]

/-- What tracks one reason to be gone tracks a weaker one. -/
theorem Tracks.mono {passed' : Retained α → Prop} {all : List (Retained α)} {state : State α}
    (h : Tracks passed all state) (hpassed : ∀ item, passed item → passed' item) :
    Tracks passed' all state := by
  obtain ⟨gone, shown, hall, hinner, hgone, hshown⟩ := h.split
  exact ⟨gone, shown, hall, hinner, fun item hitem => hpassed item (hgone item hitem),
    fun item hitem => hpassed item (hshown item hitem)⟩

/-- A batch at or after that of a record prunes at a horizon past its newest sample. -/
def Passed (config : RetentionConfig) (batches : List (List (Record α))) (item : Retained α) :
    Prop :=
  ∃ sofar batch, sofar ++ [batch] <+: batches ∧ item ∈ (sofar ++ [batch]).flatMap fresh ∧
    ∃ horizon ∈ batchHorizon config batch, item.maxTsMs < horizon

/-- One more batch is one more look at the cap. -/
theorem unreached_append {batches : List (List (Record α))} {batch : List (Record α)} :
    ∀ {state : State α}, Unreached config state (batches ++ [batch]) ↔
      Unreached config state batches ∧
        (survivors config ((batches.foldl (appendRecords config) state).records ++
          fresh batch)).length ≤ config.maxRecords := by
  induction batches with
  | nil => simp [Unreached]
  | cons first rest ih =>
    intro state
    rw [cons_append, Unreached, ih, Unreached, and_assoc]
    rfl

/-- While the count limit is not reached, only passed records leave the store. -/
theorem tracks_fed (batches : List (List (Record α))) (hunr : Unreached config {} batches) :
    Tracks (Passed config batches) (batches.flatMap fresh) (fed config batches) := by
  induction batches using List.reverseRecOn with
  | nil => exact tracks_empty _
  | append_singleton batches batch ih =>
    obtain ⟨hunr, hcount⟩ := unreached_append.mp hunr
    have htracks : Tracks (Passed config (batches ++ [batch])) (batches.flatMap fresh)
        (fed config batches) := by
      refine (ih hunr).mono fun item hitem => ?_
      obtain ⟨sofar, last, hfront, hpassed⟩ := hitem
      exact ⟨sofar, last, hfront.trans ( prefix_append _ _), hpassed⟩
    obtain ⟨gone, shown, hall, -⟩ := htracks.split
    rw [fed, foldl_append, flatMap_append, flatMap_singleton]
    refine htracks.retain (flatMap_fresh batch).symm (fun last hlast item hitem hlt => ?_) hcount
    refine ⟨batches, batch, prefix_rfl, ?_, _, Option.mem_map_of_mem _ hlast, hlt⟩
    rw [flatMap_append, flatMap_singleton, hall, append_assoc]
    exact mem_append_right _ hitem

/-! ### A store of one's own -/

/-- The newest record of a tenant. -/
def newestOf (tenant : String) (batches : List (List (Record α))) : Int64 :=
  ((((batches.flatMap fresh).filter (·.record.tenant = tenant)).map Retained.maxTsMs).max?).getD
    Int64.minValue

/-- The maximal age before the newest record of a tenant. -/
def recentSince (config : RetentionConfig) (tenant : String) (batches : List (List (Record α))) :
    Int64 :=
  saturatingSub (newestOf tenant batches) config.maxAgeMs

/-- No recent record of the tenant is passed. -/
def SparesRecent (config : RetentionConfig) (tenant : String) (batches : List (List (Record α))) :
    Prop :=
  ∀ item, item.record.tenant = tenant → recentSince config tenant batches ≤ item.maxTsMs →
    ¬ Passed config batches item

/-- The rows of a tenant since some time. -/
def since (tenant : String) (cutMs : Int64) : List (Row α) :=
  state.inner.filter fun row => row.tenant = tenant && cutMs ≤ row.timestampMs

theorem le_maxTsMs {batch : List (Record α)} {item : Retained α} (hitem : item ∈ fresh batch)
    {row : Row α} (hrow : row ∈ applyRecord item.record) :
    row.timestampMs ≤ item.maxTsMs ∧ row.tenant = item.record.tenant := by
  obtain ⟨record, -, hmax⟩ := mem_filterMap.mp hitem
  obtain ⟨newest, hnew, rfl⟩ := Option.map_eq_some_iff.mp hmax
  obtain ⟨sample, hsam, rfl⟩ := mem_map.mp hrow
  refine ⟨?_, rfl⟩
  have := max?_eq_some_iff.mp hnew
  exact this.2 _ (mem_map_of_mem hsam)

variable {batches : List (List (Record α))} {tenant : String}

/-- While recent records are spared, the store shows every recent row of the tenant. -/
theorem since_fed {cutMs : Int64}
    (hsp : ∀ item, item.record.tenant = tenant → cutMs ≤ item.maxTsMs →
      ¬ Passed config batches item)
    (hunr : Unreached config {} batches) :
    since (fed config batches) tenant cutMs =
      ((batches.flatMap fresh).flatMap fun item => applyRecord item.record).filter fun row =>
        row.tenant = tenant && cutMs ≤ row.timestampMs := by
  -- what was passed shows no recent row of the tenant
  obtain ⟨gone, shown, hall, hin, hgo, -⟩ := (tracks_fed batches hunr).split
  have hno : (gone.flatMap fun item => applyRecord item.record).filter (fun row =>
      row.tenant = tenant && cutMs ≤ row.timestampMs) = [] := by
    refine filter_eq_nil_iff.mpr fun row hrow hrct => ?_
    obtain ⟨item, hit, hrow⟩ := mem_flatMap.mp hrow
    have hmem : item ∈ batches.flatMap fresh := by
      rw [hall, append_assoc]
      exact mem_append_left _ hit
    obtain ⟨own, -, hfs⟩ := mem_flatMap.mp hmem
    obtain ⟨hle, hten⟩ := le_maxTsMs hfs hrow
    simp only [Bool.and_eq_true, decide_eq_true_eq] at hrct
    exact hsp item (hten.symm.trans hrct.1) (Int64.le_trans hrct.2 hle) (hgo item hit)
  rw [hall, append_assoc, flatMap_append, filter_append, hno, nil_append,
    ← hin]
  rfl

theorem fresh_filter (tenant : String) (batch : List (Record α)) :
    fresh (batch.filter (·.tenant = tenant)) =
      (fresh batch).filter (·.record.tenant = tenant) := by
  rw [fresh, fresh, filterMap_filter, filter_filterMap]
  refine filterMap_congr fun record _ => ?_
  cases maxTsMs record with
  | none => simp
  | some newest => by_cases hten : record.tenant = tenant <;> simp [Option.filter, hten]

theorem flatMap_fresh_filter (tenant : String) (batches : List (List (Record α))) :
    (batches.map (·.filter (·.tenant = tenant))).flatMap fresh =
      (batches.flatMap fresh).filter (·.record.tenant = tenant) := by
  rw [flatMap_map, filter_flatMap]
  exact flatMap_congr fun batch _ => fresh_filter tenant batch

/-- What is recent for a tenant depends on its own records. -/
theorem recentSince_filter (tenant : String) (batches : List (List (Record α))) :
    recentSince config tenant (batches.map (·.filter (·.tenant = tenant))) =
      recentSince config tenant batches := by
  rw [recentSince, recentSince, newestOf, newestOf, flatMap_fresh_filter, filter_filter]
  simp only [Bool.and_self]

/-- A store of the tenant's own spares its recent records by itself. -/
theorem sparesRecent_filter (tenant : String) (batches : List (List (Record α))) :
    SparesRecent config tenant (batches.map (·.filter (·.tenant = tenant))) := by
  rintro item - hrct ⟨sofar, batch, hpre, -, horizon, hhor, hlt⟩
  have hba := hpre.subset (mem_append_right sofar mem_cons_self)
  refine Int64.not_lt.mpr (Int64.le_trans ?_ hrct) hlt
  obtain ⟨last, hl, rfl⟩ := Option.map_eq_some_iff.mp hhor
  rw [recentSince_filter]
  refine Machine.saturatingSub_mono ?_ _
  -- the last record of the batch is one of the tenant's
  have hmem : last ∈ (batches.map (·.filter (·.tenant = tenant))).flatMap fresh :=
    mem_flatMap.mpr ⟨batch, hba, mem_of_getLast? hl⟩
  rw [flatMap_fresh_filter] at hmem
  have hmax := mem_map_of_mem (f := Retained.maxTsMs) hmem
  rw [newestOf]
  cases hnew : (((batches.flatMap fresh).filter (·.record.tenant = tenant)).map
      Retained.maxTsMs).max? with
  | none => rw [max?_eq_none_iff.mp hnew] at hmax; simp at hmax
  | some newest => exact (max?_eq_some_iff.mp hnew).2 _ hmax

/-- The rows of a tenant come from its own records. -/
theorem filter_rows_tenant (tenant : String) (records : List (Retained α)) (cutMs : Int64) :
    (((records.filter (·.record.tenant = tenant)).flatMap fun item =>
        applyRecord item.record).filter fun row =>
          row.tenant = tenant && cutMs ≤ row.timestampMs) =
      ((records.flatMap fun item => applyRecord item.record).filter fun row =>
        row.tenant = tenant && cutMs ≤ row.timestampMs) := by
  induction records with
  | nil => rfl
  | cons item rest ih =>
    rw [flatMap_cons, filter_append, ← ih, filter_cons]
    split
    · rw [flatMap_cons, filter_append]
    · rename_i ho
      have : (applyRecord item.record).filter (fun row =>
          row.tenant = tenant && cutMs ≤ row.timestampMs) = [] := by
        refine filter_eq_nil_iff.mpr fun row hrow => ?_
        obtain ⟨sample, -, rfl⟩ := mem_map.mp hrow
        simp only [decide_eq_true_eq] at ho
        simp [ho]
      rw [this, nil_append]

/-- While no recent record of the tenant is passed, its recent rows are those of a
store of its own. -/
theorem since_alone
    (spares : SparesRecent config tenant batches) (hunr : Unreached config {} batches)
    (hunr' : Unreached config {} (batches.map (·.filter (·.tenant = tenant)))) :
    since (fed config batches) tenant (recentSince config tenant batches) =
      since (fed config (batches.map (·.filter (·.tenant = tenant)))) tenant
        (recentSince config tenant batches) := by
  have hal := @sparesRecent_filter α config tenant batches
  rw [SparesRecent, recentSince_filter] at hal
  rw [since_fed spares hunr, since_fed hal hunr', flatMap_fresh_filter,
    filter_rows_tenant]

theorem filter_select (tenant : String) (criteria : α → Bool)
    (startMs endMs cutMs : Int64) :
    (select state tenant criteria startMs endMs).filter (cutMs ≤ ·.timestampMs) =
      (since state tenant cutMs).filter fun row => criteria row.payload &&
        startMs ≤ row.timestampMs && row.timestampMs ≤ endMs := by
  rw [select, since, filter_filter, filter_filter]
  refine filter_congr fun row _ => ?_
  simp only [Bool.and_comm, Bool.and_left_comm, Bool.and_assoc]

end WalTail

open Traces (Live.LiveStore Live.Readers Live.SpanRecord Live.KeptWithOthers Live.readsAlike_iff)

/-- A tenant reads the same spans beside others as alone exactly when its spans that its own
newest span keeps are kept by the newest of all; and it selects the same recent samples beside
others as alone while none of its recent records is passed. -/
theorem hot_data_kept_apart {β Row Batch Tags Values : Type}
    (readers : Live.Readers α Row Batch Tags Values) (retentionNs : Int64)
    (records : List (Live.SpanRecord α)) (tenant : String) {config : WalTail.RetentionConfig}
    {batches : List (List (WalTail.Record β))} (hunreached : WalTail.Unreached config {} batches)
    (hunreached' : WalTail.Unreached config {} (batches.map (·.filter (·.tenant = tenant)))) :
    (Live.LiveStore.ReadsAlike readers tenant (.fed retentionNs records)
        (.fed retentionNs (records.filter (·.tenant = tenant))) ↔
      Live.KeptWithOthers retentionNs records tenant) ∧
    (WalTail.SparesRecent config tenant batches → ∀ criteria startMs endMs,
      (WalTail.select (WalTail.fed config batches) tenant criteria startMs endMs).filter
          (WalTail.recentSince config tenant batches ≤ ·.timestampMs) =
        (WalTail.select (WalTail.fed config (batches.map (·.filter (·.tenant = tenant)))) tenant
          criteria startMs endMs).filter
            (WalTail.recentSince config tenant batches ≤ ·.timestampMs)) := by
  refine ⟨Live.readsAlike_iff readers retentionNs records tenant, fun hspares => ?_⟩
  intro criteria startMs endMs
  rw [WalTail.filter_select, WalTail.filter_select,
    WalTail.since_alone hspares hunreached hunreached']

/-! ### Sample tenants -/

def sampleSpan (tenant : String) (startNs : Int64) : Live.SpanRecord Unit :=
  ⟨tenant, 1, 2, startNs, ()⟩

def sampleRecord (tenant : String) (timestampNs : Int64) : WalTail.Record Unit :=
  ⟨tenant, [⟨timestampNs, ()⟩]⟩

def sampleReaders : Live.Readers Unit Nat Nat Nat Nat :=
  ⟨fun inRange spans => [inRange.length, spans.length], fun rows => .ok rows.sum, List.length,
    fun _ traces => traces.length⟩

/-- A retention of ten seconds. -/
def sampleConfig : WalTail.RetentionConfig := ⟨10000, 100⟩

def sampleBatches : List (List (WalTail.Record Unit)) :=
  [[sampleRecord "a" 0], [sampleRecord "b" 5000000000, sampleRecord "a" 1000000]]

theorem unreached_sampleBatches : WalTail.Unreached sampleConfig {} sampleBatches :=
  ⟨by decide +kernel, by decide +kernel, trivial⟩

theorem unreached_sampleBatches_alone :
    WalTail.Unreached sampleConfig {} (sampleBatches.map (·.filter (·.tenant = "a"))) :=
  ⟨by decide +kernel, by decide +kernel, trivial⟩

theorem sparesRecent_sampleBatches : WalTail.SparesRecent sampleConfig "a" sampleBatches := by
  have hhorizons : ∀ batch ∈ sampleBatches,
      WalTail.batchHorizon sampleConfig batch ∈ [some (-10000), some (-9999)] := by
    decide +kernel
  have hrecent : ∀ item ∈ sampleBatches.flatMap WalTail.fresh, (0 : Int64) ≤ item.maxTsMs := by
    decide +kernel
  rintro item - - ⟨sofar, batch, hpre, hitem, horizon, hhorizon, hlt⟩
  have hbatch := hhorizons batch (hpre.subset (mem_append_right sofar mem_cons_self))
  obtain ⟨own, hown, hitem⟩ := mem_flatMap.mp hitem
  have hle := hrecent item (mem_flatMap.mpr ⟨own, hpre.subset hown, hitem⟩)
  rw [hhorizon] at hbatch
  simp only [mem_cons, not_mem_nil, or_false, Option.some.injEq] at hbatch
  refine Int64.not_lt.mpr (Int64.le_trans ?_ hle) hlt
  rcases hbatch with rfl | rfl <;> decide

/-- Neighbours within the retention and the maximal age. -/
theorem hot_data_kept_apart_neighbours :
    Live.LiveStore.ReadsAlike sampleReaders "a"
        (.fed 10 [sampleSpan "a" 0, sampleSpan "b" 5, sampleSpan "a" 8])
        (.fed 10 [sampleSpan "a" 0, sampleSpan "a" 8]) ∧
      (WalTail.select (WalTail.fed sampleConfig sampleBatches) "a" (fun _ => true) 0 100).filter
          (WalTail.recentSince sampleConfig "a" sampleBatches ≤ ·.timestampMs) =
        (WalTail.select (WalTail.fed sampleConfig (sampleBatches.map (·.filter (·.tenant = "a"))))
          "a" (fun _ => true) 0 100).filter
            (WalTail.recentSince sampleConfig "a" sampleBatches ≤ ·.timestampMs) :=
  have h := hot_data_kept_apart sampleReaders 10
    [sampleSpan "a" 0, sampleSpan "b" 5, sampleSpan "a" 8] "a" unreached_sampleBatches
    unreached_sampleBatches_alone
  ⟨h.1.mpr (by decide +kernel), h.2 sparesRecent_sampleBatches _ 0 100⟩

/-- A span or a sample of another tenant from a later time drops those of the tenant. -/
theorem hot_data_not_kept_apart :
    ((Live.LiveStore.fed 10 [sampleSpan "a" 0, sampleSpan "b" 100]).traceById "a" 1 = [] ∧
      (Live.LiveStore.fed 10 [sampleSpan "a" 0]).traceById "a" 1 = [(sampleSpan "a" 0).span]) ∧
    (WalTail.select (WalTail.fed sampleConfig
        [[sampleRecord "a" 0], [sampleRecord "b" 60000000000]]) "a" (fun _ => true) 0 100 = [] ∧
      WalTail.select (WalTail.fed sampleConfig [[sampleRecord "a" 0], []]) "a" (fun _ => true) 0
        100 = [⟨"a", 0, ()⟩]) := by
  refine ⟨⟨?_, ?_⟩, ?_, ?_⟩ <;> decide +kernel

end KrabkaO11y.Profiles
