import KrabkaO11y.Concurrent.System
import KrabkaO11y.Machine.Float
import KrabkaO11y.Profiles.Downsample

/-!
The totals that a series query adds up (`crates/pprof/src/engine.rs`, `engine/flame_engine.rs`,
`series/series_bucket_ms.rs`), over blocks that the block builder wrote and compactions merged.

Every row of a profile carries the total of the profile, and the query takes the greatest total of
each millisecond and series. That is the total of the profile as long as the series has one
profile there, and as long as downsampling, which adds up the totals of the rows it joins, joins
no two of them. `series_sums_profiles` is the sum under these conditions. The step that the end of
the range cuts off has no point, so the profiles in it are left out.

A block carries the profiles in it with the time that each is stored at. Only the conditions and
the result speak of them; the rows are computed without. Sums wrap as `i64`, and a point is the
closest `f64` of one, so the sum of each step has to be one that an `f64` holds exactly.
-/

namespace KrabkaO11y.Profiles.Totals

open Collections Concurrent Concurrent.System Machine List

variable {ι : Type}

/-! ### Blocks -/

structure Sample (ι : Type) where
  stacktraceId : Nat
  spanId : Option Nat
  traceId : Option (List Nat)
  value : Int64
  walSampleIds : List ι
deriving DecidableEq, Repr

/-- A WAL record whose samples have one time. -/
structure Profile (ι : Type) where
  seriesFingerprint : Nat
  profileType : String
  timestampMs : Int64
  samples : List (Sample ι)
deriving DecidableEq, Repr

namespace Profile

def totalValue (profile : Profile ι) : Int64 := (profile.samples.map Sample.value).sum

/-- What the samples add up to, without wrapping. -/
def total (profile : Profile ι) : Int := (profile.samples.map (·.value.toInt)).sum

def Fits (profile : Profile ι) : Prop := -2 ^ 63 ≤ profile.total ∧ profile.total < 2 ^ 63
deriving Decidable

/-- A total within `i64` does not wrap. -/
theorem Fits.toInt_totalValue {profile : Profile ι} (h : profile.Fits) :
    profile.totalValue.toInt = profile.total := by
  have eq : profile.total = ((profile.samples.map Sample.value).map Int64.toInt).sum := by
    rw [map_map]
    rfl
  rw [totalValue, toInt_sum (eq ▸ h.1) (eq ▸ h.2), eq]

def rows (profile : Profile ι) : List (SampleRow ι) :=
  profile.samples.map fun sample =>
    { timestamp := profile.timestampMs
      fields :=
        { seriesFingerprint := profile.seriesFingerprint
          profileType := profile.profileType
          stacktraceId := sample.stacktraceId
          value := sample.value
          stacktracePartition
          totalValue := profile.totalValue
          spanId := sample.spanId
          traceId := sample.traceId
          walSampleIds := sample.walSampleIds } }

end Profile

/-- A profile with the time that its rows have. -/
structure StoredProfile (ι : Type) where
  timestamp : Int64
  profile : Profile ι
deriving DecidableEq, Repr

structure Block (ι : Type) where
  stored : ProfileBlock ι
  profiles : List (StoredProfile ι)
deriving DecidableEq, Repr

def writeBlock (profiles : List (Profile ι)) : Block ι where
  stored := .ofRows (profiles.flatMap Profile.rows)
  profiles := profiles.map fun profile => ⟨profile.timestampMs, profile⟩

/-- The profile after a compaction, with or without a downsampling policy. -/
def StoredProfile.rounded (policy : Option Int64) (stored : StoredProfile ι) : StoredProfile ι :=
  { stored with timestamp := policy.elim stored.timestamp (bucket · stored.timestamp) }

def compactBlocks (minRows : Nat) (policy : Option Int64) (merged : List (Block ι))
    (batches : List (List (SampleRow ι))) : Except String (Block ι) := do
  let stored ← compactBlocksWithPolicy minRows policy (merged.map Block.stored) batches
  return ⟨stored, (merged.flatMap Block.profiles).map (·.rounded policy)⟩

/-! ### The store -/

structure Store (ι : Type) where
  blocks : List (Block ι) := []
deriving DecidableEq, Repr

namespace Store

def rows (s : Store ι) : List (SampleRow ι) := s.blocks.flatMap (·.stored.rows)

def profiles (s : Store ι) : List (StoredProfile ι) := s.blocks.flatMap Block.profiles

end Store

/-- `batches` are the merged rows as they arrive, `rest` the blocks that are left alone. -/
inductive Event (ι : Type) where
  | flush (profiles : List (Profile ι))
  | compact (policy : Option Int64) (merged rest : List (Block ι))
      (batches : List (List (SampleRow ι)))

def step [DecidableEq ι] (minRows : Nat) (s : Store ι) : Event ι → Option (Store ι)
  | .flush profiles => some ⟨writeBlock profiles :: s.blocks⟩
  | .compact policy merged rest batches =>
    if s.blocks.Perm (merged ++ rest) ∧ Merged (merged.map Block.stored) batches then
      (compactBlocks minRows policy merged batches).toOption.map fun block => ⟨block :: rest⟩
    else none

def initial (s : Store ι) : Prop := s.blocks = []

/-! ### The query -/

structure Query where
  profileType : String
  selected : Nat → Bool
  startMs : Int64
  endMs : Int64
  stepMs : Int64

namespace Query

/-- The scan starts one step before the range. -/
def scanStart (q : Query) : Int64 := saturatingSub q.startMs q.stepMs

def inWindow (q : Query) (timestamp : Int64) : Bool :=
  q.scanStart ≤ timestamp ∧ timestamp ≤ q.endMs

def selects (q : Query) (seriesFingerprint : Nat) (profileType : String) : Bool :=
  profileType = q.profileType ∧ q.selected seriesFingerprint

end Query

def select (q : Query) (rows : List (SampleRow ι)) : List (SampleRow ι) :=
  rows.filter fun row =>
    q.selects row.fields.seriesFingerprint row.fields.profileType && q.inWindow row.timestamp

/-- The group of a row: its millisecond and its series. -/
def group (row : SampleRow ι) : Int64 × Nat := (row.timestamp, row.fields.seriesFingerprint)

def maxTotal (rows : List (SampleRow ι)) (g : Int64 × Nat) : Int64 :=
  ((rows.filter (group · = g)).map (·.fields.totalValue)).max?.getD 0

def heatmapPointsFromTotals (rows : List (SampleRow ι)) : List (Int64 × Int64) :=
  (rows.map group).dedup.map fun g => (g.1, maxTotal rows g)

/-- The right end of the step of a timestamp, if it is a step of the range. The conversion back
to `i64` succeeds: the end lies between those of the range. -/
def seriesBucketMs (q : Query) (timestamp : Int64) : Option Int :=
  let step := q.stepMs.toInt
  let start := q.startMs.toInt
  if step ≤ 0 ∨ q.endMs.toInt < start ∨ timestamp.toInt < start - step ∨
      q.endMs.toInt < timestamp.toInt then none
  else
    let delta := max (timestamp.toInt - start) 0
    let endpoint := start + (delta + step - 1).tdiv step * step
    if endpoint ≤ q.endMs.toInt then some endpoint else none

/-- The sum of some values as a float. -/
def foldBucket (values : List Int64) : BitVec 64 := f64OfInt values.sum.toInt

/-- The points of totals: the buckets by millisecond that come first keep every value. -/
def seriesPoints (q : Query) (totals : List (Int64 × Int64)) : List (Int × BitVec 64) :=
  let endpoints := (totals.filterMap fun total => seriesBucketMs q total.1).dedup
  (endpoints.insertionSort (· ≤ ·)).map fun endpoint =>
    (endpoint, foldBucket ((totals.filter fun total =>
      seriesBucketMs q total.1 = some endpoint).map Prod.snd))

/-- Summed, without grouping and call sites; `none` when the step or the range is refused. -/
def selectSeries (q : Query) (s : Store ι) : Option (List (Int × BitVec 64)) :=
  if q.stepMs < 1 ∨ q.endMs < q.startMs then none
  else some (seriesPoints q (heatmapPointsFromTotals (select q s.rows)))

/-! ### Sums over groups -/

section Sums

variable {β κ : Type*} [DecidableEq κ] {v : β → Int} {ks : List κ}

theorem sum_ite_of_nodup (nodup : ks.Nodup) {k₀ : κ} (hmem : k₀ ∈ ks) (c : Int) :
    (ks.map fun k => if k₀ = k then c else 0).sum = c := by
  rw [← sum_toFinset _ nodup, Finset.sum_ite_eq, if_pos (mem_toFinset.mpr hmem)]

/-- Adding up group by group adds up everything that has a group. -/
theorem sum_groups (nodup : ks.Nodup) (f : β → Option κ) {xs : List β}
    (hmem : ∀ x ∈ xs, ∀ k, f x = some k → k ∈ ks) :
    (ks.map fun k => ((xs.filter fun x => f x = some k).map v).sum).sum =
      ((xs.filter fun x => (f x).isSome).map v).sum := by
  induction xs with
  | nil => simp
  | cons x xs ih =>
    have ih := ih fun y hy => hmem y (mem_cons_of_mem _ hy)
    have hcn : ∀ k, (((x :: xs).filter fun x => f x = some k).map v).sum =
        (if f x = some k then v x else 0) + ((xs.filter fun x => f x = some k).map v).sum := by
      intro k
      by_cases hk : f x = some k <;> simp [hk]
    simp only [hcn, sum_map_add, ih]
    cases hx : f x with
    | none => simp [hx]
    | some k₀ =>
      have hone := sum_ite_of_nodup nodup (hmem x mem_cons_self k₀ hx) (v x)
      simp only [Option.some.injEq]
      rw [hone]
      simp [hx]

/-- Two filters that differ on zeros only have one sum. -/
theorem sum_filter_congr {p r : β → Bool} {xs : List β}
    (h : ∀ x ∈ xs, p x ≠ r x → v x = 0) :
    ((xs.filter p).map v).sum = ((xs.filter r).map v).sum := by
  induction xs with
  | nil => rfl
  | cons x xs ih =>
    have ih := ih fun y hy => h y (mem_cons_of_mem _ hy)
    have hx := h x mem_cons_self
    cases hp : p x <;> cases hr : r x <;> simp_all

end Sums

/-! ### One total for each group -/

/-- The row is one of the profile. -/
structure RowOf (row : SampleRow ι) (stored : StoredProfile ι) : Prop where
  sampled : stored.profile.samples ≠ []
  timestamp : row.timestamp = stored.timestamp
  seriesFingerprint : row.fields.seriesFingerprint = stored.profile.seriesFingerprint
  profileType : row.fields.profileType = stored.profile.profileType
  totalValue : row.fields.totalValue = stored.profile.totalValue

/-- The rows are those of the profiles, and every profile with samples has one. -/
structure Shows (rows : List (SampleRow ι)) (profiles : List (StoredProfile ι)) : Prop where
  sound : ∀ row ∈ rows, ∃ stored ∈ profiles, RowOf row stored
  complete : ∀ stored ∈ profiles, stored.profile.samples ≠ [] → ∃ row ∈ rows, RowOf row stored

/-- A series has one profile at a time. -/
def seriesTime (stored : StoredProfile ι) : Nat × String × Int64 :=
  (stored.profile.seriesFingerprint, stored.profile.profileType, stored.timestamp)

def Distinct (profiles : List (StoredProfile ι)) : Prop :=
  ((profiles.filter fun stored => !stored.profile.samples.isEmpty).map seriesTime).Nodup
deriving Decidable

/-- The profiles that a query finds rows of. -/
def found (q : Query) (profiles : List (StoredProfile ι)) : List (StoredProfile ι) :=
  profiles.filter fun stored =>
    !stored.profile.samples.isEmpty &&
      (q.selects stored.profile.seriesFingerprint stored.profile.profileType &&
        q.inWindow stored.timestamp)

section Totals

variable {rows : List (SampleRow ι)} {profiles : List (StoredProfile ι)} {q : Query}
  {stored stored' : StoredProfile ι} {row : SampleRow ι}

theorem mem_found : stored ∈ found q profiles ↔ stored ∈ profiles ∧
    stored.profile.samples ≠ [] ∧
    q.selects stored.profile.seriesFingerprint stored.profile.profileType = true ∧
    q.inWindow stored.timestamp = true := by
  simp [found]

theorem RowOf.mem_select_iff (h : RowOf row stored) (hrow : row ∈ rows) :
    row ∈ select q rows ↔
      q.selects stored.profile.seriesFingerprint stored.profile.profileType = true ∧
        q.inWindow stored.timestamp = true := by
  simp [select, hrow, h.timestamp, h.seriesFingerprint, h.profileType]

/-- A selected row is of a profile that the query finds. -/
theorem Shows.exists_found (h : Shows rows profiles) (hrow : row ∈ select q rows) :
    ∃ stored ∈ found q profiles, RowOf row stored := by
  have hmem := (mem_filter.mp hrow).1
  obtain ⟨stored, hsto, hof⟩ := h.sound row hmem
  exact ⟨stored, mem_found.mpr ⟨hsto, hof.sampled, (hof.mem_select_iff hmem).mp hrow⟩, hof⟩

/-- A profile that the query finds has a selected row. -/
theorem Shows.exists_row (h : Shows rows profiles) (hsto : stored ∈ found q profiles) :
    ∃ row ∈ select q rows, RowOf row stored := by
  obtain ⟨hmem, hsa, hse⟩ := mem_found.mp hsto
  obtain ⟨row, hrow, hof⟩ := h.complete stored hmem hsa
  exact ⟨row, (hof.mem_select_iff hrow).mpr hse, hof⟩

/-- Among the profiles of a query, time and series tell them apart: the type is given. -/
theorem Distinct.eq_of_group (h : Distinct profiles) (hsto : stored ∈ found q profiles)
    (hsto' : stored' ∈ found q profiles) (htimestamp : stored.timestamp = stored'.timestamp)
    (hser : stored.profile.seriesFingerprint = stored'.profile.seriesFingerprint) :
    stored = stored' := by
  obtain ⟨hmem, hsa, hse, -⟩ := mem_found.mp hsto
  obtain ⟨hmem', hsa', hse', -⟩ := mem_found.mp hsto'
  have hty : stored.profile.profileType = stored'.profile.profileType := by
    simp only [Query.selects, decide_eq_true_eq] at hse hse'
    rw [hse.1, hse'.1]
  refine inj_on_of_nodup_map h (mem_filter.mpr ⟨hmem, by simpa using hsa⟩)
    (mem_filter.mpr ⟨hmem', by simpa using hsa'⟩) ?_
  simp [seriesTime, htimestamp, hser, hty]

/-- With one profile in a group, its greatest total is the total. -/
theorem maxTotal_eq (h : Shows rows profiles) (hdis : Distinct profiles)
    (hsto : stored ∈ found q profiles) :
    maxTotal (select q rows) (stored.timestamp, stored.profile.seriesFingerprint) =
      stored.profile.totalValue := by
  have hsm : ∀ total ∈ ((select q rows).filter
      (group · = (stored.timestamp, stored.profile.seriesFingerprint))).map
        (·.fields.totalValue), total = stored.profile.totalValue := by
    intro total htot
    obtain ⟨row, hrow, rfl⟩ := mem_map.mp htot
    obtain ⟨hse, hgr⟩ := mem_filter.mp hrow
    obtain ⟨stored', hsto', hof⟩ := h.exists_found hse
    have hgr : (row.timestamp, row.fields.seriesFingerprint) =
        (stored.timestamp, stored.profile.seriesFingerprint) := by simpa [group] using hgr
    obtain ⟨hts, hser⟩ := Prod.mk.inj hgr
    rw [hdis.eq_of_group hsto hsto' (by rw [← hts, hof.timestamp])
      (by rw [← hser, hof.seriesFingerprint]), hof.totalValue]
  obtain ⟨row, hrow, hof⟩ := h.exists_row hsto
  have hmem : stored.profile.totalValue ∈ ((select q rows).filter
      (group · = (stored.timestamp, stored.profile.seriesFingerprint))).map
        (·.fields.totalValue) :=
    mem_map.mpr ⟨row, mem_filter.mpr
      ⟨hrow, by simp [group, hof.timestamp, hof.seriesFingerprint]⟩, hof.totalValue⟩
  rw [maxTotal, max?_eq_some_iff.mpr ⟨hmem, fun total htot => by
    rw [hsm total htot]; exact Int64.le_refl _⟩]
  rfl

/-- The totals of a scan are those of the profiles found, each once. -/
theorem heatmapPointsFromTotals_perm (h : Shows rows profiles) (hdis : Distinct profiles) :
    (heatmapPointsFromTotals (select q rows)).Perm
      ((found q profiles).map fun stored => (stored.timestamp, stored.profile.totalValue)) := by
  have hfd : (found q profiles).Nodup := by
    have hsub : (found q profiles).Sublist
        (profiles.filter fun stored => !stored.profile.samples.isEmpty) :=
      monotone_filter_right _ fun stored h => (Bool.and_eq_true_iff.mp h).1
    exact (List.Nodup.of_map _ hdis).sublist hsub
  have hgr : ((select q rows).map group).dedup.Perm ((found q profiles).map
      fun stored => (stored.timestamp, stored.profile.seriesFingerprint)) := by
    refine (perm_ext_iff_of_nodup (nodup_dedup _) ?_).mpr fun g => ?_
    · refine hfd.map_on fun stored hsto stored' hsto' heq => ?_
      obtain ⟨hts, hser⟩ := Prod.mk.inj heq
      exact hdis.eq_of_group hsto hsto' hts hser
    · rw [mem_dedup, mem_map, mem_map]
      constructor
      · rintro ⟨row, hrow, rfl⟩
        obtain ⟨stored, hsto, hof⟩ := h.exists_found hrow
        exact ⟨stored, hsto, by rw [group, hof.timestamp, hof.seriesFingerprint]⟩
      · rintro ⟨stored, hsto, rfl⟩
        obtain ⟨row, hrow, hof⟩ := h.exists_row hsto
        exact ⟨row, hrow, by rw [group, hof.timestamp, hof.seriesFingerprint]⟩
  refine (hgr.map fun g => (g.1, maxTotal (select q rows) g)).trans ?_
  rw [map_map]
  refine List.Perm.of_eq (map_congr_left fun stored hsto => ?_)
  simp [maxTotal_eq h hdis hsto]

end Totals

/-! ### Runs -/

/-- The totals of new profiles are within `i64`, the step leaves a series with one profile at a
time, and a downsampling joins no two rows. -/
def Apart (s : Store ι) : Event ι → Prop
  | .flush profiles => (∀ profile ∈ profiles, profile.Fits) ∧
    Distinct ((writeBlock profiles).profiles ++ s.profiles)
  | .compact policy merged rest batches =>
    Distinct ((merged.flatMap Block.profiles).map (·.rounded policy) ++
      rest.flatMap Block.profiles) ∧
    ∀ resolutionNs ∈ policy,
      (batches.flatten.map fun row => (row.rounded resolutionNs).key).Nodup

instance decidableApart (s : Store ι) : (event : Event ι) → Decidable (Apart s event)
  | .flush _ => inferInstanceAs (Decidable (_ ∧ _))
  | .compact _ _ _ _ => inferInstanceAs (Decidable (_ ∧ _))

/-- Every block shows its profiles. -/
structure Invariant (s : Store ι) : Prop where
  shows : ∀ block ∈ s.blocks, Shows block.stored.rows block.profiles
  fits : ∀ block ∈ s.blocks, ∀ stored ∈ block.profiles, stored.profile.Fits
  distinct : Distinct s.profiles

section Runs

variable {minRows : Nat} {s s' : Store ι} {merged : List (Block ι)}
  {batches : List (List (SampleRow ι))} {d : Int64}

/-- Inputs that show profiles one by one show them together. -/
theorem shows_flatMap {α β : Type*} {rows : α → List (SampleRow ι)}
    {profiles : β → List (StoredProfile ι)} {inputs : List α} {shown : List β}
    (h : List.Forall₂ (fun block input => Shows (rows input) (profiles block)) shown inputs) :
    Shows (inputs.flatMap rows) (shown.flatMap profiles) := by
  induction h with
  | nil => exact ⟨nofun, nofun⟩
  | cons first _ ih =>
    refine ⟨fun row hrow => ?_, fun stored hsto hsa => ?_⟩
    · rcases mem_append.mp hrow with hrow | hrow
      · obtain ⟨stored, hsto, hof⟩ := first.sound row hrow
        exact ⟨stored, mem_append_left _ hsto, hof⟩
      · obtain ⟨stored, hsto, hof⟩ := ih.sound row hrow
        exact ⟨stored, mem_append_right _ hsto, hof⟩
    · rcases mem_append.mp hsto with hsto | hsto
      · obtain ⟨row, hrow, hof⟩ := first.complete stored hsto hsa
        exact ⟨row, mem_append_left _ hrow, hof⟩
      · obtain ⟨row, hrow, hof⟩ := ih.complete stored hsto hsa
        exact ⟨row, mem_append_right _ hrow, hof⟩

variable {profiles : List (StoredProfile ι)} {rows rows' : List (SampleRow ι)}

theorem Shows.perm (h : Shows rows profiles) (hperm : rows'.Perm rows) : Shows rows' profiles := by
  refine ⟨fun row hrow => h.sound row (hperm.mem_iff.mp hrow), fun stored hsto hsa => ?_⟩
  obtain ⟨row, hrow, hof⟩ := h.complete stored hsto hsa
  exact ⟨row, hperm.mem_iff.mpr hrow, hof⟩

/-- The partition of a row is not one of the things that a profile fixes. -/
theorem Shows.remap (h : Shows rows profiles) (map : List (Nat × Nat)) :
    Shows (rows.map (·.remap map)) profiles := by
  have moved {row : SampleRow ι} {stored : StoredProfile ι} (hof : RowOf row stored) :
      RowOf (row.remap map) stored :=
    ⟨hof.sampled, hof.timestamp, hof.seriesFingerprint, hof.profileType, hof.totalValue⟩
  refine ⟨fun row hrow => ?_, fun stored hsto hsa => ?_⟩
  · obtain ⟨source, hsrc, rfl⟩ := mem_map.mp hrow
    obtain ⟨stored, hsto, hof⟩ := h.sound source hsrc
    exact ⟨stored, hsto, moved hof⟩
  · obtain ⟨row, hrow, hof⟩ := h.complete stored hsto hsa
    exact ⟨_, mem_map_of_mem hrow, moved hof⟩

/-- The remapped rows of some blocks show the profiles of the blocks. -/
theorem shows_remapInputs {inputs : List (ProfileBlock ι)}
    (remapped : remapInputs (merged.map Block.stored) = .ok inputs)
    (shows : ∀ block ∈ merged, Shows block.stored.rows block.profiles) :
    Shows (inputs.flatMap ProfileBlock.rows) (merged.flatMap Block.profiles) := by
  have profiles : merged.zipIdx.flatMap (·.1.profiles) = merged.flatMap Block.profiles := by
    conv_rhs => rw [← zipIdx_map_fst 0 merged, flatMap_map]
  rw [remapInputs, zipIdx_map, mapM_map] at remapped
  rw [← profiles]
  have shown : ∀ input ∈ merged.zipIdx, Shows input.1.stored.rows input.1.profiles :=
    fun input mem => shows input.1 (mem_of_getElem? (mem_zipIdx_iff_getElem?.mp mem))
  refine shows_flatMap (((forall₂_and_left _ _).mpr
    ⟨shown, forall₂_of_mapM_ok remapped⟩).imp fun input output each => ?_)
  obtain ⟨map, -, remapped⟩ := except_bind_eq_ok.mp each.2
  cases remapped
  exact each.1.remap map

/-- Every row of a flush carries the total of its profile. -/
theorem shows_writeBlock (profiles : List (Profile ι)) :
    Shows (writeBlock profiles).stored.rows (writeBlock profiles).profiles := by
  refine ⟨fun row hrow => ?_, fun stored hsto hsa => ?_⟩
  · rw [writeBlock, ProfileBlock.ofRows, mem_insertionSort] at hrow
    obtain ⟨profile, hpr, hmem⟩ := mem_flatMap.mp hrow
    obtain ⟨sample, hsam, rfl⟩ := mem_map.mp hmem
    exact ⟨⟨profile.timestampMs, profile⟩, mem_map_of_mem hpr,
      ne_nil_of_mem hsam, rfl, rfl, rfl, rfl⟩
  · obtain ⟨profile, hpr, rfl⟩ := mem_map.mp hsto
    obtain ⟨sample, hsam⟩ := exists_mem_of_ne_nil _ hsa
    refine ⟨_, (mem_insertionSort _).mpr (mem_flatMap.mpr
      ⟨profile, hpr, mem_map_of_mem hsam⟩), hsa, rfl, rfl, rfl, rfl⟩

/-- A downsampled row that joins no others has the total of the row it comes from. -/
theorem rowOf_rounded {row out : SampleRow ι} {stored : StoredProfile ι}
    (nodup : ((rows.map (·.rounded d)).map SampleRow.key).Nodup) (hrow : row ∈ rows)
    (hkey : out.key = (row.rounded d).key) (sums : Sums (rows.map (·.rounded d)) out)
    (hof : RowOf row stored) : RowOf out (stored.rounded (some d)) := by
  have htot := sums.totalValue
  rw [hkey, Collections.filter_key_eq nodup (mem_map_of_mem hrow)] at htot
  simp only [SampleRow.key, DownsampleKey.mk.injEq] at hkey
  obtain ⟨hser, hty, hts, -⟩ := hkey
  refine ⟨hof.sampled, ?_, ?_, ?_, ?_⟩
  · rw [hts, SampleRow.rounded, StoredProfile.rounded, hof.timestamp]
    rfl
  · rw [hser, SampleRow.rounded, StoredProfile.rounded, hof.seriesFingerprint]
  · rw [hty, SampleRow.rounded, StoredProfile.rounded, hof.profileType]
  · rw [htot, StoredProfile.rounded, ← hof.totalValue]
    simp [SampleRow.rounded]

/-- Where no rows are joined, downsampling moves profiles and keeps totals. -/
theorem shows_compactRows (hd : 0 < d.toInt)
    (h : Shows batches.flatten profiles)
    (sorted : batches.flatten.Pairwise fun a b => rowOrder a ≤ rowOrder b)
    (nodup : (batches.flatten.map fun row => (row.rounded d).key).Nodup) :
    Shows (compactRows minRows d batches) (profiles.map (·.rounded (some d))) := by
  have hga := gathered_compactRows hd minRows sorted
  have nodup : ((batches.flatten.map (·.rounded d)).map SampleRow.key).Nodup := by
    rwa [map_map]
  refine ⟨fun out hout => ?_, fun stored hsto hsa => ?_⟩
  · have hkey := (hga.keys out.key).mp (mem_map_of_mem hout)
    obtain ⟨rounded, hro, hkey⟩ := mem_map.mp hkey
    obtain ⟨row, hrow, rfl⟩ := mem_map.mp hro
    obtain ⟨stored, hsto, hof⟩ := h.sound row hrow
    exact ⟨stored.rounded (some d), mem_map_of_mem hsto,
      rowOf_rounded nodup hrow hkey.symm (hga.each out hout) hof⟩
  · obtain ⟨stored, hmem, rfl⟩ := mem_map.mp hsto
    obtain ⟨row, hrow, hof⟩ := h.complete stored hmem hsa
    have hkey := (hga.keys (row.rounded d).key).mpr
      (mem_map_of_mem (mem_map_of_mem hrow))
    obtain ⟨out, hout, hkey⟩ := mem_map.mp hkey
    exact ⟨out, hout, rowOf_rounded nodup hrow hkey (hga.each out hout) hof⟩

theorem shows_compactBlocks {policy : Option Int64} {block : Block ι}
    (compacted : compactBlocks minRows policy merged batches = .ok block)
    (mergedRows : Merged (merged.map Block.stored) batches)
    (shows : ∀ block ∈ merged, Shows block.stored.rows block.profiles)
    (unjoined : ∀ resolutionNs ∈ policy,
      (batches.flatten.map fun row => (row.rounded resolutionNs).key).Nodup) :
    block.profiles = (merged.flatMap Block.profiles).map (·.rounded policy) ∧
      Shows block.stored.rows block.profiles := by
  obtain ⟨stored, written, compacted⟩ := except_bind_eq_ok.mp compacted
  cases compacted
  rw [compactBlocksWithPolicy] at written
  split at written
  · cases written
  obtain ⟨inputs, remapped, written⟩ := except_bind_eq_ok.mp written
  obtain ⟨rows, merging, written⟩ := except_bind_eq_ok.mp written
  cases written
  obtain ⟨perm, sorted⟩ := mergedRows
  rw [remapped] at perm
  have flat := (shows_remapInputs remapped shows).perm perm
  refine ⟨rfl, ?_⟩
  cases policy with
  | none =>
    cases merging
    have same : (fun stored : StoredProfile ι => stored.rounded none) = id := rfl
    rwa [same, map_id]
  | some resolutionNs =>
    rw [writeMerged] at merging
    split at merging
    · cases merging
    · rename_i positive
      cases merging
      rw [Int64.le_iff_toInt_le, not_le] at positive
      exact shows_compactRows positive flat sorted (unjoined resolutionNs rfl)

theorem Invariant.step [DecidableEq ι] {event : Event ι} (h : Invariant s)
    (apart : Apart s event) (hs : step minRows s event = some s') : Invariant s' := by
  cases event with
  | flush profiles =>
    cases hs
    refine ⟨fun block hb => ?_, fun block hb => ?_, apart.2⟩
    · rcases mem_cons.mp hb with rfl | hold
      · exact shows_writeBlock profiles
      · exact h.shows block hold
    · rcases mem_cons.mp hb with rfl | hold
      · intro stored hsto
        obtain ⟨profile, hpr, rfl⟩ := mem_map.mp hsto
        exact apart.1 profile hpr
      · exact h.fits block hold
  | compact policy merged rest batches =>
    simp only [Totals.step] at hs
    split at hs
    next hru =>
      obtain ⟨block, hok, rfl⟩ := Option.map_eq_some_iff.mp hs
      obtain ⟨hpm, hmrg⟩ := hru
      have hok : compactBlocks minRows policy merged batches = .ok block := by
        cases hco : compactBlocks minRows policy merged batches <;> rw [hco] at hok <;> cases hok
        rfl
      have hin : ∀ block ∈ merged, block ∈ s.blocks := fun block hb =>
        hpm.mem_iff.mpr (mem_append_left _ hb)
      have hr : ∀ block ∈ rest, block ∈ s.blocks := fun block hb =>
        hpm.mem_iff.mpr (mem_append_right _ hb)
      obtain ⟨hpr, hsh⟩ :=
        shows_compactBlocks hok hmrg (fun block hb => h.shows block (hin block hb)) apart.2
      refine ⟨fun other hb => ?_, fun other hb stored hsto => ?_, ?_⟩
      · rcases mem_cons.mp hb with rfl | hb
        · exact hsh
        · exact h.shows other (hr other hb)
      · rcases mem_cons.mp hb with rfl | hb
        · rw [hpr] at hsto
          obtain ⟨source, hsrc, rfl⟩ := mem_map.mp hsto
          obtain ⟨input, hinp, hmem⟩ := mem_flatMap.mp hsrc
          exact h.fits input (hin input hinp) source hmem
        · exact h.fits other (hr other hb) stored hsto
      · rw [Store.profiles, flatMap_cons, hpr]
        exact apart.1
    next => cases hs

end Runs

/-! ### The result -/

section Result

variable {s : Store ι} {q : Query} {profiles : List (StoredProfile ι)}

/-- The range cuts no bucket: a profile is stored in the window exactly when it was taken there. -/
def Uncut (q : Query) (s : Store ι) : Prop :=
  ∀ stored ∈ s.profiles, q.inWindow stored.timestamp = q.inWindow stored.profile.timestampMs
deriving Decidable

/-- No profile of the query lies in a step that the end of the range cuts off. -/
def WholeSteps (q : Query) (s : Store ι) : Prop :=
  ∀ stored ∈ found q s.profiles, (seriesBucketMs q stored.timestamp).isSome
deriving Decidable

/-- The sum of the totals of some profiles. -/
def totalOf (profiles : List (StoredProfile ι)) : Int :=
  (profiles.map fun stored => stored.profile.total).sum

/-- What the profiles of a step add up to. -/
def stepTotal (q : Query) (profiles : List (StoredProfile ι)) (endpoint : Int) : Int :=
  totalOf ((found q profiles).filter fun stored =>
    seriesBucketMs q stored.timestamp = some endpoint)

/-- The sum of every step is an integer that an `f64` holds. -/
def ExactSteps (q : Query) (s : Store ι) : Prop :=
  ∀ stored ∈ found q s.profiles, ∀ endpoint ∈ (seriesBucketMs q stored.timestamp).toList,
    (stepTotal q s.profiles endpoint).natAbs ≤ 2 ^ 53
deriving Decidable

variable {totals : List (Int64 × Int64)}

/-- The float of a step is what its profiles add up to. -/
theorem f64Value_foldBucket (fits : ∀ stored ∈ profiles, stored.profile.Fits)
    (perm : totals.Perm
      ((found q profiles).map fun stored => (stored.timestamp, stored.profile.totalValue)))
    {endpoint : Int} (bound : (stepTotal q profiles endpoint).natAbs ≤ 2 ^ 53) :
    f64Value (foldBucket ((totals.filter fun total =>
      seriesBucketMs q total.1 = some endpoint).map Prod.snd)) = stepTotal q profiles endpoint := by
  have sum : ((totals.filter fun total => seriesBucketMs q total.1 = some endpoint).map
      Prod.snd).sum = Int64.ofInt (stepTotal q profiles endpoint) := by
    rw [sum_perm ((perm.filter _).map _), sum_eq_ofInt, filter_map, map_map, map_map, stepTotal,
      totalOf]
    refine congrArg (Int64.ofInt ∘ List.sum) (map_congr_left fun stored mem => ?_)
    exact (fits stored (mem_found.mp (mem_filter.mp mem).1).1).toInt_totalValue
  rw [foldBucket, sum, Int64.toInt_ofInt_of_le (by omega) (by omega), f64Value_f64OfInt bound]

/-- The points are at the steps that have a profile. -/
theorem mem_endpoints (perm : totals.Perm
      ((found q profiles).map fun stored => (stored.timestamp, stored.profile.totalValue)))
    {endpoint : Int} :
    endpoint ∈ (totals.filterMap fun total => seriesBucketMs q total.1).dedup.insertionSort
      (· ≤ ·) ↔
      ∃ stored ∈ found q profiles, seriesBucketMs q stored.timestamp = some endpoint := by
  rw [mem_insertionSort, mem_dedup, (perm.filterMap _).mem_iff, filterMap_map, mem_filterMap]
  rfl

/-- With one profile at a time for each series and no rows joined, the points of a query add up
to the totals of the profiles in its range, and without downsampling each point to those of its
own step. -/
theorem series_sums_profiles [DecidableEq ι] {minRows : Nat}
    (h : Reachable (step minRows) initial Apart s) {points : List (Int × BitVec 64)}
    (hpoints : selectSeries q s = some points) (huncut : Uncut q s) (hwhole : WholeSteps q s)
    (hexact : ExactSteps q s) :
    (points.map fun point => f64Value point.2).sum = totalOf (s.profiles.filter fun stored =>
      q.selects stored.profile.seriesFingerprint stored.profile.profileType &&
        q.inWindow stored.profile.timestampMs) ∧
    ((∀ stored ∈ s.profiles, stored.timestamp = stored.profile.timestampMs) →
      ∀ point ∈ points, f64Value point.2 = totalOf (s.profiles.filter fun stored =>
        q.selects stored.profile.seriesFingerprint stored.profile.profileType &&
          (q.inWindow stored.profile.timestampMs &&
            seriesBucketMs q stored.profile.timestampMs = some point.1))) := by
  have hinvariant : Invariant s := h.invariant
    (fun s hs => ⟨by simp [show s.blocks = [] from hs], by simp [show s.blocks = [] from hs], by
      simp [Distinct, Store.profiles, show s.blocks = [] from hs]⟩)
    fun _ _ _ hs hapart hstep => hs.step hapart hstep
  have hfits : ∀ stored ∈ s.profiles, stored.profile.Fits := fun stored hstored => by
    obtain ⟨block, hblock, hmem⟩ := mem_flatMap.mp hstored
    exact hinvariant.fits block hblock stored hmem
  have hperm := @heatmapPointsFromTotals_perm ι s.rows s.profiles q
    (shows_flatMap (forall₂_same.mpr hinvariant.shows)) hinvariant.distinct
  have hpoints : points = seriesPoints q (heatmapPointsFromTotals (select q s.rows)) := by
    unfold selectSeries at hpoints
    split at hpoints
    next => cases hpoints
    next => exact (Option.some.inj hpoints).symm
  -- a profile without samples has no rows and a total of zero
  have hempty : ∀ stored : StoredProfile ι, stored.profile.samples = [] →
      stored.profile.total = 0 := fun stored hnone => by simp [Profile.total, hnone]
  have hvalue : ∀ point ∈ points, f64Value point.2 = stepTotal q s.profiles point.1 := by
    rintro point hpoint
    rw [hpoints] at hpoint
    obtain ⟨endpoint, hendpoint, rfl⟩ := mem_map.mp hpoint
    obtain ⟨stored, hstored, hbucket⟩ := (mem_endpoints hperm).mp hendpoint
    exact f64Value_foldBucket hfits hperm (hexact stored hstored endpoint (by simp [hbucket]))
  refine ⟨?_, fun hraw point hpoint => ?_⟩
  · have hendpoints : points.map Prod.fst = ((heatmapPointsFromTotals (select q s.rows)).filterMap
        fun total => seriesBucketMs q total.1).dedup.insertionSort (· ≤ ·) := by
      rw [hpoints, seriesPoints, map_map]
      exact map_id _
    have hnodup : (points.map Prod.fst).Nodup := by
      rw [hendpoints]
      exact (perm_insertionSort _ _).nodup_iff.mpr (nodup_dedup _)
    have hgroups := @sum_groups (StoredProfile ι) Int _ (·.profile.total) _ hnodup
      (fun stored => seriesBucketMs q stored.timestamp) (found q s.profiles)
      fun stored hstored endpoint hbucket => by
        rw [hendpoints]
        exact (mem_endpoints hperm).mpr ⟨stored, hstored, hbucket⟩
    rw [filter_eq_self.mpr hwhole] at hgroups
    have hsum : (points.map fun point => f64Value point.2).sum =
        ((points.map fun point => stepTotal q s.profiles point.1).sum : Int) := by
      rw [map_congr_left hvalue, Int.cast_list_sum, map_map]
      rfl
    have hstep : points.map (fun point => stepTotal q s.profiles point.1) =
        (points.map Prod.fst).map (stepTotal q s.profiles) := by rw [map_map]; rfl
    rw [hsum, hstep]
    refine congrArg _ (hgroups.trans ?_)
    refine sum_filter_congr fun stored hstored hne => hempty stored ?_
    by_contra hsampled
    exact hne (by simp [hsampled, huncut stored hstored])
  · rw [hvalue point hpoint, stepTotal, found, filter_filter]
    refine congrArg _ (sum_filter_congr fun stored hstored hne => hempty stored ?_)
    by_contra hsampled
    have hsampled : stored.profile.samples.isEmpty = false := by simpa using hsampled
    refine hne ?_
    simp [hsampled, hraw stored hstored, Bool.and_comm, Bool.and_assoc]

end Result

/-! ### Two profiles in one millisecond -/

/-- All profiles of a type up to a time, in steps of ten milliseconds. -/
def everything (endMs : Int64) : Query := ⟨"cpu", fun _ => true, 0, endMs, 10⟩

def cpuProfile (timestampMs : Int64) (traces : List Nat) : Profile Unit :=
  ⟨7, "cpu", timestampMs, traces.map fun trace => ⟨trace, none, none, 4, []⟩⟩

def cpuStore (times : List Int64) : Store Unit :=
  ⟨[writeBlock (times.map fun timestampMs => cpuProfile timestampMs [1, 2])]⟩

theorem reachable_cpuStore {condition : Store Unit → Event Unit → Prop} {times : List Int64}
    (h : condition {} (.flush (times.map fun timestampMs => cpuProfile timestampMs [1, 2]))) :
    Reachable (step 1) initial condition (cpuStore times) :=
  .step (.initial rfl) h rfl

/-- Two points of 8.0. -/
theorem series_sums_profiles_apart :
    selectSeries (everything 20) (cpuStore [3, 15]) =
        some [(10, 0x4020000000000000), (20, 0x4020000000000000)] ∧
      ([(10, 0x4020000000000000), (20, 0x4020000000000000)].map
          fun point : Int × BitVec 64 => f64Value point.2).sum =
        totalOf ((cpuStore [3, 15]).profiles.filter fun stored =>
          (everything 20).selects stored.profile.seriesFingerprint stored.profile.profileType &&
            (everything 20).inWindow stored.profile.timestampMs) := by
  have hpoints : selectSeries (everything 20) (cpuStore [3, 15]) =
      some [(10, 0x4020000000000000), (20, 0x4020000000000000)] := by decide +kernel
  have hapart : Apart ({} : Store Unit)
      (.flush ([3, 15].map fun timestampMs => cpuProfile timestampMs [1, 2])) := by
    decide +kernel
  exact ⟨hpoints, (series_sums_profiles (reachable_cpuStore hapart) hpoints (by decide +kernel)
    (by decide +kernel) (by decide +kernel)).1⟩

/-- Two profiles of one series in one millisecond have a total of 16, and the query answers 8. -/
theorem series_counts_one_of_two :
    Reachable (step 1) initial (fun _ _ => True) (cpuStore [5, 5]) ∧
      selectSeries (everything 20) (cpuStore [5, 5]) = some [(10, f64OfInt 8)] ∧
      totalOf (cpuStore [5, 5]).profiles = 16 := by
  refine ⟨reachable_cpuStore trivial, ?_, ?_⟩ <;> decide +kernel

end KrabkaO11y.Profiles.Totals
