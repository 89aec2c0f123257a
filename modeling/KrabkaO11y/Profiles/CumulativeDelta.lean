import Mathlib.Tactic
import KrabkaO11y.Concurrent.System

/-!
Cumulative uploads turned into deltas (`crates/profiles/src/distributor/process_raw.rs`).

The distributor keeps, for each series, the values of the last accepted upload by the positions
of their stacks in that upload's location table. Where positions name the same stacks in both
uploads and no upload lists a stack twice, what is stored of a stack is the difference of its
totals. Positions that move between uploads break it.
-/

namespace KrabkaO11y.Profiles.Cumulative

open Concurrent.System List Function

variable {κ L π : Type}

/-- A sample with the positions of its locations; `rest` is its time, span and trace. -/
structure WalSample (π : Type) where
  stacktraceLocationRefs : List Nat
  value : Int64
  rest : π
deriving DecidableEq, Repr

/-- The samples of one series in an upload that is flagged as cumulative. The series is a tenant
and labels, and `locations` is the upload's table with every reference followed. -/
structure Upload (κ L π : Type) where
  series : κ
  locations : List L
  samples : List (WalSample π)

/-- The content of a stack, leaf first. -/
def Upload.resolve (upload : Upload κ L π) (refs : List Nat) : List (Option L) :=
  refs.map (upload.locations[·]?)

/-- The samples that splitting by sample type keeps. -/
def Upload.decoded (upload : Upload κ L π) : List (WalSample π) :=
  upload.samples.filter (·.value ≠ 0)

abbrev Baseline := List Nat → Option Int64

def baseline (samples : List (WalSample π)) : Baseline :=
  samples.foldl
    (fun current sample => update current sample.stacktraceLocationRefs (some sample.value))
    fun _ => none

/-- The difference of two `i64`, unless it overflows. -/
def checkedSub (a b : Int64) : Option Int64 :=
  if -2 ^ 63 ≤ a.toInt - b.toInt ∧ a.toInt - b.toInt < 2 ^ 63 then
    some (Int64.ofInt (a.toInt - b.toInt))
  else none

def delta (previous : Baseline) (sample : WalSample π) : Option (WalSample π) :=
  let prior := (previous sample.stacktraceLocationRefs).getD 0
  if prior ≤ sample.value then
    (checkedSub sample.value prior).map fun value => { sample with value := value }
  else some sample

def deltas (previous : Baseline) : List (WalSample π) → Option (List (WalSample π))
  | [] => some []
  | sample :: rest => do
    let first ← delta previous sample
    let others ← deltas previous rest
    some (first :: others)

variable [DecidableEq κ]

abbrev Cache (κ : Type) := κ → Option Baseline

/-- What is stored of an upload and the baselines after it; `none` when a subtraction
overflows. -/
def applyCumulativeDelta (cache : Cache κ) (upload : Upload κ L π) :
    Option (List (WalSample π) × Cache κ) :=
  let next := update cache upload.series (some (baseline upload.decoded))
  match cache upload.series with
  | none => some ([], next)
  | some previous => (deltas previous upload.decoded).map fun samples =>
    (samples.filter (·.value ≠ 0), next)

/-- The uploads of a request in order. A series without a value other than zero makes no
record. -/
def applyAll : Cache κ → List (Upload κ L π) → Option (List (List (WalSample π)) × Cache κ)
  | cache, [] => some ([], cache)
  | cache, upload :: rest =>
    if upload.decoded = [] then
      (applyAll cache rest).map fun result => ([] :: result.1, result.2)
    else do
      let first ← applyCumulativeDelta cache upload
      let others ← applyAll first.2 rest
      some (first.1 :: others.1, others.2)

/-- A request, whether its series are within the limit, and whether the rate limit and the WAL
let its records through. -/
structure Request (κ L π : Type) where
  uploads : List (Upload κ L π)
  reserved : Bool
  appended : Bool

/-- The request succeeds: it is within its limits, and what it stores is in the WAL. -/
def Request.Succeeds (request : Request κ L π) (stored : List (List (WalSample π))) : Prop :=
  request.reserved ∧ (stored.all List.isEmpty ∨ request.appended)
deriving Decidable

/-- The baselines, and the last accepted upload of each series. -/
structure State (κ L π : Type) where
  cache : Cache κ
  accepted : κ → Option (Upload κ L π)

def accept (accepted : κ → Option (Upload κ L π)) (uploads : List (Upload κ L π)) :
    κ → Option (Upload κ L π) :=
  uploads.foldl (fun accepted upload => update accepted upload.series (some upload))
    accepted

/-- Baselines advance only with a request whose records, if it has any, are in the WAL. -/
def processRaw (s : State κ L π) (request : Request κ L π) : Option (State κ L π) :=
  (applyAll s.cache request.uploads).map fun result =>
    if request.Succeeds result.1 then
      ⟨result.2, accept s.accepted request.uploads⟩
    else s

def initial (s : State κ L π) : Prop := s.cache = (fun _ => none) ∧ s.accepted = fun _ => none

/-! ### What should be stored -/

variable [DecidableEq L]

/-- The total of a stack over some samples. -/
def totalOf (resolve : List Nat → List (Option L)) (samples : List (WalSample π))
    (stack : List (Option L)) : Int :=
  ((samples.filter fun sample => resolve sample.stacktraceLocationRefs = stack).map
    (·.value.toInt)).sum

def Upload.total (upload : Upload κ L π) (stack : List (Option L)) : Int :=
  totalOf upload.resolve upload.samples stack

/-- What an upload should add to the total of a stack. -/
def growth (previous current : Int) : Int :=
  if previous ≤ current then current - previous else current

/-- The first upload stores nothing, and a later one the growth of every stack. -/
def StoresGrowth (previous : Option (Upload κ L π)) (upload : Upload κ L π)
    (stored : List (WalSample π)) : Prop :=
  match previous with
  | none => stored = []
  | some last => ∀ stack,
      totalOf upload.resolve stored stack = growth (last.total stack) (upload.total stack)

/-- Every upload of a request stores its growth since the upload before it. -/
def StoresAll (accepted : κ → Option (Upload κ L π)) :
    List (Upload κ L π) → List (List (WalSample π)) → Prop
  | [], stored => stored = []
  | upload :: rest, stored => ∃ first others, stored = first :: others ∧
      StoresGrowth (accepted upload.series) upload first ∧
        StoresAll (update accepted upload.series (some upload)) rest others

/-- Each stack is listed once, values are not negative and not all zero. -/
structure Plain (upload : Upload κ L π) : Prop where
  once : (upload.samples.map fun sample =>
    upload.resolve sample.stacktraceLocationRefs).Nodup
  nonneg : ∀ sample ∈ upload.samples, 0 ≤ sample.value.toInt
  nonzero : upload.decoded ≠ []

/-- Positions name the same stacks in both uploads. -/
def SamePositions (last upload : Upload κ L π) : Prop :=
  ∀ sample ∈ upload.samples, ∀ other ∈ last.samples,
    sample.stacktraceLocationRefs = other.stacktraceLocationRefs ↔
      upload.resolve sample.stacktraceLocationRefs = last.resolve other.stacktraceLocationRefs

/-- Every upload is plain and has the positions of the one before it. -/
def AlignedAll (accepted : κ → Option (Upload κ L π)) : List (Upload κ L π) → Prop
  | [] => True
  | upload :: rest => Plain upload ∧
      (∀ last, accepted upload.series = some last → SamePositions last upload) ∧
        AlignedAll (update accepted upload.series (some upload)) rest

def Aligned (s : State κ L π) (request : Request κ L π) : Prop :=
  AlignedAll s.accepted request.uploads

/-! ### Totals -/

section Totals

variable {resolve : List Nat → List (Option L)} {samples : List (WalSample π)}

theorem totalOf_cons (sample : WalSample π) (stack : List (Option L)) :
    totalOf resolve (sample :: samples) stack =
      (if resolve sample.stacktraceLocationRefs = stack then sample.value.toInt else 0) +
        totalOf resolve samples stack := by
  rw [totalOf, totalOf, filter_cons]
  by_cases h : resolve sample.stacktraceLocationRefs = stack
  · simp [h]
  · simp [h]

theorem totalOf_eq_zero {stack : List (Option L)}
    (h : ∀ sample ∈ samples, resolve sample.stacktraceLocationRefs ≠ stack) :
    totalOf resolve samples stack = 0 := by
  rw [totalOf, filter_eq_nil_iff.mpr fun sample hsam => by simpa using h sample hsam]
  rfl

variable {sample : WalSample π}

/-- Of samples with different stacks, one has a given stack. -/
theorem filter_stack_eq_singleton
    (once : (samples.map fun sample => resolve sample.stacktraceLocationRefs).Nodup)
    (hmem : sample ∈ samples) :
    (samples.filter fun other => resolve other.stacktraceLocationRefs =
      resolve sample.stacktraceLocationRefs) = [sample] := by
  induction samples with
  | nil => cases hmem
  | cons first rest ih =>
    obtain ⟨hf, hr⟩ := nodup_cons.mp once
    have hnot {other : WalSample π} (ho : other ∈ rest) :
        resolve other.stacktraceLocationRefs ≠ resolve first.stacktraceLocationRefs :=
      fun heq => hf (mem_map.mpr ⟨other, ho, heq⟩)
    rcases mem_cons.mp hmem with rfl | hmem
    · rw [filter_cons_of_pos (by simp),
        filter_eq_nil_iff.mpr fun other ho => by simpa using hnot ho]
    · rw [filter_cons_of_neg (by simpa using (hnot hmem).symm), ih hr hmem]

theorem totalOf_eq_value
    (once : (samples.map fun sample => resolve sample.stacktraceLocationRefs).Nodup)
    (hmem : sample ∈ samples) :
    totalOf resolve samples (resolve sample.stacktraceLocationRefs) = sample.value.toInt := by
  rw [totalOf, filter_stack_eq_singleton once hmem]
  simp

/-- Samples of zero add nothing. -/
theorem totalOf_filter_ne_zero (stack : List (Option L)) :
    totalOf resolve (samples.filter (·.value ≠ 0)) stack = totalOf resolve samples stack := by
  induction samples with
  | nil => rfl
  | cons first rest ih =>
    rw [filter_cons, totalOf_cons]
    split
    · rw [totalOf_cons, ih]
    · rename_i hz
      have hval : first.value = 0 := by simpa using hz
      rw [ih, hval]
      simp

theorem totalOf_nonneg (h : ∀ sample ∈ samples, 0 ≤ sample.value.toInt)
    (stack : List (Option L)) : 0 ≤ totalOf resolve samples stack := by
  refine sum_nonneg fun value hval => ?_
  obtain ⟨sample, hsam, rfl⟩ := mem_map.mp hval
  exact h sample (mem_of_mem_filter hsam)

end Totals

section Decoded

variable {upload : Upload κ L π}

omit [DecidableEq κ] [DecidableEq L] in
theorem Plain.once_decoded (h : Plain upload) :
    (upload.decoded.map fun sample => upload.resolve sample.stacktraceLocationRefs).Nodup :=
  h.once.sublist (filter_sublist.map _)

omit [DecidableEq κ] in
theorem totalOf_decoded (upload : Upload κ L π) (stack : List (Option L)) :
    totalOf upload.resolve upload.decoded stack = upload.total stack :=
  totalOf_filter_ne_zero stack

end Decoded

/-! ### Baselines -/

omit [DecidableEq κ] [DecidableEq L] in
theorem baseline_append (samples : List (WalSample π)) (sample : WalSample π) :
    baseline (samples ++ [sample]) =
      update (baseline samples) sample.stacktraceLocationRefs (some sample.value) := by
  rw [baseline, foldl_append]
  rfl

variable {samples : List (WalSample π)}

omit [DecidableEq κ] [DecidableEq L] in
theorem baseline_eq_none {refs : List Nat}
    (h : ∀ sample ∈ samples, sample.stacktraceLocationRefs ≠ refs) :
    baseline samples refs = none := by
  induction samples using List.reverseRecOn with
  | nil => rfl
  | append_singleton samples sample ih =>
    rw [baseline_append, update_of_ne (h sample (by simp)).symm]
    exact ih fun other ho => h other (mem_append_left _ ho)

omit [DecidableEq κ] [DecidableEq L] in
theorem baseline_eq_some
    (once : (samples.map WalSample.stacktraceLocationRefs).Nodup) {sample : WalSample π}
    (hmem : sample ∈ samples) :
    baseline samples sample.stacktraceLocationRefs = some sample.value := by
  induction samples using List.reverseRecOn with
  | nil => cases hmem
  | append_singleton samples last ih =>
    rw [map_append] at once
    obtain ⟨hr, -, hap⟩ := nodup_append'.mp once
    rw [baseline_append]
    rcases mem_append.mp hmem with hmem | hmem
    · rw [update_of_ne, ih hr hmem]
      exact fun heq => hap (mem_map_of_mem hmem) (by simp [heq])
    · rw [mem_singleton.mp hmem, update_self]

variable {last upload : Upload κ L π}

omit [DecidableEq κ] in
/-- The prior value at the position of a stack is its total in the upload before. -/
theorem prior_eq_total (hl : Plain last)
    (same : SamePositions last upload) {sample : WalSample π} (hmem : sample ∈ upload.samples) :
    ((baseline last.decoded sample.stacktraceLocationRefs).getD 0).toInt =
      last.total (upload.resolve sample.stacktraceLocationRefs) := by
  have hre : (last.decoded.map WalSample.stacktraceLocationRefs).Nodup := by
    refine List.Nodup.of_map last.resolve ?_
    rw [map_map]
    exact hl.once_decoded
  rw [← totalOf_decoded]
  by_cases hlst : ∃ other ∈ last.decoded,
      other.stacktraceLocationRefs = sample.stacktraceLocationRefs
  · obtain ⟨other, ho, heq⟩ := hlst
    have hst := (same sample hmem other (mem_of_mem_filter ho)).mp heq.symm
    rw [hst, totalOf_eq_value hl.once_decoded ho, ← heq, baseline_eq_some hre ho,
      Option.getD_some]
  · rw [baseline_eq_none fun other ho heq => hlst ⟨other, ho, heq⟩, Option.getD_none,
      totalOf_eq_zero fun other ho hst => hlst ⟨other, ho,
        ((same sample hmem other (mem_of_mem_filter ho)).mpr hst.symm).symm⟩]
    rfl

/-! ### Deltas -/

variable {previous : Baseline}

omit [DecidableEq κ] [DecidableEq L] in
/-- Without a negative prior value no subtraction overflows. -/
theorem delta_eq_some {sample : WalSample π}
    (hprior : 0 ≤ ((previous sample.stacktraceLocationRefs).getD 0).toInt)
    (hval : 0 ≤ sample.value.toInt) :
    ∃ value : Int64, delta previous sample = some { sample with value := value } ∧ value.toInt =
      growth ((previous sample.stacktraceLocationRefs).getD 0).toInt sample.value.toInt := by
  set prior := (previous sample.stacktraceLocationRefs).getD 0 with hdef
  have hlt := sample.value.toInt_lt
  rw [delta, growth]
  simp only [← hdef, Int64.le_iff_toInt_le]
  split
  · rename_i hle
    refine ⟨Int64.ofInt (sample.value.toInt - prior.toInt), ?_,
      Int64.toInt_ofInt_of_le (by omega) (by omega)⟩
    rw [checkedSub, if_pos (by omega)]
    rfl
  · exact ⟨sample.value, rfl, rfl⟩

variable {grown : WalSample π → Int}

omit [DecidableEq κ] [DecidableEq L] in
theorem deltas_eq_some
    (h : ∀ sample ∈ samples, ∃ value : Int64,
      delta previous sample = some { sample with value := value } ∧ value.toInt = grown sample) :
    ∃ stored, deltas previous samples = some stored ∧ List.Forall₂ (fun out sample =>
      out.stacktraceLocationRefs = sample.stacktraceLocationRefs ∧
        out.value.toInt = grown sample) stored samples := by
  induction samples with
  | nil => exact ⟨[], rfl, .nil⟩
  | cons sample rest ih =>
    obtain ⟨value, hval, hgw⟩ := h sample mem_cons_self
    obtain ⟨stored, hsto, hr⟩ := ih fun other ho => h other (mem_cons_of_mem _ ho)
    refine ⟨{ sample with value := value } :: stored, ?_, .cons ⟨rfl, hgw⟩ hr⟩
    rw [deltas, hval, hsto]
    rfl

/-- Outcomes with the positions of their samples have their stacks. -/
theorem totalOf_forall₂ {resolve : List Nat → List (Option L)}
    {stored samples : List (WalSample π)}
    (h : List.Forall₂ (fun out sample =>
      out.stacktraceLocationRefs = sample.stacktraceLocationRefs ∧
        out.value.toInt = grown sample) stored samples) (stack : List (Option L)) :
    totalOf resolve stored stack = ((samples.filter fun sample =>
      resolve sample.stacktraceLocationRefs = stack).map grown).sum := by
  induction h with
  | nil => rfl
  | cons hf _ ih =>
    rw [totalOf_cons, ih, hf.1, hf.2, filter_cons]
    split <;> simp_all

omit [DecidableEq κ] in
theorem storesGrowth_of_aligned (hl : Plain last)
    (hupload : Plain upload) (same : SamePositions last upload) :
    ∃ stored, deltas (baseline last.decoded) upload.decoded = some stored ∧
      StoresGrowth (some last) upload (stored.filter (·.value ≠ 0)) := by
  have hnn (stack : List (Option L)) : 0 ≤ last.total stack := totalOf_nonneg hl.nonneg stack
  have hd : ∀ sample ∈ upload.decoded, ∃ value : Int64,
      delta (baseline last.decoded) sample = some { sample with value := value } ∧
        value.toInt = growth (last.total (upload.resolve sample.stacktraceLocationRefs))
          sample.value.toInt := by
    intro sample hsam
    have hmem := mem_of_mem_filter hsam
    have hpr := prior_eq_total hl same hmem
    rw [← hpr]
    refine delta_eq_some ?_ (hupload.nonneg sample hmem)
    rw [hpr]
    exact hnn _
  obtain ⟨stored, hsto, hfo⟩ := deltas_eq_some hd
  refine ⟨stored, hsto, fun stack => ?_⟩
  rw [totalOf_filter_ne_zero, totalOf_forall₂ hfo, ← totalOf_decoded upload]
  by_cases hlst : ∃ sample ∈ upload.decoded,
      upload.resolve sample.stacktraceLocationRefs = stack
  · obtain ⟨sample, hsam, rfl⟩ := hlst
    rw [filter_stack_eq_singleton hupload.once_decoded hsam,
      totalOf_eq_value hupload.once_decoded hsam]
    simp
  · -- A stack that is gone has a total of zero, which is a reset unless it was zero before.
    have hno : ∀ sample ∈ upload.decoded,
        upload.resolve sample.stacktraceLocationRefs ≠ stack :=
      fun sample hsam heq => hlst ⟨sample, hsam, heq⟩
    have hpre := hnn stack
    rw [totalOf_eq_zero hno,
      filter_eq_nil_iff.mpr fun sample hsam => by simpa using hno sample hsam,
      map_nil, sum_nil, growth]
    split <;> omega

/-! ### Runs -/

/-- The baselines are those of the last accepted uploads, which were plain. -/
def Tracks (cache : Cache κ) (accepted : κ → Option (Upload κ L π)) : Prop :=
  ∀ series, cache series = (accepted series).map (fun last => baseline last.decoded) ∧
    ∀ last, accepted series = some last → Plain last

variable {accepted : κ → Option (Upload κ L π)} {upload : Upload κ L π} {cache : Cache κ}

omit [DecidableEq L] in
theorem Tracks.update
    (h : Tracks cache accepted) (hupload : Plain upload) :
    Tracks (update cache upload.series (some (baseline upload.decoded)))
      (update accepted upload.series (some upload)) := by
  intro series
  by_cases hser : series = upload.series
  · subst hser
    rw [update_self, update_self]
    refine ⟨rfl, fun last hl => ?_⟩
    cases hl
    exact hupload
  · rw [update_of_ne hser, update_of_ne hser]
    exact h series

theorem applyCumulativeDelta_spec
    (h : Tracks cache accepted) (hupload : Plain upload)
    (same : ∀ last, accepted upload.series = some last → SamePositions last upload) :
    ∃ stored, applyCumulativeDelta cache upload = some (stored,
        update cache upload.series (some (baseline upload.decoded))) ∧
      StoresGrowth (accepted upload.series) upload stored := by
  obtain ⟨hc, hpl⟩ := h upload.series
  cases hacc : accepted upload.series with
  | none =>
    rw [hacc] at hc
    refine ⟨[], ?_, rfl⟩
    simp only [applyCumulativeDelta, hc, Option.map_none]
  | some last =>
    rw [hacc] at hc
    obtain ⟨stored, hsto, hgr⟩ :=
      storesGrowth_of_aligned (hpl last hacc) hupload (same last hacc)
    refine ⟨stored.filter (·.value ≠ 0), ?_, hgr⟩
    simp only [applyCumulativeDelta, hc, Option.map_some, hsto]

theorem applyAll_spec {uploads : List (Upload κ L π)} : ∀ {cache : Cache κ}
    {accepted : κ → Option (Upload κ L π)}, Tracks cache accepted → AlignedAll accepted uploads →
      ∃ stored next, applyAll cache uploads = some (stored, next) ∧
        StoresAll accepted uploads stored ∧ Tracks next (accept accepted uploads) := by
  induction uploads with
  | nil => exact fun {cache accepted} h _ => ⟨[], cache, rfl, rfl, h⟩
  | cons upload rest ih =>
    intro cache accepted h hal
    obtain ⟨hup, hsm, hr⟩ := hal
    obtain ⟨first, hf, hgr⟩ := applyCumulativeDelta_spec h hup hsm
    obtain ⟨others, next, hot, hall, htr⟩ := ih (h.update hup) hr
    refine ⟨first :: others, next, ?_, ⟨first, others, rfl, hgr, hall⟩, htr⟩
    rw [applyAll, if_neg hup.nonzero, hf]
    simp only [Option.bind_eq_bind, Option.bind_some, hot]

/-- In every run of requests whose uploads are aligned, each request is processed without an
overflow, each of its uploads stores the growth of every stack since the last accepted upload
of its series, and a request that fails leaves the baselines as they are. -/
theorem uploads_store_growth {s : State κ L π}
    (h : Reachable processRaw initial Aligned s) {request : Request κ L π}
    (haligned : Aligned s request) :
    ∃ stored next, applyAll s.cache request.uploads = some (stored, next) ∧
      StoresAll s.accepted request.uploads stored ∧
      (request.Succeeds stored →
        processRaw s request = some ⟨next, accept s.accepted request.uploads⟩) ∧
      (¬ request.Succeeds stored → processRaw s request = some s) := by
  have htracks : Tracks s.cache s.accepted := by
    refine h.invariant (P := fun s => Tracks s.cache s.accepted) (fun s hinitial => ?_) ?_
    · rw [hinitial.1, hinitial.2]
      exact fun _ => ⟨rfl, nofun⟩
    · intro s request s' hs haligned hstep
      obtain ⟨stored, next, hall, -, hnext⟩ := applyAll_spec hs haligned
      rw [processRaw, hall, Option.map_some] at hstep
      cases hstep
      split
      · exact hnext
      · exact hs
  obtain ⟨stored, next, hall, hstores, -⟩ := applyAll_spec htracks haligned
  refine ⟨stored, next, hall, hstores, fun hsucceeds => ?_, fun hfails => ?_⟩
  · rw [processRaw, hall, Option.map_some, if_pos hsucceeds]
  · rw [processRaw, hall, Option.map_some, if_neg hfails]

/-- A request with one sample of the stack at a position. -/
def sampleRequest (locations : List Nat) (position : Nat) (value : Int64) :
    Request Unit Nat Unit :=
  ⟨[⟨(), locations, [⟨[position], value, ()⟩]⟩], true, true⟩

def emptyState : State Unit Nat Unit := ⟨fun _ => none, fun _ => none⟩

theorem plain_sample {locations : List Nat} {position : Nat} {value : Int64}
    (hpos : 0 < value.toInt) :
    Plain (⟨(), locations, [⟨[position], value, ()⟩]⟩ : Upload Unit Nat Unit) := by
  refine ⟨nodup_singleton _, fun sample hsam => ?_, ?_⟩
  · rw [mem_singleton.mp hsam]
    exact hpos.le
  · have hne : value ≠ 0 := fun hz => by
      rw [hz] at hpos
      exact absurd hpos (by decide)
    simp [Upload.decoded, hne]

/-- A second upload with the tables of the first stores its growth. -/
theorem uploads_store_growth_same_tables :
    ∃ s, Reachable processRaw initial Aligned s ∧
      ∃ stored next, applyAll s.cache (sampleRequest [7, 8] 0 16).uploads = some (stored, next) ∧
        StoresAll s.accepted (sampleRequest [7, 8] 0 16).uploads stored := by
  obtain ⟨s, hstep, haccepted⟩ : ∃ s, processRaw emptyState (sampleRequest [7, 8] 0 10) = some s ∧
      s.accepted () = (sampleRequest [7, 8] 0 10).uploads.head? := ⟨_, rfl, rfl⟩
  have hfirst : Aligned emptyState (sampleRequest [7, 8] 0 10) :=
    ⟨plain_sample (by decide), nofun, trivial⟩
  have hreachable : Reachable processRaw initial Aligned s :=
    .step (.initial ⟨rfl, rfl⟩) hfirst hstep
  have haligned : Aligned s (sampleRequest [7, 8] 0 16) := by
    refine ⟨plain_sample (by decide), fun last hlast => ?_, trivial⟩
    obtain rfl := Option.some.inj (hlast.symm.trans haccepted)
    intro sample hsample other hother
    rw [mem_singleton.mp hsample, mem_singleton.mp hother]
    exact iff_of_true rfl rfl
  obtain ⟨stored, next, hall, hstores, -⟩ := uploads_store_growth hreachable haligned
  exact ⟨s, hreachable, stored, next, hall, hstores⟩

/-- A second upload whose location table is permuted stores all of a stack again: 16 where it
grew by 6. -/
theorem permuted_upload_stores_total :
    ∃ s, Reachable processRaw initial (fun _ _ => True) s ∧
      ∃ next, applyAll s.cache (sampleRequest [8, 7] 1 16).uploads =
          some ([[⟨[1], 16, ()⟩]], next) ∧
        ¬ StoresAll s.accepted (sampleRequest [8, 7] 1 16).uploads [[⟨[1], 16, ()⟩]] := by
  obtain ⟨s, hstep, haccepted, happly⟩ : ∃ s,
      processRaw emptyState (sampleRequest [7, 8] 0 10) = some s ∧
        s.accepted () = (sampleRequest [7, 8] 0 10).uploads.head? ∧
          ∃ next, applyAll s.cache (sampleRequest [8, 7] 1 16).uploads =
            some ([[⟨[1], 16, ()⟩]], next) := ⟨_, rfl, rfl, _, rfl⟩
  obtain ⟨next, hnext⟩ := happly
  refine ⟨s, .step (.initial ⟨rfl, rfl⟩) trivial hstep, next, hnext, ?_⟩
  rintro ⟨first, others, heq, hgrowth, -⟩
  obtain ⟨rfl, -⟩ := List.cons.inj heq
  change StoresGrowth (s.accepted ()) _ _ at hgrowth
  rw [haccepted] at hgrowth
  exact absurd (hgrowth [some 7]) (by decide +kernel)

end KrabkaO11y.Profiles.Cumulative
