import KrabkaO11y.Concurrent.System
import KrabkaO11y.Metrics.DeltaAccumulator

/-!
The delta streams of a tenant over any sequence of exports
(`crates/metrics/src/distributor/otlp_ingest.rs`), against the account of the deltas that
were accepted.

The accumulator takes a delta as soon as its point is decoded. A later point of the export,
an ingest gate or the append to the WAL may still fail, and nothing takes the delta back:
the client sends the export again and its deltas count twice. The two agree as long as an
export that is not accepted holds no delta that was decoded.
-/

open Std (ExtTreeMap)

namespace KrabkaO11y.Metrics

open Std.ExtTreeMap

open Concurrent (System.Reachable System.run System.Meets)

/-! ### Maps related key by key -/

section Related

variable {κ α β : Type} [Ord κ] [Std.TransOrd κ] [Std.LawfulEqOrd κ]

/-- Two maps hold the same keys, with values in a relation. -/
def Related (r : α → β → Prop) (m : ExtTreeMap κ α) (n : ExtTreeMap κ β) : Prop :=
  ∀ key : κ, Option.Rel r m[key]? n[key]?

variable {r : α → β → Prop} {m : ExtTreeMap κ α} {n : ExtTreeMap κ β}

omit [Std.LawfulEqOrd κ] in
theorem Related.empty (r : α → β → Prop) :
    Related r (∅ : ExtTreeMap κ α) (∅ : ExtTreeMap κ β) := by
  intro key
  rw [getElem?_empty, getElem?_empty]
  exact .none

variable {a : α} {key : κ} {b : β}

omit [Std.LawfulEqOrd κ] in
theorem Related.insert (h : Related r m n) (hab : r a b) :
    Related r (m.insert key a) (n.insert key b) := by
  intro key'
  rw [getElem?_insert, getElem?_insert]
  split
  · exact .some hab
  · exact h key'

/-- A value may be replaced by another that is related to the same one. -/
theorem Related.replace (h : Related r m n) (hb : n[key]? = some b)
    (hab : r a b) : Related r (m.insert key a) n := by
  intro key'
  rw [getElem?_insert]
  split
  · rename_i heq
    rw [← Std.LawfulEqOrd.eq_of_compare heq, hb]
    exact .some hab
  · exact h key'

omit [Std.LawfulEqOrd κ] in
theorem Related.getD (h : Related r m n) (hab : r a b) (key : κ) :
    r (m[key]?.getD a) (n[key]?.getD b) := by
  have hkey := h key
  generalize m[key]? = held at hkey ⊢
  generalize n[key]? = other at hkey ⊢
  cases hkey with
  | some hr => exact hr
  | none => exact hab

omit [Std.LawfulEqOrd κ] in
theorem Related.of_some (h : Related r m n) (ha : m[key]? = some a) :
    ∃ b, n[key]? = some b ∧ r a b := by
  have hkey := h key
  rw [ha] at hkey
  generalize n[key]? = other at hkey ⊢
  cases hkey with
  | some hr => exact ⟨_, rfl, hr⟩

/-- A part of one map stays related to the same keys of the other. -/
theorem Related.restrict (h : Related r m n) {part : ExtTreeMap κ α}
    (hp : ∀ (key : κ) (a : α), part[key]? = some a → m[key]? = some a) :
    Related r part (n.filter fun key _ => part.contains key) := by
  intro key
  rw [getElem?_filter', contains_eq_isSome_getElem?]
  cases hkey : part[key]? with
  | none =>
    have hno : n[key]?.filter (fun _ => (none : Option α).isSome) = none := by
      simp only [Option.isSome_none, Option.filter_eq_none_iff, Bool.false_eq_true,
        not_false_eq_true, implies_true]
    rw [hno]
    exact .none
  | some a =>
    obtain ⟨b, hb, hab⟩ := h.of_some (hp key a hkey)
    rw [hb]
    exact .some hab

end Related

/-! ### The account of accepted deltas -/

variable {κ V H : Type} [Ord κ] [Std.TransOrd κ] [Std.LawfulEqOrd κ]

/-- A stream as its exporter knows it: the deltas accepted since it began. -/
structure AcceptedStream (D : Type) where
  start : Nat := 0
  deltas : List D := []

def AcceptedStream.take {D : Type} (stream : AcceptedStream D) (start : Nat) (delta : D) :
    AcceptedStream D where
  start := startAfter stream.start start
  deltas := if restarts stream.start start then [delta] else stream.deltas ++ [delta]

def total [Zero V] [Add V] (deltas : List V) : V := deltas.foldl (· + ·) 0

/-- The sum of histograms, where every layout fits. -/
def totalHistogram (add : H → H → Option H) : List H → Option H
  | [] => none
  | delta :: deltas => deltas.foldlM add delta

structure DeltaAccount (κ V H : Type) [Ord κ] where
  sums : ExtTreeMap κ (AcceptedStream V) := ∅
  histograms : ExtTreeMap κ (AcceptedStream H) := ∅

namespace DeltaAccount

def record (account : DeltaAccount κ V H) : DecodeStep κ V H → DeltaAccount κ V H
  | .sum key start delta =>
    { account with sums := account.sums.insert key ((account.sums[key]?.getD {}).take start delta) }
  | .histogram _ key start delta =>
    { account with
      histograms :=
        account.histograms.insert key ((account.histograms[key]?.getD {}).take start delta) }
  | .plain | .invalid _ => account

def recordAll (account : DeltaAccount κ V H) (steps : List (DecodeStep κ V H)) :
    DeltaAccount κ V H :=
  steps.foldl record account

/-- The account of the streams that an accumulator still holds. -/
def keep (account : DeltaAccount κ V H) (accumulator : DeltaAccumulator κ V H) :
    DeltaAccount κ V H where
  sums := account.sums.filter fun key _ => accumulator.sums.contains key
  histograms := account.histograms.filter fun key _ => accumulator.histograms.contains key

/-- What a point should emit: the sum of the deltas accepted for its stream. -/
def owed [Zero V] [Add V] (add : H → H → Option H) (account : DeltaAccount κ V H) :
    DecodeStep κ V H → Option (Emission κ V H)
  | .plain => some .plain
  | .sum key _ _ => account.sums[key]?.map fun stream => .sum key (total stream.deltas)
  | .histogram _ key _ _ =>
    account.histograms[key]?.bind fun stream =>
      (totalHistogram add stream.deltas).map (.histogram key)
  | .invalid _ => none

end DeltaAccount

section Balance

variable [AddZeroClass V] {add : H → H → Option H}

theorem total_append (deltas : List V) (delta : V) :
    total (deltas ++ [delta]) = total deltas + delta := by
  rw [total, List.foldl_append]
  rfl

theorem total_singleton (delta : V) : total [delta] = delta := zero_add delta

theorem totalHistogram_append {deltas : List H} {cumulative : H}
    (h : totalHistogram add deltas = some cumulative) (delta : H) :
    totalHistogram add (deltas ++ [delta]) = add cumulative delta := by
  cases deltas with
  | nil => cases h
  | cons first rest =>
    change rest.foldlM add first = some cumulative at h
    change (rest ++ [delta]).foldlM add first = add cumulative delta
    simp only [List.foldlM_append, h, List.foldlM_cons, List.foldlM_nil, Option.bind_eq_bind,
      Option.bind_some, Option.pure_def, Option.bind_fun_some]

/-- A sum holds the total of its deltas. -/
def SumsUp (state : DeltaState V) (stream : AcceptedStream V) : Prop :=
  state.startTimeUnixNano = stream.start ∧ state.value = total stream.deltas

/-- A histogram holds the total of its deltas, and none only when there is none. -/
def HistogramSumsUp (add : H → H → Option H) (state : DeltaHistogramState H)
    (stream : AcceptedStream H) : Prop :=
  state.startTimeUnixNano = stream.start ∧ state.value = totalHistogram add stream.deltas ∧
    (state.value = none → stream.deltas = [])

structure Balanced (add : H → H → Option H) (accumulator : DeltaAccumulator κ V H)
    (account : DeltaAccount κ V H) : Prop where
  sums : Related SumsUp accumulator.sums account.sums
  histograms : Related (HistogramSumsUp add) accumulator.histograms account.histograms

variable {accumulator accumulator' : DeltaAccumulator κ V H} {account : DeltaAccount κ V H}

theorem SumsUp.take {state : DeltaState V} {stream : AcceptedStream V} (h : SumsUp state stream)
    (start : Nat) (delta : V) (now : Nat) :
    SumsUp ⟨startAfter state.startTimeUnixNano start,
        if restarts state.startTimeUnixNano start then delta else state.value + delta, now⟩
      (stream.take start delta) := by
  obtain ⟨hst, hval⟩ := h
  refine ⟨congrArg (startAfter · start) hst, ?_⟩
  rw [AcceptedStream.take, hst, hval]
  dsimp only
  split
  · exact (total_singleton delta).symm
  · exact (total_append ..).symm

omit [Std.LawfulEqOrd κ] in
theorem Balanced.accumulateSum (h : Balanced add accumulator account) (key : κ) (start : Nat)
    (delta : V) :
    Balanced add (accumulator.accumulateSum key start delta).1
        (account.record (.sum key start delta)) ∧
      (account.record (.sum key start delta)).owed add (.sum key start delta) =
        some (.sum key (accumulator.accumulateSum key start delta).2) := by
  have hh : SumsUp (accumulator.sums[key]?.getD ⟨0, 0, accumulator.now⟩)
      (account.sums[key]?.getD {}) := h.sums.getD ⟨rfl, rfl⟩ key
  have hta := hh.take start delta accumulator.now
  refine ⟨⟨h.sums.insert hta, h.histograms⟩, ?_⟩
  simp only [DeltaAccount.owed, DeltaAccount.record, getElem?_insert_self,
    Option.map_some]
  exact congrArg (fun value => some (Emission.sum key value)) hta.2.symm

omit [Std.LawfulEqOrd κ] in
theorem Balanced.heldHistogram (h : Balanced add accumulator account) (key : κ) :
    HistogramSumsUp add (accumulator.histograms[key]?.getD ⟨0, none, accumulator.now⟩)
      (account.histograms[key]?.getD {}) :=
  h.histograms.getD ⟨rfl, rfl, fun _ => rfl⟩ key

omit [Std.LawfulEqOrd κ] [AddZeroClass V] in
/-- What `accumulateHistogram` does to a stream: it takes the delta, or leaves it. -/
theorem accumulateHistogram_cases (metric : String) (key : κ) (start : Nat) (delta : H)
    {stream : AcceptedStream H}
    (h : HistogramSumsUp add (accumulator.histograms[key]?.getD ⟨0, none, accumulator.now⟩)
      stream) :
    (∃ state value, accumulator.accumulateHistogram add metric key start delta =
        ({ accumulator with histograms := accumulator.histograms.insert key state }, .ok value) ∧
      state.value = some value ∧ HistogramSumsUp add state (stream.take start delta)) ∨
    ∃ state error, accumulator.accumulateHistogram add metric key start delta =
        ({ accumulator with
            histograms := accumulator.histograms.insert key
              { state with lastSeen := accumulator.now } }, .error error) ∧
      accumulator.histograms[key]? = some state := by
  rw [DeltaAccumulator.accumulateHistogram]
  generalize hsta : accumulator.histograms[key]?.getD ⟨0, none, accumulator.now⟩ = state at h
  obtain ⟨hst, hval, hnil⟩ := h
  dsimp only
  split
  · rename_i hr
    refine .inl ⟨_, delta, rfl, rfl, congrArg (startAfter · start) hst, ?_, nofun⟩
    rw [AcceptedStream.take, ← hst, if_pos hr]
    rfl
  · rename_i hco
    have hde : (stream.take start delta).deltas = stream.deltas ++ [delta] := by
      rw [AcceptedStream.take, ← hst, if_neg hco]
    split
    · rename_i cumulative hcu
      have htot := totalHistogram_append (hval.symm.trans hcu) delta
      split
      · rename_i sum hsum
        refine .inl ⟨_, sum, rfl, rfl, congrArg (startAfter · start) hst, ?_, nofun⟩
        rw [hde, htot, hsum]
      · refine .inr ⟨state, _, rfl, ?_⟩
        cases hh : accumulator.histograms[key]? with
        | none =>
          rw [hh] at hsta
          cases hsta
          cases hcu
        | some held =>
          rw [hh] at hsta
          exact congrArg some hsta
    · rename_i hno
      refine .inl ⟨_, delta, rfl, rfl, congrArg (startAfter · start) hst, ?_, nofun⟩
      rw [hde, hnil hno]
      rfl

variable {step : DecodeStep κ V H}

omit [Std.LawfulEqOrd κ] in
/-- A step that succeeds keeps the balance when its delta is recorded, and emits what is
owed. -/
theorem Balanced.ok (h : Balanced add accumulator account)
    {emission : Emission κ V H}
    (hs : decodeStep add accumulator step = (accumulator', .ok emission)) :
    Balanced add accumulator' (account.record step) ∧
      (account.record step).owed add step = some emission := by
  cases step with
  | plain =>
    cases hs
    exact ⟨h, rfl⟩
  | invalid error => cases hs
  | sum key start delta =>
    cases hs
    exact h.accumulateSum key start delta
  | histogram metric key start delta =>
    rcases accumulateHistogram_cases metric key start delta (h.heldHistogram key) with
      ⟨state, value, heq, hval, hta⟩ | ⟨state, error, heq, -⟩
    · rw [decodeStep, heq] at hs
      cases hs
      refine ⟨⟨h.sums, h.histograms.insert hta⟩, ?_⟩
      simp only [DeltaAccount.owed, DeltaAccount.record, getElem?_insert_self,
        Option.bind_some, ← hta.2.1, hval, Option.map_some]
    · rw [decodeStep, heq] at hs
      cases hs

/-- A step that fails keeps the balance. -/
theorem Balanced.error (h : Balanced add accumulator account)
    {error : OtlpError} (hs : decodeStep add accumulator step = (accumulator', .error error)) :
    Balanced add accumulator' account := by
  cases step with
  | plain => cases hs
  | sum key start delta => cases hs
  | invalid error =>
    cases hs
    exact h
  | histogram metric key start delta =>
    rcases accumulateHistogram_cases metric key start delta (h.heldHistogram key) with
      ⟨state, value, heq, -, -⟩ | ⟨state, error, heq, hh⟩
    · rw [decodeStep, heq] at hs
      cases hs
    · rw [decodeStep, heq] at hs
      cases hs
      obtain ⟨stream, hst, hsu⟩ := h.histograms.of_some hh
      exact ⟨h.sums, h.histograms.replace hst hsu⟩

/-- Bounding keeps the balance over the streams that remain. -/
theorem Balanced.keep (h : Balanced add accumulator account)
    (hw : accumulator'.Within accumulator) :
    Balanced add accumulator' (account.keep accumulator') :=
  ⟨h.sums.restrict hw.sums, h.histograms.restrict hw.histograms⟩

/-! ### Whole exports -/

/-- Each emission is the total that is owed once its point is recorded. -/
def Owed (add : H → H → Option H) (account : DeltaAccount κ V H) :
    List (DecodeStep κ V H × Emission κ V H) → Prop
  | [] => True
  | (step, emission) :: rest =>
    (account.record step).owed add step = some emission ∧ Owed add (account.record step) rest

/-- What decoding some steps from a balanced accumulator comes to. -/
structure Decoded.Sound (add : H → H → Option H) (account : DeltaAccount κ V H)
    (decoded : Decoded κ V H) : Prop where
  balanced : Balanced add decoded.accumulator (account.recordAll (decoded.passed.map Prod.fst))
  owed : Owed add account decoded.passed

theorem sound_decodeWhole (steps : List (DecodeStep κ V H)) :
    ∀ (accumulator : DeltaAccumulator κ V H) (account : DeltaAccount κ V H),
      Balanced add accumulator account → (decodeWhole add accumulator steps).Sound add account := by
  induction steps with
  | nil => exact fun _ _ h => ⟨h, trivial⟩
  | cons step rest ih =>
    intro accumulator account h
    rw [decodeWhole]
    split
    · rename_i hs
      exact ⟨h.error hs, trivial⟩
    · rename_i hs
      obtain ⟨hbal, how⟩ := h.ok hs
      have hr := ih _ _ hbal
      exact ⟨hr.balanced, how, hr.owed⟩

theorem sound_decodePoints (steps : List (DecodeStep κ V H)) :
    ∀ (accumulator : DeltaAccumulator κ V H) (account : DeltaAccount κ V H),
      Balanced add accumulator account →
        (decodePoints add accumulator steps).Sound add account := by
  induction steps with
  | nil => exact fun _ _ h => ⟨h, trivial⟩
  | cons step rest ih =>
    intro accumulator account h
    rw [decodePoints]
    split
    · rename_i hs
      have hr := ih _ _ (h.error hs)
      exact ⟨hr.balanced, hr.owed⟩
    · rename_i hs
      obtain ⟨hbal, how⟩ := h.ok hs
      have hr := ih _ _ hbal
      exact ⟨hr.balanced, how, hr.owed⟩

end Balance

inductive Protocol where
  | grpc
  | http
deriving DecidableEq, Repr

/-- What the ingest gates and the WAL made of a decoded export. -/
inductive IngestOutcome where
  | appended
  | dropped
  | failed
deriving DecidableEq, Repr

structure DeltaExport (κ V H : Type) where
  protocol : Protocol
  now : Nat
  maxStale : Nat
  maxStreams : Nat
  metrics : List (Metric κ V H)
  outcome : IngestOutcome

inductive DeltaEvent (κ V H : Type) where
  | send (request : DeltaExport κ V H)
  /-- The process restarts, or another tenant takes the place of this one's streams. -/
  | forget

namespace DeltaExport

section Decode

variable [Zero V] [Add V] (add : H → H → Option H)

def decode (request : DeltaExport κ V H) (accumulator : DeltaAccumulator κ V H) :
    Decoded κ V H :=
  match request.protocol with
  | .grpc => decodeOtlpInner add { accumulator with now := request.now } request.metrics
  | .http => decodeOtlpInnerPartial add { accumulator with now := request.now } request.metrics

/-- `decode_tenant_otlp`: the accumulator is bounded whether or not decoding failed. -/
def decodeTenantOtlp (request : DeltaExport κ V H) (accumulator : DeltaAccumulator κ V H) :
    Decoded κ V H :=
  let decoded := request.decode add accumulator
  { decoded with
    accumulator := decoded.accumulator.bound request.maxStale request.maxStreams }

def Accepted (request : DeltaExport κ V H) (accumulator : DeltaAccumulator κ V H) : Prop :=
  (request.decodeTenantOtlp add accumulator).failed = none ∧ request.outcome = .appended
deriving Decidable

end Decode

/-- No step before the first that fails adds to a stream. -/
def InertBefore : List (DecodeStep κ V H) → Prop
  | [] => True
  | .invalid _ :: _ => True
  | step :: rest => step.Inert ∧ InertBefore rest

instance decidableInertBefore : DecidablePred (@InertBefore κ V H)
  | [] => .isTrue trivial
  | .invalid _ :: _ => .isTrue trivial
  | .plain :: rest =>
    have := decidableInertBefore rest
    inferInstanceAs (Decidable (_ ∧ _))
  | .sum .. :: _ => .isFalse fun h => h.1
  | .histogram .. :: _ => .isFalse fun h => h.1

/-- Decoding the export adds to no stream: a gRPC export has no delta point before its
first invalid point, an HTTP export no valid delta point. -/
def Inert (request : DeltaExport κ V H) : Prop :=
  match request.protocol with
  | .grpc => InertBefore (request.metrics.flatMap Metric.metricSeries)
  | .http => ∀ step ∈ request.metrics.flatMap Metric.pointSeries, step.Inert

instance decidableInert (request : DeltaExport κ V H) : Decidable request.Inert := by
  unfold Inert
  split <;> infer_instance

end DeltaExport

/-! ### Runs of exports -/

structure DeltaRun (κ V H : Type) [Ord κ] where
  accumulator : DeltaAccumulator κ V H := {}
  account : DeltaAccount κ V H := {}

namespace DeltaRun

open DeltaExport

section Runs

variable [AddZeroClass V] (add : H → H → Option H)

/-- Only an accepted export is recorded. -/
def step (run : DeltaRun κ V H) : DeltaEvent κ V H → Option (DeltaRun κ V H)
  | .send request =>
    let decoded := request.decodeTenantOtlp add run.accumulator
    let account :=
      if request.Accepted add run.accumulator then
        run.account.recordAll (decoded.passed.map Prod.fst)
      else run.account
    some ⟨decoded.accumulator, account.keep decoded.accumulator⟩
  | .forget => some {}

def Started (run : DeltaRun κ V H) : Prop := run = {}

/-- An export that is not accepted adds to no stream. -/
def InertUnlessAccepted (run : DeltaRun κ V H) : DeltaEvent κ V H → Prop
  | .send request => ¬ request.Accepted add run.accumulator → request.Inert
  | .forget => True

instance decidableInertUnlessAccepted (run : DeltaRun κ V H) :
    DecidablePred (run.InertUnlessAccepted add)
  | .send _ => inferInstanceAs (Decidable (_ → _))
  | .forget => .isTrue trivial

/-- Every emission of an accepted export is the sum of the deltas accepted for its stream.
An export that is not accepted leaves every stream that bounding does not drop, and all of
them when nothing is stale or over the cap. -/
structure OncePerAccepted (run : DeltaRun κ V H) (request : DeltaExport κ V H) : Prop where
  owed : request.Accepted add run.accumulator →
    Owed add run.account (request.decodeTenantOtlp add run.accumulator).passed
  within : ¬ request.Accepted add run.accumulator →
    (request.decodeTenantOtlp add run.accumulator).accumulator.Within run.accumulator
  kept : ¬ request.Accepted add run.accumulator →
    ({ run.accumulator with now := request.now } : DeltaAccumulator κ V H).Bounded
      request.maxStale request.maxStreams →
    (request.decodeTenantOtlp add run.accumulator).accumulator.sums = run.accumulator.sums ∧
      (request.decodeTenantOtlp add run.accumulator).accumulator.histograms =
        run.accumulator.histograms

variable {add} {steps : List (DecodeStep κ V H)}

omit [Std.LawfulEqOrd κ] in
theorem decodeWhole_inert (h : InertBefore steps)
    (accumulator : DeltaAccumulator κ V H) :
    (decodeWhole add accumulator steps).accumulator = accumulator := by
  induction steps with
  | nil => rfl
  | cons step rest ih =>
    cases step with
    | plain => exact ih h.2
    | invalid error => rfl
    | sum key start delta => exact h.1.elim
    | histogram metric key start delta => exact h.1.elim

omit [Std.LawfulEqOrd κ] in
theorem decodePoints_inert (h : ∀ step ∈ steps, step.Inert)
    (accumulator : DeltaAccumulator κ V H) :
    (decodePoints add accumulator steps).accumulator = accumulator := by
  induction steps with
  | nil => rfl
  | cons step rest ih =>
    have hr := ih fun step hs => h step (List.mem_cons_of_mem _ hs)
    have hs := h step List.mem_cons_self
    cases step with
    | plain => exact hr
    | invalid error => exact hr
    | sum key start delta => exact hs.elim
    | histogram metric key start delta => exact hs.elim

omit [Std.LawfulEqOrd κ] in
theorem accumulator_decodeOtlpInnerPartial (accumulator : DeltaAccumulator κ V H)
    (metrics : List (Metric κ V H)) :
    (decodeOtlpInnerPartial add accumulator metrics).accumulator =
        (decodePoints add accumulator (metrics.flatMap Metric.pointSeries)).accumulator ∧
      (decodeOtlpInnerPartial add accumulator metrics).passed =
        (decodePoints add accumulator (metrics.flatMap Metric.pointSeries)).passed := by
  rw [decodeOtlpInnerPartial]
  split
  · exact ⟨rfl, rfl⟩
  · exact ⟨rfl, rfl⟩

omit [Std.LawfulEqOrd κ] in
theorem decode_inert {request : DeltaExport κ V H} (h : request.Inert)
    (accumulator : DeltaAccumulator κ V H) :
    (request.decode add accumulator).accumulator = { accumulator with now := request.now } := by
  unfold Inert at h
  rw [decode]
  split at h
  · exact decodeWhole_inert h _
  · exact (accumulator_decodeOtlpInnerPartial _ _).1.trans (decodePoints_inert h _)

theorem sound_decode (request : DeltaExport κ V H) {accumulator : DeltaAccumulator κ V H}
    {account : DeltaAccount κ V H} (h : Balanced add accumulator account) :
    (request.decode add accumulator).Sound add account := by
  have hnow : Balanced add { accumulator with now := request.now } account :=
    ⟨h.sums, h.histograms⟩
  rw [decode]
  split
  · exact sound_decodeWhole _ _ _ hnow
  · obtain ⟨hac, hpas⟩ := @accumulator_decodeOtlpInnerPartial κ V H _ _ _ add
      { accumulator with now := request.now } request.metrics
    have hpts := sound_decodePoints (request.metrics.flatMap Metric.pointSeries) _ _ hnow
    exact ⟨by rw [hac, hpas]; exact hpts.balanced,
      by rw [hpas]; exact hpts.owed⟩

variable {run run' : DeltaRun κ V H}

theorem balanced_step (h : Balanced add run.accumulator run.account) {event : DeltaEvent κ V H}
    (inert : run.InertUnlessAccepted add event) (hs : run.step add event = some run') :
    Balanced add run'.accumulator run'.account := by
  cases event with
  | forget =>
    cases hs
    exact ⟨Related.empty _, Related.empty _⟩
  | send request =>
    cases hs
    refine Balanced.keep ?_ (DeltaAccumulator.within_bound ..)
    split
    · exact (sound_decode request h).balanced
    · rename_i href
      rw [decode_inert (inert href)]
      exact ⟨h.sums, h.histograms⟩

/-- In every run whose exports add to no stream unless they are accepted, what an accepted
export emits for a delta point is the sum of the deltas of the accepted exports since its
stream began, and an export that is not accepted leaves the accumulator as it was. -/
theorem deltas_accumulated_once
    (h : System.Reachable (step add) Started (InertUnlessAccepted add) run)
    (request : DeltaExport κ V H) (hinert : run.InertUnlessAccepted add (.send request)) :
    Balanced add run.accumulator run.account ∧ run.OncePerAccepted add request := by
  have hbalanced : Balanced add run.accumulator run.account := by
    refine h.invariant (P := fun run => Balanced add run.accumulator run.account) ?_ ?_
    · rintro run rfl
      exact ⟨Related.empty _, Related.empty _⟩
    · exact fun run event run' hrun hinert hstep => balanced_step hrun hinert hstep
  have hrefused : ¬ request.Accepted add run.accumulator →
      (request.decodeTenantOtlp add run.accumulator).accumulator =
        ({ run.accumulator with now := request.now } : DeltaAccumulator κ V H).bound
          request.maxStale request.maxStreams := by
    intro hrefused
    rw [decodeTenantOtlp, decode_inert (hinert hrefused)]
  refine ⟨hbalanced, fun _ => (sound_decode request hbalanced).owed, fun h => ?_,
    fun h hbounded => ?_⟩
  · rw [hrefused h]
    exact ⟨(DeltaAccumulator.within_bound ..).sums, (DeltaAccumulator.within_bound ..).histograms⟩
  · rw [hrefused h]
    exact hbounded.bound_eq

end Runs

/-! ### Sample runs -/

def stateAfter (events : List (DeltaEvent Nat Int Int)) : DeltaRun Nat Int Int :=
  (System.run (step fun a b => some (a + b)) {} events).getD {}

/-- A delta counter, and a gauge whose value is missing or not. -/
def sampleExport (now : Nat) (delta : Int) (gauge : Option Int) (outcome : IngestOutcome) :
    DeltaExport Nat Int Int where
  protocol := .grpc
  now := now
  maxStale := 0
  maxStreams := 0
  metrics :=
    [⟨"requests", "requests_total", some (.sum .delta [⟨now, 7, 1, some delta⟩])⟩,
      ⟨"load", "load", some (.gauge [⟨now, 8, 0, gauge⟩])⟩]
  outcome := outcome

/-- A gauge alone. -/
def sampleGauge (now : Nat) : DeltaExport Nat Int Int :=
  { sampleExport now 0 none .appended with
    metrics := [⟨"load", "load", some (.gauge [⟨now, 8, 0, none⟩])⟩] }

def emissions (run : DeltaRun Nat Int Int) (request : DeltaExport Nat Int Int) :
    List (Emission Nat Int Int) :=
  (request.decodeTenantOtlp (fun a b => some (a + b)) run.accumulator).passed.map Prod.snd

/-- An accepted export, and one that fails at its gauge. -/
def gaugeRefused : List (DeltaEvent Nat Int Int) :=
  [.send (sampleExport 1 5 (some 0) .appended), .send (sampleGauge 2)]

theorem reached_gaugeRefused :
    System.Reachable (step fun a b => some (a + b)) Started
      (InertUnlessAccepted fun a b => some (a + b)) (stateAfter gaugeRefused) := by
  have hme : System.Meets (step fun a b => some (a + b))
      (InertUnlessAccepted fun a b => some (a + b)) {} gaugeRefused := by
    decide +kernel
  exact (System.Reachable.initial (show Started {} from rfl)).run hme rfl

theorem deltas_accumulated_once_gaugeRefused :
    emissions (stateAfter gaugeRefused) (sampleExport 3 4 (some 0) .appended) =
        [.sum 7 9, .plain] ∧
      (stateAfter gaugeRefused).OncePerAccepted (fun a b => some (a + b))
        (sampleExport 3 4 (some 0) .appended) :=
  ⟨by decide +kernel,
    (deltas_accumulated_once reached_gaugeRefused _ (by decide +kernel)).2⟩

/-- A counter and a gauge that cannot be decoded fail together, and so do a counter and a
gauge that the WAL does not take; each is sent again, and the counter counts twice. -/
theorem deltas_accumulated_twice :
    emissions (stateAfter [.send (sampleExport 1 5 none .appended)])
        (sampleExport 2 5 (some 0) .appended) = [.sum 7 10, .plain] ∧
      emissions (stateAfter [.send (sampleExport 1 5 (some 0) .failed)])
        (sampleExport 2 5 (some 0) .appended) = [.sum 7 10, .plain] ∧
      ¬ (sampleExport 1 5 none .appended).Accepted (fun a b => some (a + b))
        ({} : DeltaAccumulator Nat Int Int) ∧
      ¬ (sampleExport 1 5 (some 0) .failed).Accepted (fun a b => some (a + b))
        ({} : DeltaAccumulator Nat Int Int) ∧
      (sampleExport 2 5 (some 0) .appended).Accepted (fun a b => some (a + b))
        (stateAfter [.send (sampleExport 1 5 none .appended)]).accumulator ∧
      ¬ (stateAfter [.send (sampleExport 1 5 none .appended)]).OncePerAccepted
        (fun a b => some (a + b)) (sampleExport 2 5 (some 0) .appended) := by
  refine ⟨by decide +kernel, by decide +kernel, by decide +kernel, by decide +kernel,
    by decide +kernel, fun h => ?_⟩
  exact absurd (h.owed (by decide +kernel)).1 (by decide +kernel)

end DeltaRun

end KrabkaO11y.Metrics
