import KrabkaO11y.Collections.Tree

/-!
The accumulator of OTLP delta streams (`crates/metrics/src/otlp/delta_state.rs`) and the
decoding that feeds it (`decode_otlp_inner.rs`, `scalar_translators.rs`,
`histogram_translators.rs`).

Decoding goes through the data points of an export in order. A delta point is added to its
stream at once; a point that cannot be decoded ends the decoding of a gRPC export and is
left out of an HTTP export. Keys of streams, values and native histograms are parameters,
with the sum of two histograms undefined where their layouts differ.
-/

open Std (ExtTreeMap)

namespace KrabkaO11y.Metrics

variable {κ V H : Type} [Ord κ] [Std.TransOrd κ] [Std.LawfulEqOrd κ]

/-! ### The streams -/

structure DeltaState (V : Type) where
  startTimeUnixNano : Nat
  value : V
  lastSeen : Nat

structure DeltaHistogramState (H : Type) where
  startTimeUnixNano : Nat
  value : Option H
  lastSeen : Nat

structure DeltaAccumulator (κ V H : Type) [Ord κ] where
  sums : ExtTreeMap κ (DeltaState V) := ∅
  histograms : ExtTreeMap κ (DeltaHistogramState H) := ∅
  now : Nat := 0
  nextPrune : Nat := 0

inductive OtlpError where
  | invalid (metric message : String)
  | deltaUnsupported (metric : String)
deriving DecidableEq, Repr

/-- A point that starts at another time than its stream begins the stream anew. -/
def restarts (held start : Nat) : Bool := start ≠ 0 && held ≠ 0 && held ≠ start

/-- The start time of a stream after a point. -/
def startAfter (held start : Nat) : Nat := if start ≠ 0 then start else held

namespace DeltaAccumulator

def accumulateSum [Zero V] [Add V] (accumulator : DeltaAccumulator κ V H) (key : κ)
    (startTimeUnixNano : Nat) (delta : V) : DeltaAccumulator κ V H × V :=
  let state := (accumulator.sums[key]?).getD ⟨0, 0, accumulator.now⟩
  let value :=
    if restarts state.startTimeUnixNano startTimeUnixNano then delta else state.value + delta
  ({ accumulator with
    sums := accumulator.sums.insert key
      ⟨startAfter state.startTimeUnixNano startTimeUnixNano, value, accumulator.now⟩ }, value)

/-- Histograms whose layouts differ are an error, which leaves the stream's value. -/
def accumulateHistogram (add : H → H → Option H) (accumulator : DeltaAccumulator κ V H)
    (metricName : String) (key : κ) (startTimeUnixNano : Nat) (delta : H) :
    DeltaAccumulator κ V H × Except OtlpError H :=
  let state := (accumulator.histograms[key]?).getD ⟨0, none, accumulator.now⟩
  let insert := fun (state : DeltaHistogramState H) =>
    { accumulator with histograms := accumulator.histograms.insert key state }
  if restarts state.startTimeUnixNano startTimeUnixNano then
    (insert ⟨startAfter state.startTimeUnixNano startTimeUnixNano, some delta, accumulator.now⟩,
      .ok delta)
  else
    match state.value with
    | some cumulative =>
      match add cumulative delta with
      | some sum =>
        (insert ⟨startAfter state.startTimeUnixNano startTimeUnixNano, some sum,
          accumulator.now⟩, .ok sum)
      | none =>
        (insert { state with lastSeen := accumulator.now },
          .error (.invalid metricName "incompatible delta exponential histogram layout"))
    | none =>
      (insert ⟨startAfter state.startTimeUnixNano startTimeUnixNano, some delta,
        accumulator.now⟩, .ok delta)

/-! ### Bounding -/

section

variable (accumulator : DeltaAccumulator κ V H)

/-- Drops the streams that took no point within `maxStale`, which zero turns off. -/
def dropStale (maxStale : Nat) : DeltaAccumulator κ V H :=
  if maxStale = 0 then accumulator
  else { accumulator with
    sums := accumulator.sums.filter fun _ state => accumulator.now - state.lastSeen < maxStale
    histograms := accumulator.histograms.filter fun _ state =>
      accumulator.now - state.lastSeen < maxStale }

/-- The streams with the time each was last seen, sums before histograms. -/
def streams : List (Nat × Bool × κ) :=
  (accumulator.sums.toList.map fun entry => (entry.2.lastSeen, false, entry.1)) ++
    accumulator.histograms.toList.map fun entry => (entry.2.lastSeen, true, entry.1)

def evict (victim : Nat × Bool × κ) :
    DeltaAccumulator κ V H :=
  if victim.2.1 then
    { accumulator with histograms := accumulator.histograms.erase victim.2.2 }
  else { accumulator with sums := accumulator.sums.erase victim.2.2 }

/-- Evicts the streams seen longest ago while there are more than `maxStreams`, which zero
turns off. The sort is stable, so ties go by kind and key. -/
def evictIfOverCap (maxStreams : Nat) :
    DeltaAccumulator κ V H :=
  if maxStreams = 0 then accumulator
  else
    let excess := accumulator.sums.size + accumulator.histograms.size - maxStreams
    ((accumulator.streams.insertionSort fun a b => a.1 ≤ b.1).take excess).foldl evict accumulator

/-- `DELTA_PRUNE_INTERVAL`, one minute. -/
def deltaPruneIntervalNs : Nat := 60000000000

def bound (maxStale maxStreams : Nat) :
    DeltaAccumulator κ V H :=
  let pruned :=
    if accumulator.nextPrune ≤ accumulator.now then
      { accumulator.dropStale maxStale with nextPrune := accumulator.now + deltaPruneIntervalNs }
    else accumulator
  pruned.evictIfOverCap maxStreams

end

/-- The accumulator holds no stream that another does not hold as it is. -/
structure Within (accumulator other : DeltaAccumulator κ V H) : Prop where
  sums : ∀ (key : κ) (state : DeltaState V), accumulator.sums[key]? = some state →
    other.sums[key]? = some state
  histograms : ∀ (key : κ) (state : DeltaHistogramState H),
    accumulator.histograms[key]? = some state → other.histograms[key]? = some state

variable {accumulator other : DeltaAccumulator κ V H}

omit [Std.LawfulEqOrd κ] in
theorem Within.refl (accumulator : DeltaAccumulator κ V H) : accumulator.Within accumulator :=
  ⟨fun _ _ h => h, fun _ _ h => h⟩

omit [Std.LawfulEqOrd κ] in
theorem Within.trans {third : DeltaAccumulator κ V H} (h : accumulator.Within other)
    (h' : other.Within third) : accumulator.Within third :=
  ⟨fun key state hkey => h'.sums key state (h.sums key state hkey),
    fun key state hkey => h'.histograms key state (h.histograms key state hkey)⟩

variable {β : Type} {value : β}

omit [Std.LawfulEqOrd κ] in
theorem of_getElem?_erase {map : ExtTreeMap κ β} {key other : κ}
    (h : (map.erase other)[key]? = some value) : map[key]? = some value := by
  rw [ExtTreeMap.getElem?_erase] at h
  split at h
  · cases h
  · exact h

theorem of_getElem?_filter {map : ExtTreeMap κ β} {keep : κ → β → Bool} {key : κ}
    (h : (map.filter keep)[key]? = some value) : map[key]? = some value := by
  rw [ExtTreeMap.getElem?_filter'] at h
  exact (Option.filter_eq_some_iff.mp h).1

omit [Std.LawfulEqOrd κ] in
theorem within_evict (accumulator : DeltaAccumulator κ V H) (victim : Nat × Bool × κ) :
    (accumulator.evict victim).Within accumulator := by
  rw [evict]
  split
  · exact ⟨fun _ _ h => h, fun _ _ => of_getElem?_erase⟩
  · exact ⟨fun _ _ => of_getElem?_erase, fun _ _ h => h⟩

omit [Std.LawfulEqOrd κ] in
theorem within_foldl_evict (victims : List (Nat × Bool × κ)) :
    ∀ accumulator : DeltaAccumulator κ V H,
      (victims.foldl evict accumulator).Within accumulator := by
  induction victims with
  | nil => exact Within.refl
  | cons victim rest ih =>
    exact fun accumulator => (ih (accumulator.evict victim)).trans (within_evict ..)

theorem within_dropStale (accumulator : DeltaAccumulator κ V H) (maxStale : Nat) :
    (accumulator.dropStale maxStale).Within accumulator := by
  rw [dropStale]
  split
  · exact Within.refl _
  · exact ⟨fun _ _ => of_getElem?_filter, fun _ _ => of_getElem?_filter⟩

/-- Bounding only takes streams away. -/
theorem within_bound (accumulator : DeltaAccumulator κ V H) (maxStale maxStreams : Nat) :
    (accumulator.bound maxStale maxStreams).Within accumulator := by
  have hev : ∀ pruned : DeltaAccumulator κ V H,
      (pruned.evictIfOverCap maxStreams).Within pruned := by
    intro pruned
    rw [evictIfOverCap]
    split
    · exact Within.refl _
    · exact within_foldl_evict _ _
  rw [bound]
  refine (hev _).trans ?_
  split
  · exact ⟨(within_dropStale accumulator maxStale).sums,
      (within_dropStale accumulator maxStale).histograms⟩
  · exact Within.refl _

/-- No prune is due or nothing is stale, and the streams are within the cap. -/
structure Bounded (accumulator : DeltaAccumulator κ V H) (maxStale maxStreams : Nat) : Prop where
  fresh : accumulator.now < accumulator.nextPrune ∨ maxStale = 0 ∨
    ((∀ (key : κ) (state : DeltaState V), accumulator.sums[key]? = some state →
        accumulator.now - state.lastSeen < maxStale) ∧
      ∀ (key : κ) (state : DeltaHistogramState H), accumulator.histograms[key]? = some state →
        accumulator.now - state.lastSeen < maxStale)
  fits : maxStreams = 0 ∨ accumulator.sums.size + accumulator.histograms.size ≤ maxStreams

theorem filter_eq_self {map : ExtTreeMap κ β} {keep : κ → β → Bool}
    (h : ∀ (key : κ) (value : β), map[key]? = some value → keep key value = true) :
    map.filter keep = map := by
  refine Collections.eq_of_within (fun key value => of_getElem?_filter) fun key value hkey => ?_
  rw [ExtTreeMap.getElem?_filter', hkey, Option.filter_some_pos (h key value hkey)]

/-- A bounded accumulator keeps its streams. -/
theorem Bounded.bound_eq {maxStale maxStreams : Nat}
    (h : accumulator.Bounded maxStale maxStreams) :
    (accumulator.bound maxStale maxStreams).sums = accumulator.sums ∧
      (accumulator.bound maxStale maxStreams).histograms = accumulator.histograms := by
  have hev : ∀ pruned : DeltaAccumulator κ V H, pruned.sums = accumulator.sums →
      pruned.histograms = accumulator.histograms → pruned.evictIfOverCap maxStreams = pruned := by
    intro pruned hsu hhi
    rw [evictIfOverCap]
    rcases h.fits with hz | hle
    · rw [if_pos hz]
    · split
      · rfl
      · simp only [hsu, hhi, Nat.sub_eq_zero_of_le hle, List.take_zero, List.foldl_nil]
  have hprn : accumulator.nextPrune ≤ accumulator.now →
      (accumulator.dropStale maxStale).sums = accumulator.sums ∧
        (accumulator.dropStale maxStale).histograms = accumulator.histograms := by
    intro hdue
    rw [dropStale]
    split
    · exact ⟨rfl, rfl⟩
    · rename_i hst
      obtain ⟨hsu, hhi⟩ :=
        (h.fresh.resolve_left (Nat.not_lt.mpr hdue)).resolve_left hst
      exact ⟨filter_eq_self fun key state hkey => decide_eq_true (hsu key state hkey),
        filter_eq_self fun key state hkey => decide_eq_true (hhi key state hkey)⟩
  rw [bound]
  split
  · rename_i hdue
    obtain ⟨hsu, hhi⟩ := hprn hdue
    dsimp only
    rw [hev _ (by exact hsu) (by exact hhi)]
    exact ⟨hsu, hhi⟩
  · rw [hev _ rfl rfl]
    exact ⟨rfl, rfl⟩

end DeltaAccumulator

/-! ### Decoding -/

inductive Temporality where
  | unspecified
  | delta
  | cumulative
  | other
deriving DecidableEq, Repr

/-- A number point: its series, start time and value, if it has one. -/
structure NumberPoint (κ V : Type) where
  timeUnixNano : Nat
  key : κ
  start : Nat
  value : Option V

/-- A classic histogram point: the float series it expands to, unless its bucket counts do
not fit its bounds. -/
structure HistogramPoint (κ V : Type) where
  timeUnixNano : Nat
  start : Nat
  series : Option (List (κ × V))

/-- An exponential histogram point and the native histogram it translates to. -/
structure ExponentialPoint (κ H : Type) where
  timeUnixNano : Nat
  key : κ
  start : Nat
  native : Except OtlpError H

structure SummaryPoint where
  timeUnixNano : Nat

inductive MetricData (κ V H : Type) where
  | gauge (points : List (NumberPoint κ V))
  | sum (temporality : Temporality) (points : List (NumberPoint κ V))
  | histogram (temporality : Temporality) (points : List (HistogramPoint κ V))
  | exponentialHistogram (temporality : Temporality) (points : List (ExponentialPoint κ H))
  | summary (points : List SummaryPoint)

namespace MetricData

def timestamps : MetricData κ V H → List Nat
  | gauge points | sum _ points => points.map (·.timeUnixNano)
  | histogram _ points => points.map (·.timeUnixNano)
  | exponentialHistogram _ points => points.map (·.timeUnixNano)
  | summary points => points.map (·.timeUnixNano)

/-- The points of a metric, each alone in a container of its own. -/
def onePointData : MetricData κ V H → List (MetricData κ V H)
  | gauge points => points.map fun point => gauge [point]
  | sum temporality points => points.map fun point => sum temporality [point]
  | histogram temporality points => points.map fun point => histogram temporality [point]
  | exponentialHistogram temporality points =>
    points.map fun point => exponentialHistogram temporality [point]
  | summary points => points.map fun point => summary [point]

end MetricData

/-- `MAX_SAMPLE_TIMESTAMP_MS`. -/
def maxSampleTimestampMs : Nat := 7258118400000

/-- The error of the first point stamped too far in the future. -/
def rejectFarFuturePoints (name : String) (data : MetricData κ V H) : Option OtlpError :=
  (data.timestamps.find? fun time => maxSampleTimestampMs < time / 1000000).map fun time =>
    .invalid name s!"data point timestamp {time}ns is too far in the future"

structure Metric (κ V H : Type) where
  name : String
  /-- The name its series carry. -/
  translatedName : String
  data : Option (MetricData κ V H)

/-- What decoding does next: emit a series that is no delta, add to a stream, or fail. -/
inductive DecodeStep (κ V H : Type) where
  | plain
  | sum (key : κ) (start : Nat) (delta : V)
  | histogram (metric : String) (key : κ) (start : Nat) (delta : H)
  | invalid (error : OtlpError)

/-- A step that adds to no stream. -/
def DecodeStep.Inert : DecodeStep κ V H → Prop
  | .plain | .invalid _ => True
  | .sum .. | .histogram .. => False

instance DecodeStep.decidableInert : DecidablePred (@DecodeStep.Inert κ V H)
  | .plain | .invalid _ => .isTrue trivial
  | .sum .. | .histogram .. => .isFalse id

namespace Metric

variable (metric : Metric κ V H)

def numberStep (delta : Bool) (point : NumberPoint κ V) :
    DecodeStep κ V H :=
  match point.value with
  | none => .invalid (.invalid metric.translatedName "missing number datapoint value")
  | some value => if delta then .sum point.key point.start value else .plain

def histogramSteps (temporality : Temporality)
    (point : HistogramPoint κ V) : List (DecodeStep κ V H) :=
  match point.series with
  | none =>
    [.invalid (.invalid metric.translatedName
      "bucket_counts length must be explicit_bounds length plus one")]
  | some series =>
    match temporality with
    | .delta => series.map fun entry => .sum entry.1 point.start entry.2
    | .other => [.invalid (.deltaUnsupported metric.name)]
    | .cumulative | .unspecified => [.plain]

def exponentialStep (temporality : Temporality)
    (point : ExponentialPoint κ H) : DecodeStep κ V H :=
  match point.native with
  | .error error => .invalid error
  | .ok native =>
    match temporality with
    | .delta => .histogram metric.name point.key point.start native
    | .other => .invalid (.deltaUnsupported metric.name)
    | .cumulative | .unspecified => .plain

/-- The steps of `metric_series_with_data`; what follows the first that fails is not run. -/
def metricSeriesWithData (data : MetricData κ V H) :
    List (DecodeStep κ V H) :=
  match rejectFarFuturePoints metric.name data with
  | some error => [.invalid error]
  | none =>
    match data with
    | .gauge points => points.map (metric.numberStep false)
    | .sum temporality points =>
      match temporality with
      | .delta => points.map (metric.numberStep true)
      | .other => [.invalid (.deltaUnsupported metric.name)]
      | .cumulative | .unspecified => points.map (metric.numberStep false)
    | .histogram temporality points => points.flatMap (metric.histogramSteps temporality)
    | .exponentialHistogram temporality points => points.map (metric.exponentialStep temporality)
    | .summary points => points.map fun _ => .plain

/-- The steps of `metric_series`, which decodes a metric as a whole. -/
def metricSeries : List (DecodeStep κ V H) :=
  (metric.data.map metric.metricSeriesWithData).getD []

/-- The steps of a metric decoded point by point. -/
def pointSeries : List (DecodeStep κ V H) :=
  (metric.data.map MetricData.onePointData).getD [] |>.flatMap metric.metricSeriesWithData

end Metric

/-- What a step puts into the export. -/
inductive Emission (κ V H : Type) where
  | plain
  | sum (key : κ) (value : V)
  | histogram (key : κ) (value : H)
deriving DecidableEq, Repr

/-- How far decoding got: the steps that succeeded, what they emitted, and what ended it. -/
structure Decoded (κ V H : Type) [Ord κ] where
  accumulator : DeltaAccumulator κ V H
  passed : List (DecodeStep κ V H × Emission κ V H)
  failed : Option OtlpError

section Decoding

variable [Zero V] [Add V] (add : H → H → Option H)

def decodeStep (accumulator : DeltaAccumulator κ V H) : DecodeStep κ V H →
    DeltaAccumulator κ V H × Except OtlpError (Emission κ V H)
  | .plain => (accumulator, .ok .plain)
  | .sum key start delta =>
    let summed := accumulator.accumulateSum key start delta
    (summed.1, .ok (.sum key summed.2))
  | .histogram metric key start delta =>
    let summed := accumulator.accumulateHistogram add metric key start delta
    (summed.1, summed.2.map (.histogram key))
  | .invalid error => (accumulator, .error error)

/-- Decoding that ends at the first step that fails. -/
def decodeWhole (accumulator : DeltaAccumulator κ V H) : List (DecodeStep κ V H) →
    Decoded κ V H
  | [] => ⟨accumulator, [], none⟩
  | step :: rest =>
    match decodeStep add accumulator step with
    | (accumulator, .error error) => ⟨accumulator, [], some error⟩
    | (accumulator, .ok emission) =>
      let later := decodeWhole accumulator rest
      { later with passed := (step, emission) :: later.passed }

/-- Decoding that leaves out the steps that fail and remembers the first error. -/
def decodePoints (accumulator : DeltaAccumulator κ V H) : List (DecodeStep κ V H) →
    Decoded κ V H
  | [] => ⟨accumulator, [], none⟩
  | step :: rest =>
    match decodeStep add accumulator step with
    | (accumulator, .error error) =>
      { decodePoints accumulator rest with failed := some error }
    | (accumulator, .ok emission) =>
      let later := decodePoints accumulator rest
      { later with passed := (step, emission) :: later.passed }

/-- `decode_otlp_inner`, the decoding of a gRPC export. -/
def decodeOtlpInner (accumulator : DeltaAccumulator κ V H) (metrics : List (Metric κ V H)) :
    Decoded κ V H :=
  decodeWhole add accumulator (metrics.flatMap Metric.metricSeries)

/-- `decode_otlp_inner_partial`, the decoding of an HTTP export: an error only when no point
was decoded. -/
def decodeOtlpInnerPartial (accumulator : DeltaAccumulator κ V H)
    (metrics : List (Metric κ V H)) : Decoded κ V H :=
  let decoded := decodePoints add accumulator (metrics.flatMap Metric.pointSeries)
  if decoded.passed.isEmpty then decoded else { decoded with failed := none }

end Decoding

end KrabkaO11y.Metrics
