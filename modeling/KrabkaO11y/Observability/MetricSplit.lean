import KrabkaO11y.Collections.Sorted
import KrabkaO11y.Collections.Tree
import KrabkaO11y.Observability.Frontier

/-!
A LogQL metric range query through the query frontend
(`crates/observability/src/query_frontend.rs`): the range is cut at the multiples of the
split interval, each part is evaluated on its own grid and over its own scan, and the
samples of the parts are put together series by series.

What a query makes of the entries in one window (its range aggregation, its grouping and
its vector aggregation) is a parameter: every window is evaluated on its own.
-/

namespace KrabkaO11y.Observability

def i64Max : Int := -i64Min - 1

/-- `i64::checked_add`. -/
def checkedAdd (left right : Int) : Option Int :=
  if i64Min ≤ left + right ∧ left + right ≤ i64Max then some (left + right) else none

/-! ### The parts of a range -/

/-- The loop of `split_ranges`. Its saturations have no effect: the boundary is cut off at
the end of the range, which is an `i64`. -/
def splitFrom (splitNs endNs start : Int) : List TimeRange :=
  if start < endNs then
    let nextBoundary := (start / splitNs + 1) * splitNs
    let stop := max (min nextBoundary endNs) (start + 1)
    ⟨start, stop⟩ :: splitFrom splitNs endNs stop
  else []
termination_by (endNs - start).toNat

def splitRanges (range : TimeRange) (splitNs : Int) : List TimeRange :=
  if range.startNs = range.endNs ∨ splitNs ≤ 0 then [range]
  else splitFrom splitNs range.endNs range.startNs

/-! ### The grid of a part -/

def alignUp (stepNs time : Int) : Option Int :=
  let remainder := time % stepNs
  if remainder = 0 then some time else checkedAdd time (stepNs - remainder)

/-- The loop of `eval_times`. -/
def evalTimesFrom (stepNs endNs time : Int) : List Int :=
  if time ≤ endNs then
    time :: match checkedAdd time stepNs with
      | none => []
      | some next => if _h : next ≤ time then [] else evalTimesFrom stepNs endNs next
  else []
termination_by (endNs + 1 - time).toNat

def evalTimes (range : TimeRange) (stepNs : Int) : List Int :=
  match alignUp stepNs range.startNs, alignUp stepNs range.endNs with
  | some time, some endNs => evalTimesFrom stepNs endNs time
  | _, _ => []

/-! ### The evaluation of a part -/

abbrev Labels := List (String × String)

/-- An entry that matched a metric query. -/
structure MatchedEntry where
  timestampNs : Int
  metricLabels : Labels
  line : String
  unwrapSample : Option ℚ
deriving DecidableEq, Repr

structure MetricQuery where
  offsetNs : Int
  rangeNs : Int
  /-- The value of a series in the window that some entries are in. -/
  value : List MatchedEntry → Labels → Option ℚ

inductive HttpQueryError where
  | invalidStep
deriving DecidableEq, Repr

/-- The samples of each series. -/
abbrev Matrix := Labels → List (Int × ℚ)

namespace MetricQuery

variable (query : MetricQuery)

def scanRange (evalRange : TimeRange) : TimeRange where
  startNs := saturatingSub (saturatingSub evalRange.startNs query.offsetNs) query.rangeNs
  endNs := saturatingSub evalRange.endNs query.offsetNs

/-- The entry is in the window of an evaluation time. -/
def inWindow (time : Int) (entry : MatchedEntry) : Bool :=
  !decide (saturatingSub time query.offsetNs < entry.timestampNs) &&
    decide (saturatingSub (saturatingSub time query.offsetNs) query.rangeNs < entry.timestampNs)

/-- The scanned entries that are in a window. -/
def windowEntries (entries : List MatchedEntry) (range : TimeRange) (time : Int) :
    List MatchedEntry :=
  (entries.filter fun entry => (query.scanRange range).covers entry.timestampNs).filter
    (query.inWindow time)

/-- The matrix of a range on a grid. -/
def matrix (entries : List MatchedEntry) (range : TimeRange) (stepNs : Int) : Matrix :=
  fun labels => (evalTimes range stepNs).filterMap fun time =>
    (query.value (query.windowEntries entries range time) labels).map fun value => (time, value)

def defaultMetricRangeStep (range : TimeRange) : Int :=
  max (saturatingSub range.endNs range.startNs) 1

/-- A range query as one sub-query evaluates it. -/
def execute (entries : List MatchedEntry) (step : Option Int) (range : TimeRange) :
    Except HttpQueryError Matrix :=
  let stepNs := step.getD (defaultMetricRangeStep range)
  if stepNs ≤ 0 then .error .invalidStep else .ok (query.matrix entries range stepNs)

end MetricQuery

/-! ### The merge -/

/-- The samples of a series in the order of their timestamps, without adjacent duplicates. -/
def normalizeMergedSeries (samples : List (Int × ℚ)) : List (Int × ℚ) :=
  Collections.dedupAdjacent (samples.insertionSort fun left right => left.1 ≤ right.1)

def mergeFrontendResults (results : List Matrix) : Matrix :=
  fun labels => normalizeMergedSeries (results.flatMap fun result => result labels)

/-- A range query through the frontend. -/
def MetricQuery.executeFrontend (query : MetricQuery) (entries : List MatchedEntry)
    (step : Option Int) (range : TimeRange) (splitNs : Int) : Except HttpQueryError Matrix :=
  ((splitRanges range splitNs).mapM (query.execute entries step)).map mergeFrontendResults

end KrabkaO11y.Observability
