import KrabkaO11y.Machine.Saturating

/-!
The plan of a range query (`plan_range_query` in
`crates/promql/src/query_frontend/plan.rs`).

The loop walks the evaluation timestamps and opens a sub-range at the first one of each
absolute split window. Only the signs of the step and of the split interval are checked,
and both become whole milliseconds afterwards: a step that becomes zero is never finished
with and a split interval that does is divided by. Otherwise the sub-ranges tile the
timestamps, saturated window starts included, and a window that a query covers as a whole
has the same sub-range in all of them.

`millis_i64` is a function of the units library. All that is asked of it is that a positive
time has no negative number of milliseconds.
-/

namespace KrabkaO11y.QueryFrontend.RangePlan

open List

/-! ### The plan -/

structure QueryFrontendOptions where
  splitInterval : ℚ
  shardCount : Nat

structure QueryShard where
  index : Nat
  total : Nat
deriving DecidableEq, Repr

structure FrontendRangeQuery where
  query : String
  startMs : Int
  endMs : Int
  step : ℚ
  shard : Option QueryShard
deriving DecidableEq

/-- An error, or the panic of `div_euclid`. -/
inductive Failure where
  | plan (message : String)
  | dividedByZero
deriving DecidableEq, Repr

/-- `MAX_RESOLUTION_POINTS`. -/
def maxResolutionPoints : Int := 11000

def rangeResolutionExceedsLimit (startMs endMs : Int64) (stepMs : Int) : Bool :=
  decide (0 < stepMs) &&
    decide (maxResolutionPoints < (Machine.saturatingSub endMs startMs).toInt / stepMs)

/-- `saturating_mul` on the quotient of `div_euclid`. -/
def absoluteSplitWindow (ts splitInterval : Int) : Int :=
  (Machine.saturate (ts / splitInterval * splitInterval)).toInt

def checkedAdd (a b : Int) : Option Int := if a + b < 2 ^ 63 then some (a + b) else none

/-- What `push_sharded_subqueries` pushes for a sub-range. -/
def shardedSubqueries (query : String) (step : ℚ) (shardCount : Nat) (range : Int × Int) :
    List FrontendRangeQuery :=
  if shardCount = 1 then [⟨query, range.1, range.2, step, none⟩]
  else (List.range shardCount).map fun i =>
    ⟨query, range.1, range.2, step, some ⟨i + 1, shardCount⟩⟩

structure OpenSplitRange where
  window : Int
  startMs : Int
  endMs : Int

section Loop

variable (push : Int × Int → List FrontendRangeQuery) (endMs stepMs splitIntervalMs : Int)

/-- The sub-range that is open is pushed. -/
def close (subqueries : List FrontendRangeQuery) : Option OpenSplitRange → List FrontendRangeQuery
  | some range => subqueries ++ push (range.startMs, range.endMs)
  | none => subqueries

/-- One timestamp: it extends the open sub-range or opens the next one. -/
def visit (eval : Int) (subqueries : List FrontendRangeQuery) (current : Option OpenSplitRange) :
    List FrontendRangeQuery × OpenSplitRange :=
  let window := absoluteSplitWindow eval splitIntervalMs
  match current.filter fun range => range.window = window with
  | some range => (subqueries, { range with endMs := eval })
  | none => (close push subqueries current, ⟨window, eval, eval⟩)

/-- The loop, or `none` when it has not ended within the fuel. -/
def planLoop : Nat → Int → List FrontendRangeQuery → Option OpenSplitRange →
    Option (Except Failure (List FrontendRangeQuery))
  | 0, _, _, _ => none
  | fuel + 1, eval, subqueries, current =>
    if endMs < eval then some (.ok (close push subqueries current))
    else if splitIntervalMs = 0 then some (.error .dividedByZero)
    else
      let visited := visit push splitIntervalMs eval subqueries current
      match checkedAdd eval stepMs with
      | some nextEval => planLoop fuel nextEval visited.1 (some visited.2)
      | none => some (.ok (close push visited.1 (some visited.2)))

end Loop

/-- The plan. Whether a query can be sharded is read off its text, and `millis_i64` is the units
library's. -/
def planRangeQuery (millisI64 : ℚ → Int64) (supportsSharding : String → Except Failure Bool)
    (fuel : Nat) (query : String) (startMs endMs : Int64) (step : ℚ) (opts : QueryFrontendOptions) :
    Option (Except Failure (List FrontendRangeQuery)) :=
  if step ≤ 0 then some (.error (.plan "query range step must be positive"))
  else if opts.splitInterval ≤ 0 then
    some (.error (.plan "query split interval must be positive"))
  else if opts.shardCount = 0 then some (.error (.plan "query shard count must be positive"))
  else if endMs < startMs then some (.ok [])
  else if rangeResolutionExceedsLimit startMs endMs (millisI64 step).toInt then
    some (.error (.plan ("exceeded maximum resolution of 11,000 points per timeseries. " ++
      "Try decreasing the query resolution (?step=XX)")))
  else
    match supportsSharding query with
    | .error failure => some (.error failure)
    | .ok sharded =>
      planLoop (shardedSubqueries query step (if sharded then opts.shardCount else 1))
        endMs.toInt (millisI64 step).toInt (millisI64 opts.splitInterval).toInt fuel
        startMs.toInt [] none

/-! ### Tilings of the evaluation timestamps -/

/-- The evaluation timestamps of a range. -/
def Grid (start end_ step t : Int) : Prop := start ≤ t ∧ t ≤ end_ ∧ step ∣ t - start

/-- Sub-ranges that tile the timestamps of a range: in ascending order and apart, with
timestamps for ends, and one for all the timestamps of a split window. -/
structure Tiles (start end_ step split : Int) (ranges : List (Int × Int)) : Prop where
  increasing : ranges.Pairwise fun a b => a.2 < b.1
  ends : ∀ r ∈ ranges, Grid start end_ step r.1 ∧ Grid start end_ step r.2 ∧ r.1 ≤ r.2
  covered : ∀ t, Grid start end_ step t → ∃ r ∈ ranges, r.1 ≤ t ∧ t ≤ r.2
  window : ∀ r ∈ ranges, r.1 / split = r.2 / split
  whole : ∀ r ∈ ranges, ∀ t, Grid start end_ step t → t / split = r.1 / split →
    r.1 ≤ t ∧ t ≤ r.2

variable {start end_ step split a last : Int} {ranges : List (Int × Int)}

/-- Before the first timestamp there is nothing to tile. -/
theorem tiles_nil (h : end_ < start) : Tiles start end_ step split [] :=
  ⟨.nil, by simp, fun _ ht => absurd h (not_lt.mpr (ht.1.trans ht.2.1)), by simp, by simp⟩

/-- Timestamps are a step apart. -/
theorem add_step_le {t : Int} (ha : step ∣ a - start) (ht : step ∣ t - start) (hlt : t < a) :
    t + step ≤ a := by
  have hdvd : step ∣ a - t := by simpa using dvd_sub ha ht
  have := Int.le_of_dvd (by omega) hdvd
  omega

/-- Windows that are done with, and the timestamps of a later one up to the last visited. -/
structure Opened (start step split : Int) (ranges : List (Int × Int)) (a last : Int) : Prop where
  tiles : Tiles start (a - step) step split ranges
  first : Grid start last step a
  onGrid : step ∣ last - start
  window : a / split = last / split
  later : ∀ t, Grid start (a - step) step t → t / split < a / split

/-- The timestamps visited are tiled, and there is none after them before the next. -/
theorem Opened.close (h : Opened start step split ranges a last) (hs : 0 < step)
    (hsplit : 0 < split)
    (hle : last ≤ end_) (hlt : end_ < last + step) :
    Tiles start end_ step split (ranges ++ [(a, last)]) := by
  obtain ⟨hstart, hale, ha⟩ := h.first
  have hgrid : ∀ t, Grid start end_ step t ↔
      Grid start (a - step) step t ∨ a ≤ t ∧ t ≤ last ∧ step ∣ t - start := by
    intro t
    constructor
    · rintro ⟨hfrom, hupto, ht⟩
      rcases lt_or_ge t a with hbefore | hafter
      · exact .inl ⟨hfrom, by have := add_step_le ha ht hbefore; omega, ht⟩
      · refine .inr ⟨hafter, not_lt.mp fun hpast => ?_, ht⟩
        have := add_step_le ht h.onGrid hpast
        omega
    · rintro (⟨hfrom, hupto, ht⟩ | ⟨hfrom, hupto, ht⟩)
      · exact ⟨hfrom, by omega, ht⟩
      · exact ⟨by omega, by omega, ht⟩
  constructor
  · refine pairwise_append.mpr ⟨h.tiles.increasing, pairwise_singleton .., ?_⟩
    intro r hr b hb
    rw [mem_singleton.mp hb]
    have := (h.tiles.ends r hr).2.1.2.1
    dsimp only
    omega
  · refine forall_mem_append.mpr ⟨fun r hr => ?_, forall_mem_singleton.mpr ?_⟩
    · obtain ⟨hfirst, hl, horder⟩ := h.tiles.ends r hr
      exact ⟨(hgrid _).mpr (.inl hfirst), (hgrid _).mpr (.inl hl), horder⟩
    · exact ⟨(hgrid a).mpr (.inr ⟨le_rfl, hale, ha⟩),
      (hgrid last).mpr (.inr ⟨hale, le_rfl, h.onGrid⟩),
        hale⟩
  · intro t ht
    rcases (hgrid t).mp ht with hold | ⟨hfrom, hupto, -⟩
    · obtain ⟨r, hr, hin⟩ := h.tiles.covered t hold
      exact ⟨r, mem_append_left _ hr, hin⟩
    · exact ⟨_, mem_append_right _ (mem_singleton_self _), hfrom, hupto⟩
  · exact forall_mem_append.mpr ⟨h.tiles.window, forall_mem_singleton.mpr h.window⟩
  · refine forall_mem_append.mpr ⟨fun r hr t ht heq => ?_, forall_mem_singleton.mpr ?_⟩
    · rcases (hgrid t).mp ht with hold | ⟨hfrom, -, -⟩
      · exact h.tiles.whole r hr t hold heq
      · have := Int.ediv_le_ediv hsplit hfrom
        have := h.later _ (h.tiles.ends r hr).1
        omega
    · intro t ht heq
      rcases (hgrid t).mp ht with hold | ⟨hfrom, hupto, -⟩
      · exact absurd heq (h.later t hold).ne
      · exact ⟨hfrom, hupto⟩

/-- A window that two ranges cover has one sub-range in both. -/
theorem Tiles.mem_of_mem {start' end' : Int} {ranges' : List (Int × Int)}
    (h : Tiles start end_ step split ranges) (h' : Tiles start' end' step split ranges')
    (hphase : step ∣ start' - start) (hsplit : 0 < split) {window : Int}
    (hstart : start ≤ window * split) (hend : (window + 1) * split ≤ end_ + 1)
    (hstart' : start' ≤ window * split) (hend' : (window + 1) * split ≤ end' + 1)
    {r : Int × Int} (hr : r ∈ ranges) (hwindow : r.1 / split = window) : r ∈ ranges' := by
  have hgrid : ∀ t, t / split = window →
      (Grid start end_ step t ↔ Grid start' end' step t) := by
    rintro t rfl
    have hlow := Int.ediv_mul_le t hsplit.ne'
    have hhigh := Int.lt_ediv_add_one_mul_self t hsplit
    have hdvd : step ∣ t - start ↔ step ∣ t - start' := by
      have hsum : t - start = t - start' + (start' - start) := by ring
      rw [hsum, dvd_add_left hphase]
    constructor
    · exact fun ht => ⟨by omega, by omega, hdvd.mp ht.2.2⟩
    · exact fun ht => ⟨by omega, by omega, hdvd.mpr ht.2.2⟩
  obtain ⟨hfirst, hl, -⟩ := h.ends r hr
  have hwin := (h.window r hr).symm.trans hwindow
  obtain ⟨r', hr', hfrom, hupto⟩ := h'.covered _ ((hgrid _ hwindow).mp hfirst)
  obtain ⟨hfirst', hl', -⟩ := h'.ends r' hr'
  -- the two sub-ranges have the timestamps of one window
  have hwindow' : r'.1 / split = window := by
    have := Int.ediv_le_ediv hsplit hfrom
    have := Int.ediv_le_ediv hsplit hupto
    have := h'.window r' hr'
    omega
  have hwin' := (h'.window r' hr').symm.trans hwindow'
  have hmin := (h.whole r hr _ ((hgrid _ hwindow').mpr hfirst') (hwindow'.trans hwindow.symm)).1
  have hmax := (h.whole r hr _ ((hgrid _ hwin').mpr hl') (hwin'.trans hwindow.symm)).2
  have hmax' := (h'.whole r' hr' _ ((hgrid _ hwin).mp hl) (hwin.trans hwindow'.symm)).2
  have heq : r = r' := Prod.ext (by omega) (by omega)
  exact heq ▸ hr'

/-! ### The loop tiles -/

/-- Saturated or not, window starts tell windows apart. -/
theorem absoluteSplitWindow_inj (hsplit : 0 < split) {s t : Int} (hs : -2 ^ 63 ≤ s)
    (hs' : s < 2 ^ 63) (ht : -2 ^ 63 ≤ t) (ht' : t < 2 ^ 63) :
    absoluteSplitWindow s split = absoluteSplitWindow t split ↔ s / split = t / split := by
  refine ⟨fun h => ?_, fun h => by rw [absoluteSplitWindow, h, absoluteSplitWindow]⟩
  rw [absoluteSplitWindow, absoluteSplitWindow, Machine.toInt_saturate,
    Machine.toInt_saturate] at h
  have hlow := Int.ediv_mul_le s hsplit.ne'
  have hhigh := Int.lt_ediv_add_one_mul_self s hsplit
  have hlow' := Int.ediv_mul_le t hsplit.ne'
  have hhigh' := Int.lt_ediv_add_one_mul_self t hsplit
  rcases lt_trichotomy (s / split) (t / split) with hlt | heq | hlt
  · have := mul_le_mul_of_nonneg_right (Int.add_one_le_iff.mpr hlt) hsplit.le
    omega
  · exact heq
  · have := mul_le_mul_of_nonneg_right (Int.add_one_le_iff.mpr hlt) hsplit.le
    omega

section Loop

variable {push : Int × Int → List FrontendRangeQuery}
  {visited : List FrontendRangeQuery × OpenSplitRange}

/-- How the loop goes on once a timestamp was visited. -/
def resume (push : Int × Int → List FrontendRangeQuery) (endMs stepMs splitIntervalMs : Int)
    (fuel : Nat) (eval : Int) (visited : List FrontendRangeQuery × OpenSplitRange) :
    Option (Except Failure (List FrontendRangeQuery)) :=
  match checkedAdd eval stepMs with
  | some nextEval =>
    planLoop push endMs stepMs splitIntervalMs fuel nextEval visited.1 (some visited.2)
  | none => some (.ok (close push visited.1 (some visited.2)))

theorem planLoop_succ {eval : Int} (hle : eval ≤ end_) (hsplit : split ≠ 0) (fuel : Nat)
    (subqueries : List FrontendRangeQuery) (current : Option OpenSplitRange) :
    planLoop push end_ step split (fuel + 1) eval subqueries current =
      resume push end_ step split fuel eval (visit push split eval subqueries current) := by
  rw [planLoop, if_neg (not_lt.mpr hle), if_neg hsplit, resume]

/-- What the loop has when it has visited the timestamps up to the last one. -/
def Visited (push : Int × Int → List FrontendRangeQuery) (start step split last : Int)
    (visited : List FrontendRangeQuery × OpenSplitRange) : Prop :=
  ∃ ranges a, Opened start step split ranges a last ∧
    visited = (ranges.flatMap push, ⟨absoluteSplitWindow last split, a, last⟩)

theorem visited_first (hs : 0 < step) :
    Visited push start step split start (visit push split start [] none) := by
  refine ⟨[], start, ⟨tiles_nil (by omega), ⟨le_rfl, le_rfl, by simp⟩, by simp, rfl, ?_⟩, rfl⟩
  rintro t ⟨hfrom, hupto, -⟩
  omega

theorem Visited.next (h : Visited push start step split last visited) (hs : 0 < step)
    (hsplit : 0 < split) (hstart : -2 ^ 63 ≤ start) (hn : last + step < 2 ^ 63) :
    Visited push start step split (last + step)
      (visit push split (last + step) visited.1 (some visited.2)) := by
  obtain ⟨ranges, a, h, rfl⟩ := h
  obtain ⟨hfrom, hupto, ha⟩ := h.first
  have honGrid : step ∣ last + step - start := by
    rw [add_sub_right_comm]
    exact dvd_add h.onGrid dvd_rfl
  have hwindow := absoluteSplitWindow_inj hsplit (s := last) (t := last + step) (by omega)
    (by omega) (by omega) hn
  rw [visit]
  by_cases hsame : last / split = (last + step) / split
  · have heq := hwindow.mpr hsame
    exact ⟨ranges, a, ⟨h.tiles, ⟨hfrom, by omega, ha⟩, honGrid, h.window.trans hsame, h.later⟩,
      by simp [heq, Option.filter_some]⟩
  · refine ⟨ranges ++ [(a, last)], last + step, ⟨?_, ⟨by omega, le_rfl, honGrid⟩, honGrid, rfl, ?_⟩,
      by simp [mt hwindow.mp hsame, Option.filter_some, close]⟩
    · rw [add_sub_cancel_right]
      exact h.close hs hsplit le_rfl (by omega)
    · intro t ht
      have hbefore := Int.ediv_le_ediv hsplit (show t ≤ last by have := ht.2.1; omega)
      have hafter := Int.ediv_le_ediv hsplit (show last ≤ last + step by omega)
      omega

/-- With fuel for the milliseconds that are left the loop completes the tiling. -/
theorem resume_tiles (hs : 0 < step) (hsplit : 0 < split) (hstart : -2 ^ 63 ≤ start)
    (hend : end_ < 2 ^ 63) (n : Nat) : ∀ {last : Int}
    {visited : List FrontendRangeQuery × OpenSplitRange}, (end_ - last).toNat < n →
    last ≤ end_ → Visited push start step split last visited →
    ∃ all, Tiles start end_ step split all ∧ ∀ fuel ≥ n,
      resume push end_ step split fuel last visited = some (.ok (all.flatMap push)) := by
  induction n with
  | zero => exact fun hn => absurd hn (Nat.not_lt_zero _)
  | succ n ih =>
    intro last visited hn hle h
    rcases lt_or_ge end_ (last + step) with hdone | hmore
    · obtain ⟨ranges, a, h, rfl⟩ := h
      refine ⟨_, h.close hs hsplit hle hdone, fun fuel hfuel => ?_⟩
      obtain ⟨fuel, rfl⟩ := Nat.exists_eq_add_of_le' (Nat.le_of_add_left_le hfuel)
      rw [resume, checkedAdd]
      split
      · rename_i next hne
        cases (Option.ite_none_right_eq_some.mp hne).2
        simp [planLoop, hdone, close]
      · simp [close]
    · obtain ⟨all, htiles, hall⟩ := ih (by omega) hmore (h.next hs hsplit hstart (by omega))
      refine ⟨all, htiles, fun fuel hfuel => ?_⟩
      obtain ⟨fuel, rfl⟩ := Nat.exists_eq_add_of_le' (Nat.le_of_add_left_le hfuel)
      rw [resume, checkedAdd, if_pos (by omega)]
      exact (planLoop_succ hmore hsplit.ne' ..).trans (hall fuel (by omega))

/-- A step of zero visits one timestamp for ever. -/
theorem planLoop_zero_step (hsplit : split ≠ 0) {eval : Int} (hle : eval ≤ end_)
    (hend : end_ < 2 ^ 63) : ∀ fuel subqueries current,
      planLoop push end_ 0 split fuel eval subqueries current = none := by
  intro fuel
  induction fuel with
  | zero => exact fun _ _ => rfl
  | succ fuel ih =>
    intro subqueries current
    rw [planLoop_succ hle hsplit, resume, checkedAdd, if_pos (by omega), add_zero]
    exact ih _ _

end Loop

/-- For accepted arguments the plan is there, and its sub-ranges tile the evaluation
timestamps, exactly where both extents have at least a millisecond or there is nothing to
evaluate; and what tiles two ranges of one phase has the same sub-range for each split
window that both cover. -/
theorem plan_tiles_iff {millisI64 : ℚ → Int64}
    (hmillis : ∀ time, 0 < time → 0 ≤ (millisI64 time).toInt)
    {supportsSharding : String → Except Failure Bool} {query : String}
    {startMs endMs : Int64} {step : ℚ} {opts : QueryFrontendOptions} {sharded : Bool}
    (hstep : 0 < step) (hsplit : 0 < opts.splitInterval) (hshards : opts.shardCount ≠ 0)
    (hresolution : rangeResolutionExceedsLimit startMs endMs (millisI64 step).toInt = false)
    (hsharded : supportsSharding query = .ok sharded) :
    let stepMs := (millisI64 step).toInt
    let splitMs := (millisI64 opts.splitInterval).toInt
    ((∃ ranges enough, Tiles startMs.toInt endMs.toInt stepMs splitMs ranges ∧ ∀ fuel ≥ enough,
        planRangeQuery millisI64 supportsSharding fuel query startMs endMs step opts =
          some (.ok (ranges.flatMap (shardedSubqueries query step
            (if sharded then opts.shardCount else 1))))) ↔
      endMs < startMs ∨ 0 < stepMs ∧ 0 < splitMs) ∧
    ∀ (startMs' endMs' : Int64) (window : Int) (ranges ranges' : List (Int × Int)),
      Tiles startMs.toInt endMs.toInt stepMs splitMs ranges →
      Tiles startMs'.toInt endMs'.toInt stepMs splitMs ranges' →
      stepMs ∣ startMs'.toInt - startMs.toInt → 0 < splitMs →
      max startMs.toInt startMs'.toInt ≤ window * splitMs →
      (window + 1) * splitMs ≤ min endMs.toInt endMs'.toInt + 1 →
      ∀ r : Int × Int, r.1 / splitMs = window → (r ∈ ranges ↔ r ∈ ranges') := by
  intro stepMs splitMs
  have hloop : ¬ endMs < startMs → ∀ fuel,
      planRangeQuery millisI64 supportsSharding fuel query startMs endMs step opts =
        planLoop (shardedSubqueries query step (if sharded then opts.shardCount else 1))
          endMs.toInt stepMs splitMs fuel startMs.toInt [] none := by
    intro hle fuel
    rw [planRangeQuery, if_neg (not_le.mpr hstep), if_neg (not_le.mpr hsplit), if_neg hshards,
      if_neg hle, if_neg (by simp [hresolution]), hsharded]
  have hbelow := endMs.toInt_lt
  refine ⟨⟨?_, ?_⟩, ?_⟩
  · rintro ⟨ranges, enough, -, hplan⟩
    by_contra hnot
    obtain ⟨hle, hrounds⟩ := not_or.mp hnot
    have hstart : startMs.toInt ≤ endMs.toInt := Int64.le_iff_toInt_le.mp (Int64.not_lt.mp hle)
    have hfuel := hplan (enough + 1) (Nat.le_succ _)
    rw [hloop hle] at hfuel
    by_cases hzero : splitMs = 0
    · rw [planLoop, if_neg (not_lt.mpr hstart), if_pos hzero] at hfuel
      cases hfuel
    · have hstepMs : stepMs = 0 := by
        have := hmillis _ hstep
        have := hmillis _ hsplit
        omega
      rw [hstepMs, planLoop_zero_step hzero hstart hbelow] at hfuel
      cases hfuel
  · intro hright
    by_cases hlt : endMs < startMs
    · refine ⟨[], 0, tiles_nil (Int64.lt_iff_toInt_lt.mp hlt), fun fuel _ => ?_⟩
      rw [planRangeQuery, if_neg (not_le.mpr hstep), if_neg (not_le.mpr hsplit), if_neg hshards,
        if_pos hlt]
      rfl
    · obtain ⟨hstepMs, hsplitMs⟩ := hright.resolve_left hlt
      have hstart : startMs.toInt ≤ endMs.toInt := Int64.le_iff_toInt_le.mp (Int64.not_lt.mp hlt)
      obtain ⟨ranges, htiles, hall⟩ := resume_tiles hstepMs hsplitMs startMs.le_toInt hbelow
        _ (Nat.lt_succ_self _) hstart (visited_first hstepMs)
      refine ⟨ranges, (endMs.toInt - startMs.toInt).toNat + 2, htiles, fun fuel hfuel => ?_⟩
      obtain ⟨fuel, rfl⟩ := Nat.exists_eq_add_of_le' (Nat.le_of_add_left_le hfuel)
      rw [hloop hlt, planLoop_succ hstart (by omega)]
      exact hall (fuel + 1) (by omega)
  · intro startMs' endMs' window ranges ranges' h h' hphase hsplitMs hfrom hupto r hr
    obtain ⟨hs, hs'⟩ := max_le_iff.mp hfrom
    have he : (window + 1) * splitMs ≤ endMs.toInt + 1 := by omega
    have he' : (window + 1) * splitMs ≤ endMs'.toInt + 1 := by omega
    exact ⟨fun hmem => h.mem_of_mem h' hphase hsplitMs hs he hs' he' hmem hr,
      fun hmem => h'.mem_of_mem h (by rwa [← dvd_neg, neg_sub]) hsplitMs hs' he' hs he hmem hr⟩

/-- Split windows of an hour, and two shards. -/
def sampleOptions : QueryFrontendOptions := ⟨3600000, 2⟩

/-- The whole milliseconds of a time, as one conversion has them. -/
def wholeMillis (time : ℚ) : Int64 := Machine.saturate ⌊time⌋

theorem wholeMillis_nonneg (time : ℚ) (h : 0 < time) : 0 ≤ (wholeMillis time).toInt := by
  have floor : 0 ≤ ⌊time⌋ := Int.floor_nonneg.mpr h.le
  rw [wholeMillis, Machine.toInt_saturate]
  omega

/-- Two minutes around an hour, by the minute. -/
theorem plan_tiles_around_hour :
    ∃ ranges enough, Tiles (3540000 : Int64).toInt (3660000 : Int64).toInt
        (wholeMillis 60000).toInt (wholeMillis sampleOptions.splitInterval).toInt ranges ∧
      ∀ fuel ≥ enough,
        planRangeQuery wholeMillis (fun _ => .ok true) fuel "sum(up)" 3540000 3660000 60000
          sampleOptions = some (.ok (ranges.flatMap (shardedSubqueries "sum(up)" 60000 2))) :=
  (@plan_tiles_iff wholeMillis wholeMillis_nonneg (fun _ => .ok true) "sum(up)" 3540000 3660000
    60000 sampleOptions true (by decide +kernel) (by decide +kernel) (by decide)
    (by decide +kernel) rfl).1.mpr (by decide +kernel)

/-- A step of a quarter of a millisecond is accepted and never finished with, and a split
interval of a quarter of a millisecond is accepted and divided by. -/
theorem quarter_millisecond_step_unfinished :
    (∀ fuel, planRangeQuery wholeMillis (fun _ => .ok true) fuel "up" 0 0 (1 / 4) sampleOptions =
      none) ∧
      planRangeQuery wholeMillis (fun _ => .ok true) 1 "up" 0 0 1 ⟨1 / 4, 1⟩ =
        some (.error .dividedByZero) := by
  refine ⟨fun fuel => ?_, by decide +kernel⟩
  have zero : (wholeMillis (1 / 4)).toInt = 0 := by decide +kernel
  rw [planRangeQuery, if_neg (by decide +kernel), if_neg (by decide +kernel), if_neg (by decide),
    if_neg (by decide +kernel), if_neg (by decide +kernel), zero]
  exact planLoop_zero_step (by decide +kernel) (by decide +kernel) (by decide +kernel) _ _ _

end KrabkaO11y.QueryFrontend.RangePlan
