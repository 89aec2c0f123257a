import KrabkaO11y.Observability.MetricSplit

/-!
When a metric range query that the frontend splits answers like the query over the whole
range.

The grid of a part reaches past its end to the next multiple of the step, while its scan
stops at its end. So the first grid point after a boundary is evaluated by the part before
the boundary as well, without the entries after it; the two samples differ and both stay in
the answer. With no step given each part has a step of its own.
-/

namespace KrabkaO11y.Observability

open List

/-! ### The parts -/

section Parts

variable {splitNs endNs start : Int}

theorem splitFrom_of_lt (hsplit : 0 < splitNs) (hlt : start < endNs) :
    splitFrom splitNs endNs start =
      ⟨start, min ((start / splitNs + 1) * splitNs) endNs⟩ ::
        splitFrom splitNs endNs (min ((start / splitNs + 1) * splitNs) endNs) := by
  have hn := Int.lt_ediv_add_one_mul_self start hsplit
  have hst : max (min ((start / splitNs + 1) * splitNs) endNs) (start + 1) =
      min ((start / splitNs + 1) * splitNs) endNs := by omega
  rw [splitFrom, if_pos hlt]
  simp only [hst]

theorem splitFrom_of_le (hle : endNs ≤ start) : splitFrom splitNs endNs start = [] := by
  rw [splitFrom, if_neg (by omega)]

/-- The multiples of the split interval after `start` begin at the next boundary. -/
theorem nextBoundary_le {boundary : Int} (hsplit : 0 < splitNs) (hdvd : splitNs ∣ boundary)
    (hlt : start < boundary) : (start / splitNs + 1) * splitNs ≤ boundary := by
  obtain ⟨k, rfl⟩ := hdvd
  have hk : start / splitNs < k := Int.ediv_lt_of_lt_mul hsplit (by rwa [Int.mul_comm])
  rw [Int.mul_comm splitNs k]
  exact Int.mul_le_mul_of_nonneg_right hk hsplit.le

/-- What holds of the parts from `start` on, by the recursion of the loop. -/
theorem splitFrom_induction (hsplit : 0 < splitNs) {P : Int → List TimeRange → Prop}
    (hsto : ∀ start, endNs ≤ start → P start [])
    (hs : ∀ start stop rest, start < endNs → start < stop → stop ≤ endNs →
      (splitNs ∣ stop ∨ stop = endNs) →
      (∀ boundary, splitNs ∣ boundary → start < boundary → stop ≤ boundary ∨ endNs ≤ boundary) →
      P stop rest → P start (⟨start, stop⟩ :: rest)) (start : Int) :
    P start (splitFrom splitNs endNs start) := by
  induction hn : (endNs - start).toNat using Nat.strong_induction_on generalizing start with
  | _ n ih =>
    by_cases hlt : start < endNs
    · rw [splitFrom_of_lt hsplit hlt]
      have hne : start < (start / splitNs + 1) * splitNs :=
        Int.lt_ediv_add_one_mul_self start hsplit
      have hst : start < min ((start / splitNs + 1) * splitNs) endNs := lt_min hne hlt
      refine hs start _ _ hlt hst (min_le_right _ _) ?_ ?_
        (ih _ (by omega) _ rfl)
      · rcases min_choice ((start / splitNs + 1) * splitNs) endNs with h | h
        · left
          rw [h]
          exact Int.dvd_mul_left _ _
        · exact .inr h
      · intro boundary hdvd hbo
        exact .inl ((min_le_left _ _).trans (nextBoundary_le hsplit hdvd hbo))
    · rw [splitFrom_of_le (Int.not_lt.mp hlt)]
      exact hsto start (Int.not_lt.mp hlt)

/-- Each part is a piece of the range that ends at a boundary or at the end. -/
theorem part_of_mem_splitFrom (hsplit : 0 < splitNs) : ∀ part ∈ splitFrom splitNs endNs start,
    start ≤ part.startNs ∧ part.startNs < part.endNs ∧ part.endNs ≤ endNs ∧
      (splitNs ∣ part.endNs ∨ part.endNs = endNs) := by
  refine splitFrom_induction hsplit (P := fun start parts => ∀ part ∈ parts,
    start ≤ part.startNs ∧ part.startNs < part.endNs ∧ part.endNs ≤ endNs ∧
      (splitNs ∣ part.endNs ∨ part.endNs = endNs)) (by simp) ?_ start
  intro start stop rest _ hst hsto hend _ ih part hp
  rcases mem_cons.mp hp with rfl | hp
  · exact ⟨le_rfl, hst, hsto, hend⟩
  · obtain ⟨hfr, hr⟩ := ih part hp
    exact ⟨hst.le.trans hfr, hr⟩

/-- Every time from `start` on is in a part, or after the last one. -/
theorem exists_part_of_le (hsplit : 0 < splitNs) (hlt : start < endNs) {time : Int}
    (ht : start ≤ time) : ∃ part ∈ splitFrom splitNs endNs start,
      part.startNs ≤ time ∧ (time < part.endNs ∨ part.endNs = endNs) := by
  refine splitFrom_induction hsplit (P := fun start parts => start < endNs → start ≤ time →
    ∃ part ∈ parts, part.startNs ≤ time ∧ (time < part.endNs ∨ part.endNs = endNs))
    (fun start hle hlt => absurd hlt (Int.not_lt.mpr hle)) ?_ start hlt ht
  intro start stop rest _ hst hsto _ _ ih _ hle
  by_cases hin : time < stop ∨ stop = endNs
  · exact ⟨_, mem_cons_self, hle, hin⟩
  · obtain ⟨ha, hne⟩ := not_or.mp hin
    obtain ⟨part, hp, hcov⟩ := ih (lt_of_le_of_ne hsto hne) (Int.not_lt.mp ha)
    exact ⟨part, mem_cons_of_mem _ hp, hcov⟩

/-- Every boundary inside the range is the end of a part. -/
theorem exists_part_of_boundary (hsplit : 0 < splitNs) {boundary : Int}
    (hdvd : splitNs ∣ boundary) (ha : start < boundary) (hbef : boundary < endNs) :
    ∃ part ∈ splitFrom splitNs endNs start, part.endNs = boundary := by
  refine splitFrom_induction hsplit (P := fun start parts => start < boundary →
    ∃ part ∈ parts, part.endNs = boundary)
    (fun start hle hlt => absurd (hlt.trans hbef) (Int.not_lt.mpr hle)) ?_ start ha
  intro start stop rest _ _ _ _ hn ih hlt
  have hle : stop ≤ boundary := (hn boundary hdvd hlt).resolve_right (Int.not_le.mpr hbef)
  rcases hle.lt_or_eq with hbe | rfl
  · obtain ⟨part, hp, hen⟩ := ih hbe
    exact ⟨part, mem_cons_of_mem _ hp, hen⟩
  · exact ⟨_, mem_cons_self, rfl⟩

end Parts

/-! ### The grid -/

section Grid

variable {stepNs : Int}

theorem checkedAdd_eq_some {left right : Int} (hmin : i64Min ≤ left + right)
    (hmax : left + right ≤ i64Max) : checkedAdd left right = some (left + right) :=
  if_pos ⟨hmin, hmax⟩

/-- The first multiple of the step that is not before a time. -/
def nextMultiple (stepNs time : Int) : Int := time + (-time) % stepNs

theorem nextMultiple_spec (hs : 0 < stepNs) (time : Int) :
    stepNs ∣ nextMultiple stepNs time ∧ time ≤ nextMultiple stepNs time ∧
      nextMultiple stepNs time < time + stepNs := by
  have hnn := Int.emod_nonneg (-time) hs.ne'
  have hlt := Int.emod_lt_of_pos (-time) hs
  refine ⟨?_, by rw [nextMultiple]; omega, by rw [nextMultiple]; omega⟩
  rw [nextMultiple]
  have hsub : stepNs ∣ -time - (-time) % stepNs := Int.dvd_self_sub_emod
  have hneg := Int.dvd_neg.mpr hsub
  have heq : -(-time - (-time) % stepNs) = time + (-time) % stepNs := by omega
  exact heq ▸ hneg

/-- Multiples of a step are equal or a step apart. -/
theorem le_of_dvd_of_lt_add {point point' : Int} (hdvd : stepNs ∣ point) (hdvd' : stepNs ∣ point')
    (hlt : point < point' + stepNs) : point ≤ point' := by
  by_contra ha
  have := Int.le_of_dvd (by omega) (Int.dvd_sub hdvd hdvd')
  omega

/-- A multiple of the step is not before a time when it is not before the next multiple. -/
theorem nextMultiple_le_iff (hs : 0 < stepNs) {time point : Int} (hdvd : stepNs ∣ point) :
    nextMultiple stepNs time ≤ point ↔ time ≤ point := by
  obtain ⟨hmul, hle, hlt⟩ := nextMultiple_spec hs time
  exact ⟨hle.trans, fun ht => le_of_dvd_of_lt_add hmul hdvd (by omega)⟩

theorem le_nextMultiple_iff (hs : 0 < stepNs) {time point : Int} (hdvd : stepNs ∣ point) :
    point ≤ nextMultiple stepNs time ↔ point < time + stepNs := by
  obtain ⟨hmul, hle, hlt⟩ := nextMultiple_spec hs time
  exact ⟨fun h => h.trans_lt hlt, fun hbef => le_of_dvd_of_lt_add hdvd hmul (by omega)⟩

theorem alignUp_eq (hs : 0 < stepNs) {time : Int} (hmin : i64Min ≤ time)
    (hmax : time + stepNs ≤ i64Max) :
    alignUp stepNs time = some (nextMultiple stepNs time) := by
  have hre := Int.emod_nonneg time hs.ne'
  have hlt := Int.emod_lt_of_pos time hs
  rw [alignUp]
  by_cases hz : time % stepNs = 0
  · have hdvd : stepNs ∣ time := Int.dvd_of_emod_eq_zero hz
    rw [if_pos hz, nextMultiple, Int.emod_eq_zero_of_dvd (Int.dvd_neg.mpr hdvd), Int.add_zero]
  · have hn : nextMultiple stepNs time = time + (stepNs - time % stepNs) := by
      obtain ⟨hmul, hle, hbl⟩ := nextMultiple_spec hs time
      have ho : stepNs ∣ time + (stepNs - time % stepNs) := by
        have hsub : stepNs ∣ time - time % stepNs := Int.dvd_self_sub_emod
        have heq : time + (stepNs - time % stepNs) = time - time % stepNs + stepNs := by omega
        exact heq ▸ Int.dvd_add hsub (Int.dvd_refl _)
      refine le_antisymm ((nextMultiple_le_iff hs ho).mpr (by omega)) ?_
      exact (le_nextMultiple_iff hs ho).mpr (by omega)
    rw [if_neg hz, checkedAdd_eq_some (by omega) (by omega), hn]

/-- The grid from a time on: its points are the multiples of the step after it. -/
theorem evalTimesFrom_spec (hs : 0 < stepNs) {endNs : Int} (hmax : endNs ≤ i64Max)
    (time : Int) (hmin : i64Min ≤ time) :
    (evalTimesFrom stepNs endNs time).Pairwise (· < ·) ∧
      ∀ point, point ∈ evalTimesFrom stepNs endNs time ↔
        stepNs ∣ point - time ∧ time ≤ point ∧ point ≤ endNs := by
  induction hn : (endNs + 1 - time).toNat using Nat.strong_induction_on generalizing time with
  | _ n ih =>
    rw [evalTimesFrom]
    by_cases hle : time ≤ endNs
    swap
    · rw [if_neg hle]
      refine ⟨.nil, fun point => ⟨fun h => (not_mem_nil h).elim, fun h => ?_⟩⟩
      omega
    rw [if_pos hle]
    -- a point after `time` is at least a step away
    have hst : ∀ point, stepNs ∣ point - time → time ≤ point →
        point = time ∨ time + stepNs ≤ point := by
      intro point hdvd hfr
      rcases hfr.eq_or_lt with rfl | hlt
      · exact .inl rfl
      · have := Int.le_of_dvd (by omega) hdvd
        exact .inr (by omega)
    by_cases hov : time + stepNs ≤ i64Max
    · rw [checkedAdd_eq_some (by omega) hov]
      have hne : ¬ time + stepNs ≤ time := by omega
      simp only [hne, dite_false]
      obtain ⟨hpw, hmem⟩ := ih _ (by omega) (time + stepNs) (by omega) rfl
      refine ⟨pairwise_cons.mpr ⟨fun point hpt => ?_, hpw⟩, fun point => ?_⟩
      · have := ((hmem point).mp hpt).2.1
        omega
      · rw [mem_cons, hmem]
        constructor
        · rintro (rfl | ⟨hdvd, hfr, hto⟩)
          · exact ⟨by simp, le_rfl, hle⟩
          · refine ⟨?_, by omega, hto⟩
            have heq : point - time = point - (time + stepNs) + stepNs := by omega
            exact heq ▸ Int.dvd_add hdvd (Int.dvd_refl _)
        · rintro ⟨hdvd, hfr, hto⟩
          refine (hst point hdvd hfr).imp id fun haw => ⟨?_, haw, hto⟩
          have heq : point - (time + stepNs) = point - time - stepNs := by omega
          exact heq ▸ Int.dvd_sub hdvd (Int.dvd_refl _)
    · have hno : checkedAdd time stepNs = none := if_neg (by omega)
      rw [hno]
      refine ⟨pairwise_singleton _ _, fun point => ?_⟩
      rw [mem_singleton]
      constructor
      · rintro rfl
        exact ⟨by simp, le_rfl, hle⟩
      · rintro ⟨hdvd, hfr, hto⟩
        exact (hst point hdvd hfr).resolve_right (by omega)

/-- The bounds within which no time of a grid leaves `i64`. -/
structure GridFits (range : TimeRange) (stepNs : Int) : Prop where
  step : 0 < stepNs
  valid : range.startNs ≤ range.endNs
  min : i64Min ≤ range.startNs
  max : range.endNs + stepNs ≤ i64Max

variable {range : TimeRange}

theorem evalTimes_eq (h : GridFits range stepNs) : evalTimes range stepNs =
    evalTimesFrom stepNs (nextMultiple stepNs range.endNs) (nextMultiple stepNs range.startNs) := by
  have hv := h.valid
  have hmin := h.min
  have hmax := h.max
  rw [evalTimes, alignUp_eq h.step h.min (by omega), alignUp_eq h.step (by omega) h.max]

/-- The grid in the strict order of its points, which are the multiples of the step from the
start of the range up to the one at or after its end. -/
theorem evalTimes_spec (h : GridFits range stepNs) :
    (evalTimes range stepNs).Pairwise (· < ·) ∧ ∀ time, time ∈ evalTimes range stepNs ↔
      stepNs ∣ time ∧ range.startNs ≤ time ∧ time < range.endNs + stepNs := by
  obtain ⟨hst, hfr, -⟩ := nextMultiple_spec h.step range.startNs
  have hend := (nextMultiple_spec h.step range.endNs).2.2.le
  obtain ⟨hpw, hmem⟩ := evalTimesFrom_spec h.step (hend.trans h.max)
    (nextMultiple stepNs range.startNs) (h.min.trans hfr)
  rw [evalTimes_eq h]
  refine ⟨hpw, fun time => (hmem time).trans ?_⟩
  constructor
  · rintro ⟨hdvd, hfr, hto⟩
    have ht : stepNs ∣ time := (Int.dvd_iff_dvd_of_dvd_sub hdvd).mpr hst
    exact ⟨ht, (nextMultiple_le_iff h.step ht).mp hfr,
      (le_nextMultiple_iff h.step ht).mp hto⟩
  · rintro ⟨hdvd, hfr, hto⟩
    exact ⟨Int.dvd_sub hdvd hst, (nextMultiple_le_iff h.step hdvd).mpr hfr,
      (le_nextMultiple_iff h.step hdvd).mpr hto⟩

theorem mem_evalTimes (h : GridFits range stepNs) {time : Int} :
    time ∈ evalTimes range stepNs ↔
      stepNs ∣ time ∧ range.startNs ≤ time ∧ time < range.endNs + stepNs :=
  (evalTimes_spec h).2 time

end Grid

/-! ### The windows -/

theorem saturatingSub_eq {left right : Int} (hmin : i64Min ≤ left - right)
    (hmax : left - right ≤ i64Max) : saturatingSub left right = left - right := by
  rw [i64Max] at hmax
  rw [i64Min] at hmin hmax
  rw [saturatingSub, Machine.clamp]
  omega

namespace MetricQuery

variable {query : MetricQuery} {range : TimeRange} {stepNs : Int}

/-- The bounds within which no time that the evaluation of a range uses leaves `i64`. -/
structure Fits (query : MetricQuery) (range : TimeRange) (stepNs : Int) : Prop
    extends GridFits range stepNs where
  rangeNs : 0 ≤ query.rangeNs
  scan : i64Min ≤ range.startNs - query.offsetNs - query.rangeNs
  window : range.endNs + stepNs - query.offsetNs ≤ i64Max

/-- A part of a range fits where the range does. -/
theorem Fits.of_part (h : query.Fits range stepNs) {part : TimeRange} {partStepNs : Int}
    (hs : 0 < partStepNs) (hfrom : range.startNs ≤ part.startNs) (hv : part.startNs ≤ part.endNs)
    (hto : part.endNs + partStepNs ≤ range.endNs + stepNs) : query.Fits part partStepNs := by
  obtain ⟨⟨-, -, hmin, hmax⟩, hr, hsc, hwin⟩ := h
  exact ⟨⟨hs, hv, by omega, by omega⟩, hr, by omega, by omega⟩

/-- The entries that a grid point sees: those of its window up to the end of the scan. -/
theorem windowEntries_eq (h : query.Fits range stepNs) (entries : List MatchedEntry) {time : Int}
    (hfrom : range.startNs ≤ time) (hto : time < range.endNs + stepNs) :
    query.windowEntries entries range time = entries.filter fun entry =>
      decide (time - query.offsetNs - query.rangeNs < entry.timestampNs ∧
        entry.timestampNs ≤ min time range.endNs - query.offsetNs) := by
  obtain ⟨⟨hs, hv, hmin, hmax⟩, hr, hsc, hwin⟩ := h
  have hbef : ∀ point, range.startNs ≤ point → point ≤ range.endNs + stepNs →
      saturatingSub point query.offsetNs = point - query.offsetNs ∧
        saturatingSub (point - query.offsetNs) query.rangeNs =
          point - query.offsetNs - query.rangeNs := fun point _ _ =>
    ⟨saturatingSub_eq (by omega) (by omega), saturatingSub_eq (by omega) (by omega)⟩
  obtain ⟨ht, hti⟩ := hbef time hfrom hto.le
  obtain ⟨hst, hsta⟩ := hbef range.startNs le_rfl (by omega)
  obtain ⟨hend, -⟩ := hbef range.endNs hv (by omega)
  rw [windowEntries, filter_filter]
  refine filter_congr fun entry _ => ?_
  simp only [inWindow, scanRange, TimeRange.covers, ht, hti, hst, hsta, hend]
  rw [Bool.eq_iff_iff]
  simp only [Bool.and_eq_true, Bool.not_eq_true', decide_eq_true_eq, decide_eq_false_iff_not]
  omega

/-! ### The samples -/

variable {entries : List MatchedEntry} {labels : Labels}

theorem mem_matrix {time : Int} {value : ℚ} :
    (time, value) ∈ query.matrix entries range stepNs labels ↔
      time ∈ evalTimes range stepNs ∧
        query.value (query.windowEntries entries range time) labels = some value := by
  simp only [matrix, mem_filterMap, Option.map_eq_some_iff, Prod.mk.injEq]
  constructor
  · rintro ⟨_, ht, _, hval, rfl, rfl⟩
    exact ⟨ht, hval⟩
  · rintro ⟨ht, hval⟩
    exact ⟨time, ht, value, hval, rfl, rfl⟩

/-- A matrix has its samples in the strict order of their times. -/
theorem pairwise_matrix (h : GridFits range stepNs) (entries : List MatchedEntry)
    (labels : Labels) :
    (query.matrix entries range stepNs labels).Pairwise fun a b => a.1 < b.1 := by
  refine List.Pairwise.filterMap _ ?_ (evalTimes_spec h).1
  intro time time' hlt sample hsam sample' hsam'
  obtain ⟨_, -, rfl⟩ := Option.map_eq_some_iff.mp hsam
  obtain ⟨_, -, rfl⟩ := Option.map_eq_some_iff.mp hsam'
  exact hlt

variable {results : List Matrix}

theorem mem_mergeFrontendResults {sample : Int × ℚ} :
    sample ∈ mergeFrontendResults results labels ↔ ∃ result ∈ results, sample ∈ result labels := by
  rw [mergeFrontendResults, normalizeMergedSeries, Collections.mem_dedupAdjacent,
    mem_insertionSort, mem_flatMap]

/-- Matrices whose samples are those of one matrix merge to it. -/
theorem mergeFrontendResults_eq {whole : Matrix}
    (hwhole : ∀ labels, (whole labels).Pairwise fun a b => a.1 < b.1)
    (hmem : ∀ labels sample, (∃ result ∈ results, sample ∈ result labels) ↔
      sample ∈ whole labels) : mergeFrontendResults results = whole := by
  funext labels
  refine Collections.eq_of_pairwise_key_lt ?_ (hwhole labels) fun sample =>
    mem_mergeFrontendResults.trans (hmem labels sample)
  refine Collections.pairwise_dedupAdjacent (Collections.pairwise_insertionSort_key Prod.fst _) ?_
  have hin : ∀ sample, sample ∈ (results.flatMap fun result => result labels).insertionSort
      (fun left right => left.1 ≤ right.1) → sample ∈ whole labels := by
    intro sample hsam
    rw [mem_insertionSort, mem_flatMap] at hsam
    exact (hmem labels sample).mp hsam
  exact fun a ha b hb => Collections.eq_of_key_eq (hwhole labels) a (hin a ha) b (hin b hb)

/-! ### The answers -/

/-- The step of a range: the one given, or the length of the range. -/
def stepOf (step : Option Int) (range : TimeRange) : Int :=
  step.getD (defaultMetricRangeStep range)

theorem execute_eq (entries : List MatchedEntry) {step : Option Int} (h : 0 < stepOf step range) :
    query.execute entries step range = .ok (query.matrix entries range (stepOf step range)) :=
  if_neg (Int.not_le.mpr h)

theorem executeFrontend_eq (entries : List MatchedEntry) {step : Option Int} {splitNs : Int}
    (h : ∀ part ∈ splitRanges range splitNs, 0 < stepOf step part) :
    query.executeFrontend entries step range splitNs = .ok (mergeFrontendResults
      ((splitRanges range splitNs).map fun part =>
        query.matrix entries part (stepOf step part))) := by
  have hps : ∀ parts : List TimeRange, (∀ part ∈ parts, 0 < stepOf step part) →
      parts.mapM (query.execute entries step) = .ok (parts.map fun part =>
        query.matrix entries part (stepOf step part)) := by
    intro parts hpos
    induction parts with
    | nil => rfl
    | cons part rest ih =>
      rw [mapM_cons, execute_eq entries (hpos part mem_cons_self),
        ih fun part hp => hpos part (mem_cons_of_mem _ hp)]
      rfl
  rw [executeFrontend, hps _ h]
  rfl

/-- The split query answers like the whole one, with one sample at most for a time, whatever
the query makes of its windows and whatever the entries are. -/
def AnswersAlike (offsetNs rangeNs : Int) (step : Option Int) (range : TimeRange)
    (splitNs : Int) : Prop :=
  ∀ (value : List MatchedEntry → Labels → Option ℚ) (entries : List MatchedEntry),
    (MetricQuery.mk offsetNs rangeNs value).executeFrontend entries step range splitNs =
        (MetricQuery.mk offsetNs rangeNs value).execute entries step range ∧
      ∀ matrix, (MetricQuery.mk offsetNs rangeNs value).executeFrontend entries step range
        splitNs = .ok matrix → ∀ labels, (matrix labels).Pairwise fun a b => a.1 < b.1

/-- A boundary inside the range is a grid point, or the window of the grid point after it
starts after the end of the range. -/
def EvenBoundary (rangeNs stepNs : Int) (range : TimeRange) (boundary : Int) : Prop :=
  stepNs ∣ boundary ∨ min (nextMultiple stepNs boundary) range.endNs ≤
    nextMultiple stepNs boundary - rangeNs

/-- With a step given, every boundary inside the range is even; with none, there is no
boundary inside. -/
def EvenlySplit (rangeNs : Int) (range : TimeRange) (splitNs : Int) : Option Int → Prop
  | none => ∀ boundary, splitNs ∣ boundary → range.startNs < boundary → range.endNs ≤ boundary
  | some stepNs => stepNs ≤ 0 ∨ ∀ boundary, splitNs ∣ boundary → range.startNs < boundary →
      boundary < range.endNs → EvenBoundary rangeNs stepNs range boundary

section Answers

variable {splitNs : Int}

theorem splitRanges_of_lt (hsplit : 0 < splitNs) (hlt : range.startNs < range.endNs) :
    splitRanges range splitNs = splitFrom splitNs range.endNs range.startNs :=
  if_neg (by omega)

section

variable (h : query.Fits range stepNs)
include h

/-- A grid point of a part with an even end sees what it sees in the whole range. -/
theorem windowEntries_part {part : TimeRange}
    (hfrom : range.startNs ≤ part.startNs) (hv : part.startNs ≤ part.endNs)
    (hto : part.endNs ≤ range.endNs)
    (even : part.endNs = range.endNs ∨
      EvenBoundary query.rangeNs stepNs range part.endNs)
    (entries : List MatchedEntry) {time : Int} (ht : time ∈ evalTimes part stepNs) :
    query.windowEntries entries part time = query.windowEntries entries range time := by
  have hp : query.Fits part stepNs := h.of_part h.step hfrom hv (by omega)
  obtain ⟨hdvd, hst, hend⟩ := (mem_evalTimes hp.toGridFits).mp ht
  rw [windowEntries_eq hp entries hst hend,
    windowEntries_eq h entries (by omega) (by omega)]
  refine filter_congr fun entry _ => ?_
  rw [decide_eq_decide]
  -- only a point after the end of the part can see less there
  by_cases hin : time ≤ part.endNs ∨ part.endNs = range.endNs
  · omega
  · obtain ⟨ha, hne⟩ := not_or.mp hin
    have hpt : time = nextMultiple stepNs part.endNs := by
      refine le_antisymm ((le_nextMultiple_iff h.step hdvd).mpr hend) ?_
      exact (nextMultiple_le_iff h.step hdvd).mpr (by omega)
    rcases even.resolve_left hne with hmul | hwin
    · exact absurd (le_of_dvd_of_lt_add hdvd hmul hend) ha
    · rw [← hpt] at hwin
      omega

/-- Parts that cover the grid of the range, point by point with the same windows, merge to
the matrix of the range. -/
theorem mergeFrontendResults_parts (entries : List MatchedEntry)
    (parts : List TimeRange)
    (hp : ∀ part ∈ parts, ∀ time ∈ evalTimes part stepNs, time ∈ evalTimes range stepNs ∧
      query.windowEntries entries part time = query.windowEntries entries range time)
    (cover : ∀ time ∈ evalTimes range stepNs, ∃ part ∈ parts, time ∈ evalTimes part stepNs) :
    mergeFrontendResults (parts.map fun part => query.matrix entries part stepNs) =
      query.matrix entries range stepNs := by
  refine mergeFrontendResults_eq (pairwise_matrix h.toGridFits entries) ?_
  rintro labels ⟨time, value⟩
  constructor
  · rintro ⟨_, hres, hsam⟩
    obtain ⟨part, hin, rfl⟩ := mem_map.mp hres
    obtain ⟨ht, hval⟩ := mem_matrix.mp hsam
    obtain ⟨hwh, hsm⟩ := hp part hin time ht
    exact mem_matrix.mpr ⟨hwh, hsm ▸ hval⟩
  · intro hsam
    obtain ⟨ht, hval⟩ := mem_matrix.mp hsam
    obtain ⟨part, hin, hpt⟩ := cover time ht
    refine ⟨_, mem_map_of_mem hin, mem_matrix.mpr ⟨hpt, ?_⟩⟩
    rw [(hp part hin time hpt).2]
    exact hval

/-- With one part there is nothing to merge. -/
theorem merge_whole (entries : List MatchedEntry) :
    mergeFrontendResults [query.matrix entries range stepNs] =
      query.matrix entries range stepNs :=
  mergeFrontendResults_parts h entries [range]
    (fun part hin time ht => by
      rw [mem_singleton.mp hin] at ht ⊢
      exact ⟨ht, rfl⟩)
    fun _ ht => ⟨range, mem_singleton_self _, ht⟩

theorem merge_evenly_split (hsplit : 0 < splitNs)
    (hlt : range.startNs < range.endNs)
    (even : ∀ boundary, splitNs ∣ boundary → range.startNs < boundary →
      boundary < range.endNs → EvenBoundary query.rangeNs stepNs range boundary)
    (entries : List MatchedEntry) :
    mergeFrontendResults ((splitRanges range splitNs).map fun part =>
      query.matrix entries part stepNs) = query.matrix entries range stepNs := by
  rw [splitRanges_of_lt hsplit hlt]
  refine mergeFrontendResults_parts h entries _ ?_ ?_
  · intro part hin time ht
    obtain ⟨hfr, hv, hto, hend⟩ := part_of_mem_splitFrom hsplit part hin
    have hp : query.Fits part stepNs := h.of_part h.step hfr hv.le (by omega)
    obtain ⟨hdvd, hst, hbef⟩ := (mem_evalTimes hp.toGridFits).mp ht
    refine ⟨(mem_evalTimes h.toGridFits).mpr ⟨hdvd, by omega, by omega⟩,
      windowEntries_part h hfr hv.le hto ?_ entries ht⟩
    rcases hto.eq_or_lt with heq | hbef
    · exact .inl heq
    · exact .inr (even _ (hend.resolve_right hbef.ne) (by omega) hbef)
  · intro time ht
    obtain ⟨hdvd, hst, hbef⟩ := (mem_evalTimes h.toGridFits).mp ht
    obtain ⟨part, hin, hfr, hto⟩ := exists_part_of_le hsplit hlt hst
    obtain ⟨hpa, hv, hpar, -⟩ := part_of_mem_splitFrom hsplit part hin
    have hs := h.step
    have hp : query.Fits part stepNs := h.of_part hs hpa hv.le (by omega)
    refine ⟨part, hin, (mem_evalTimes hp.toGridFits).mpr ⟨hdvd, hfr, ?_⟩⟩
    rcases hto with hto | hto <;> omega

/-! ### Where the answers differ -/

end

/-- `absent_over_time`: a sample where a window has no entry. -/
def absentOverTime (offsetNs rangeNs : Int) : MetricQuery where
  offsetNs := offsetNs
  rangeNs := rangeNs
  value entries labels := if entries.isEmpty ∧ labels = [] then some 1 else none

variable {offsetNs rangeNs : Int}

theorem mem_matrix_absentOverTime {time : Int} :
    (time, 1) ∈ (absentOverTime offsetNs rangeNs).matrix entries range stepNs [] ↔
      time ∈ evalTimes range stepNs ∧
        (absentOverTime offsetNs rangeNs).windowEntries entries range time = [] := by
  rw [mem_matrix]
  simp [absentOverTime, List.isEmpty_iff]

/-- The point after an uneven boundary is absent for the part before the boundary, which does
not scan the entry that is in the point's window. -/
theorem merge_ne_of_uneven (h : (absentOverTime offsetNs rangeNs).Fits range stepNs)
    (hsplit : 0 < splitNs) {boundary : Int} (hdvd : splitNs ∣ boundary)
      (ha : range.startNs < boundary)
    (hbef : boundary < range.endNs) (uneven : ¬ EvenBoundary rangeNs stepNs range boundary) :
    ∃ entries, mergeFrontendResults ((splitRanges range splitNs).map fun part =>
        (absentOverTime offsetNs rangeNs).matrix entries part stepNs) ≠
      (absentOverTime offsetNs rangeNs).matrix entries range stepNs := by
  obtain ⟨hno, hwin⟩ := not_or.mp uneven
  obtain ⟨hpo, hle, hlt⟩ := nextMultiple_spec h.step boundary
  have hpt : boundary < nextMultiple stepNs boundary :=
    lt_of_le_of_ne hle fun heq => hno (heq ▸ hpo)
  obtain ⟨part, hin, hend⟩ := exists_part_of_boundary hsplit hdvd ha hbef
  obtain ⟨hfr, hv, hto, -⟩ := part_of_mem_splitFrom hsplit part hin
  have hp := h.of_part h.step hfr hv.le (by omega)
  set point := nextMultiple stepNs boundary with hpointE
  let entry : MatchedEntry := ⟨min point range.endNs - offsetNs, [], "", none⟩
  refine ⟨[entry], fun hsm => ?_⟩
  have hoff : (absentOverTime offsetNs rangeNs).offsetNs = offsetNs := rfl
  have hr : (absentOverTime offsetNs rangeNs).rangeNs = rangeNs := rfl
  have hpa : point ∈ evalTimes part stepNs :=
    (mem_evalTimes hp.toGridFits).mpr ⟨hpo, by omega, by omega⟩
  have hmrg : (point, (1 : ℚ)) ∈ mergeFrontendResults ((splitRanges range splitNs).map
      fun part => (absentOverTime offsetNs rangeNs).matrix [entry] part stepNs) [] := by
    rw [splitRanges_of_lt hsplit (ha.trans hbef)]
    refine mem_mergeFrontendResults.mpr ⟨_, mem_map_of_mem hin,
      mem_matrix_absentOverTime.mpr ⟨hpa, ?_⟩⟩
    rw [windowEntries_eq hp _ (by omega) (by omega), hoff, hr]
    refine filter_eq_nil_iff.mpr fun x hx => ?_
    rw [mem_singleton.mp hx, decide_eq_true_eq]
    change ¬ (_ < min point range.endNs - offsetNs ∧ min point range.endNs - offsetNs ≤ _)
    omega
  rw [hsm] at hmrg
  have hem := (mem_matrix_absentOverTime.mp hmrg).2
  rw [windowEntries_eq h _ (by omega) (by omega), hoff, hr] at hem
  have hnot := filter_eq_nil_iff.mp hem entry (mem_singleton_self _)
  rw [decide_eq_true_eq] at hnot
  refine hnot ⟨?_, le_rfl⟩
  change _ < min point range.endNs - offsetNs
  omega

theorem defaultMetricRangeStep_eq (hlt : range.startNs < range.endNs)
    (hmax : range.endNs - range.startNs ≤ i64Max) :
    defaultMetricRangeStep range = range.endNs - range.startNs := by
  have hmin : i64Min ≤ range.endNs - range.startNs := by
    rw [i64Min]
    omega
  rw [defaultMetricRangeStep, saturatingSub_eq hmin hmax, max_eq_left (by omega)]

/-- Without a step the first part has two points that are closer than those of the range. -/
theorem merge_ne_of_default_step
    (h : (absentOverTime offsetNs rangeNs).Fits range (range.endNs - range.startNs))
    (hmax : range.endNs - range.startNs ≤ i64Max) (hsplit : 0 < splitNs) {boundary : Int}
    (hdvd : splitNs ∣ boundary) (ha : range.startNs < boundary) (hbef : boundary < range.endNs) :
    mergeFrontendResults ((splitRanges range splitNs).map fun part =>
        (absentOverTime offsetNs rangeNs).matrix [] part (defaultMetricRangeStep part)) ≠
      (absentOverTime offsetNs rangeNs).matrix [] range (range.endNs - range.startNs) := by
  have hlt := ha.trans hbef
  have hn := Int.lt_ediv_add_one_mul_self range.startNs hsplit
  have hst := nextBoundary_le hsplit hdvd ha
  have hin : (⟨range.startNs, (range.startNs / splitNs + 1) * splitNs⟩ : TimeRange) ∈
      splitRanges range splitNs := by
    rw [splitRanges_of_lt hsplit hlt, splitFrom_of_lt hsplit hlt, min_eq_left (by omega)]
    exact mem_cons_self
  set stop := (range.startNs / splitNs + 1) * splitNs
  have hs : defaultMetricRangeStep ⟨range.startNs, stop⟩ = stop - range.startNs :=
    defaultMetricRangeStep_eq hn (by change stop - range.startNs ≤ _; omega)
  have hlen : 0 < stop - range.startNs := by omega
  have hp : (absentOverTime offsetNs rangeNs).Fits ⟨range.startNs, stop⟩
      (stop - range.startNs) :=
    h.of_part hlen le_rfl hn.le (by change stop + _ ≤ _; omega)
  intro hsm
  have hpt : ∀ time, stop - range.startNs ∣ time → range.startNs ≤ time →
      time < stop + (stop - range.startNs) → range.endNs - range.startNs ∣ time := by
    intro time ht hfr hto
    have hmrg : (time, (1 : ℚ)) ∈ mergeFrontendResults ((splitRanges range splitNs).map
        fun part => (absentOverTime offsetNs rangeNs).matrix [] part
          (defaultMetricRangeStep part)) [] := by
      refine mem_mergeFrontendResults.mpr ⟨_, mem_map_of_mem hin,
        mem_matrix_absentOverTime.mpr ⟨?_, rfl⟩⟩
      rw [hs]
      exact (mem_evalTimes hp.toGridFits).mpr ⟨ht, hfr, hto⟩
    rw [hsm] at hmrg
    exact ((mem_evalTimes h.toGridFits).mp (mem_matrix_absentOverTime.mp hmrg).1).1
  obtain ⟨hfi, hf, hfirstT⟩ := nextMultiple_spec hlen range.startNs
  set first := nextMultiple (stop - range.startNs) range.startNs
  have hone := hpt first hfi hf (by omega)
  have htwo := hpt (first + (stop - range.startNs))
    (Int.dvd_add hfi (Int.dvd_refl _)) (by omega) (by omega)
  have hcl := Int.le_of_dvd hlen ((Int.dvd_add_right hone).mp htwo)
  omega

/-! ### The condition -/

/-- No time that the whole query uses leaves `i64`. -/
structure FitsI64 (offsetNs rangeNs : Int) (step : Option Int) (range : TimeRange) : Prop where
  valid : range.startNs ≤ range.endNs
  duration : 0 ≤ rangeNs
  start : i64Min ≤ range.startNs
  length : range.endNs - range.startNs ≤ i64Max
  grid : range.endNs + stepOf step range ≤ i64Max
  scan : i64Min ≤ range.startNs - offsetNs - rangeNs
  window : range.endNs + stepOf step range - offsetNs ≤ i64Max

variable {step : Option Int}

theorem FitsI64.fits (h : FitsI64 offsetNs rangeNs step range) (hs : 0 < stepOf step range)
    (value : List MatchedEntry → Labels → Option ℚ) :
    (MetricQuery.mk offsetNs rangeNs value).Fits range (stepOf step range) :=
  ⟨⟨hs, h.valid, h.start, h.grid⟩, h.duration, h.scan, h.window⟩

theorem stepOf_none_pos (range : TimeRange) : 0 < stepOf none range :=
  Int.lt_of_lt_of_le Int.one_pos (le_max_right _ _)

/-- A merge of matrices that is the matrix of the range is an answer alike. -/
theorem answersAlike_of_merge (h : FitsI64 offsetNs rangeNs step range) (hs : 0 < stepOf step range)
    (parts : ∀ part ∈ splitRanges range splitNs, 0 < stepOf step part)
    (merge : ∀ value entries, mergeFrontendResults ((splitRanges range splitNs).map fun part =>
        (MetricQuery.mk offsetNs rangeNs value).matrix entries part (stepOf step part)) =
      (MetricQuery.mk offsetNs rangeNs value).matrix entries range (stepOf step range)) :
    AnswersAlike offsetNs rangeNs step range splitNs := by
  intro value entries
  rw [executeFrontend_eq entries parts, execute_eq entries hs, merge value entries]
  refine ⟨rfl, fun matrix hma labels => ?_⟩
  rw [← Except.ok.inj hma]
  exact pairwise_matrix (h.fits hs value).toGridFits entries labels

/-- Answers alike have one matrix. -/
theorem AnswersAlike.merge (h : AnswersAlike offsetNs rangeNs step range splitNs)
    (hs : 0 < stepOf step range) (parts : ∀ part ∈ splitRanges range splitNs, 0 < stepOf step part)
    (entries : List MatchedEntry) :
    mergeFrontendResults ((splitRanges range splitNs).map fun part =>
        (absentOverTime offsetNs rangeNs).matrix entries part (stepOf step part)) =
      (absentOverTime offsetNs rangeNs).matrix entries range (stepOf step range) := by
  have hal := (h (absentOverTime offsetNs rangeNs).value entries).1
  rw [executeFrontend_eq entries parts, execute_eq entries hs] at hal
  exact Except.ok.inj hal

/-- A step that is not positive fails both ways. -/
theorem answersAlike_of_invalid_step {stepNs : Int} (hs : stepNs ≤ 0) (hsplit : 0 < splitNs)
    (hv : range.startNs ≤ range.endNs) :
    AnswersAlike offsetNs rangeNs (some stepNs) range splitNs := by
  have hfa : ∀ (query : MetricQuery) entries part,
      query.execute entries (some stepNs) part = .error .invalidStep :=
    fun _ _ _ => if_pos hs
  have hps : ∃ first rest, splitRanges range splitNs = first :: rest := by
    rcases hv.eq_or_lt with heq | hlt
    · exact ⟨range, [], if_pos (.inl heq)⟩
    · exact ⟨_, _, (splitRanges_of_lt hsplit hlt).trans (splitFrom_of_lt hsplit hlt)⟩
  intro value entries
  obtain ⟨first, rest, hcn⟩ := hps
  have hfr : (MetricQuery.mk offsetNs rangeNs value).executeFrontend entries (some stepNs)
      range splitNs = .error .invalidStep := by
    rw [executeFrontend, hcn, mapM_cons, hfa]
    rfl
  rw [hfr, hfa]
  refine ⟨rfl, fun matrix hma => ?_⟩
  cases hma

theorem splitRanges_of_no_boundary (hsplit : 0 < splitNs) (hv : range.startNs ≤ range.endNs)
    (hnone : ∀ boundary, splitNs ∣ boundary → range.startNs < boundary →
      range.endNs ≤ boundary) : splitRanges range splitNs = [range] := by
  rcases hv.eq_or_lt with heq | hlt
  · exact if_pos (.inl heq)
  · have hend := hnone _ (Int.dvd_mul_left _ _)
      (Int.lt_ediv_add_one_mul_self range.startNs hsplit)
    rw [splitRanges_of_lt hsplit hlt, splitFrom_of_lt hsplit hlt, min_eq_right hend,
      splitFrom_of_le le_rfl]

/-- A split metric query answers like the whole one, for every evaluation of windows and all
entries, exactly when the range is evenly split. -/
theorem split_answers_alike_iff {offsetNs rangeNs : Int} {step : Option Int}
    (hsplit : 0 < splitNs) (h : FitsI64 offsetNs rangeNs step range) :
    AnswersAlike offsetNs rangeNs step range splitNs ↔
      EvenlySplit rangeNs range splitNs step := by
  cases step with
  | none =>
    have hstep := stepOf_none_pos range
    have hparts : ∀ part ∈ splitRanges range splitNs, 0 < stepOf none part :=
      fun part _ => stepOf_none_pos part
    constructor
    · intro halike boundary hdvd hafter
      by_contra hbefore
      have hlt := hafter.trans (Int.not_le.mp hbefore)
      have hmerge := halike.merge hstep hparts []
      have hfits := h.fits hstep (absentOverTime offsetNs rangeNs).value
      have hlength : stepOf none range = range.endNs - range.startNs :=
        defaultMetricRangeStep_eq hlt h.length
      rw [hlength] at hmerge hfits
      exact merge_ne_of_default_step hfits h.length hsplit hdvd hafter (Int.not_le.mp hbefore)
        hmerge
    · intro hnone
      refine answersAlike_of_merge h hstep hparts fun value entries => ?_
      rw [splitRanges_of_no_boundary hsplit h.valid hnone]
      exact merge_whole (h.fits hstep value) entries
  | some stepNs =>
    by_cases hstep : 0 < stepNs
    swap
    · have hinvalid := Int.not_lt.mp hstep
      exact ⟨fun _ => .inl hinvalid,
        fun _ => answersAlike_of_invalid_step hinvalid hsplit h.valid⟩
    have hparts : ∀ part ∈ splitRanges range splitNs, 0 < stepOf (some stepNs) part :=
      fun _ _ => hstep
    constructor
    · intro halike
      refine .inr fun boundary hdvd hafter hbefore => ?_
      by_contra huneven
      obtain ⟨entries, hne⟩ := merge_ne_of_uneven
        (h.fits hstep (absentOverTime offsetNs rangeNs).value) hsplit hdvd hafter hbefore huneven
      exact hne (halike.merge hstep hparts entries)
    · intro heven
      have hboundaries := heven.resolve_left (Int.not_le.mpr hstep)
      refine answersAlike_of_merge h hstep hparts fun value entries => ?_
      rcases h.valid.eq_or_lt with heq | hlt
      · have hsingle : splitRanges range splitNs = [range] := if_pos (.inl heq)
        rw [hsingle]
        exact merge_whole (h.fits hstep value) entries
      · exact merge_evenly_split (h.fits hstep value) hsplit hlt hboundaries entries

end Answers

/-- A step that divides the split interval. -/
theorem even_split_answers_alike : AnswersAlike 0 20 (some 10) ⟨0, 40⟩ 20 :=
  (split_answers_alike_iff (by decide)
    ⟨by decide, by decide, by decide, by decide, by decide, by decide, by decide⟩).mpr
    (.inr fun _ hdvd _ _ => .inl (Int.dvd_trans (by decide) hdvd))

/-! ### Two samples at one time -/

/-- `count_over_time` with no grouping. -/
def countOverTime (offsetNs rangeNs : Int) : MetricQuery where
  offsetNs := offsetNs
  rangeNs := rangeNs
  value entries labels :=
    let own := entries.filter fun entry => entry.metricLabels = labels
    if own.isEmpty then none else some own.length

def twoEntries : List MatchedEntry := [⟨12, [], "first", none⟩, ⟨18, [], "second", none⟩]

/-- With a step of 10 and a split interval of 15, the point 20 is counted by the part that
ends at 15, which does not scan the second entry, and by the next part. -/
theorem uneven_split_two_samples :
    ((countOverTime 0 20).executeFrontend twoEntries (some 10) ⟨0, 30⟩ 15).map (fun m => m []) =
        .ok [(20, 1), (20, 2), (30, 2)] ∧
      ((countOverTime 0 20).execute twoEntries (some 10) ⟨0, 30⟩).map (fun m => m []) =
        .ok [(20, 2), (30, 2)] := by
  decide +kernel

end MetricQuery

end KrabkaO11y.Observability
