import Mathlib

/-!
The overlap window of the verified crate (`crates/verified/src/overlap.rs`).

A block list keeps the starts of its blocks sorted and, beside them, the running
maximum of their ends. `overlapWindow` finds by two binary searches the half-open
span of that order which can hold a block meeting a query range. The upper bound
is exact; the lower one is conservative, so a caller still tests each block.
-/

namespace KrabkaO11y.Verified

/-- Half-open slice bounds for blocks that may overlap a query time range. -/
structure OverlapWindow where
  start : Nat
  stop : Nat
deriving DecidableEq, Repr

/-- One `while lower < upper` search of the source: `goRight` says whether the
answer lies past the middle. The fuel is the width of the initial interval. -/
def bisect (goRight : Nat → Bool) : Nat → Nat → Nat → Nat
  | 0, lower, _ => lower
  | fuel + 1, lower, upper =>
    if lower < upper then
      let middle := lower + (upper - lower) / 2
      if goRight middle then bisect goRight fuel (middle + 1) upper
      else bisect goRight fuel lower middle
    else lower

/-- The half-open window that can overlap `[minTs, maxTs]`. -/
def overlapWindow (starts prefixEnds : List Int64) (minTs maxTs : Int64) : OverlapWindow :=
  let hi := bisect (fun i => decide (starts.getD i 0 ≤ maxTs)) starts.length 0 starts.length
  let lo := bisect (fun i => decide (prefixEnds.getD i 0 < minTs)) hi 0 hi
  ⟨lo, hi⟩

/-- The loop invariant of a search, carried to its result: everything below the
answer goes right, everything from it on does not. -/
theorem bisect_spec {goRight : Nat → Bool} {total : Nat}
    (mono : ∀ i j, i ≤ j → j < total → goRight j = true → goRight i = true) :
    ∀ {fuel lower upper : Nat}, upper - lower ≤ fuel → lower ≤ upper → upper ≤ total →
      (∀ i < lower, goRight i = true) →
      (∀ i, upper ≤ i → i < total → goRight i = false) →
      bisect goRight fuel lower upper ≤ total ∧
        (∀ i < bisect goRight fuel lower upper, goRight i = true) ∧
        ∀ i, bisect goRight fuel lower upper ≤ i → i < total → goRight i = false := by
  intro fuel
  induction fuel with
  | zero =>
    intro lower upper hfu hle htot below above
    have heq : lower = upper := by omega
    subst heq
    exact ⟨htot, below, above⟩
  | succ fuel ih =>
    intro lower upper hfu hle htot below above
    unfold bisect
    split
    · rename_i hlt
      dsimp only
      split
      · rename_i hr
        refine ih (by omega) (by omega) htot ?_ above
        intro i hi
        exact mono i (lower + (upper - lower) / 2) (by omega) (by omega) hr
      · rename_i hlf
        refine ih (by omega) (by omega) (by omega) below ?_
        intro i hi hit
        by_contra hgo
        exact hlf (mono _ i hi hit (by simpa using hgo))
    · have heq : lower = upper := by omega
      subst heq
      exact ⟨htot, below, above⟩

/-- A whole search over a monotone test finds where the test turns false. -/
theorem bisect_full (goRight : Nat → Bool) (total : Nat)
    (mono : ∀ i j, i ≤ j → j < total → goRight j = true → goRight i = true) :
    bisect goRight total 0 total ≤ total ∧
      (∀ i < bisect goRight total 0 total, goRight i = true) ∧
      ∀ i, bisect goRight total 0 total ≤ i → i < total → goRight i = false :=
  bisect_spec mono (by omega) (Nat.zero_le _) (Nat.le_refl _) (fun i hi => absurd hi (by omega))
    (fun i hi hit => absurd hit (by omega))

section Window

variable {starts prefixEnds : List Int64}

/-- What the two searches establish when both lists are sorted: blocks before the
window end before the range, blocks after it start after the range. -/
theorem overlapWindow_spec (hlen : prefixEnds.length = starts.length)
    (hstarts : starts.Pairwise (· ≤ ·)) (ends : prefixEnds.Pairwise (· ≤ ·)) (minTs maxTs : Int64) :
    (overlapWindow starts prefixEnds minTs maxTs).start ≤
        (overlapWindow starts prefixEnds minTs maxTs).stop ∧
      (overlapWindow starts prefixEnds minTs maxTs).stop ≤ starts.length ∧
      (∀ i < (overlapWindow starts prefixEnds minTs maxTs).start,
        prefixEnds.getD i 0 < minTs) ∧
      ∀ i, (overlapWindow starts prefixEnds minTs maxTs).stop ≤ i → i < starts.length →
        maxTs < starts.getD i 0 := by
  have sorted_getD : ∀ (xs : List Int64), xs.Pairwise (· ≤ ·) → ∀ i j, i ≤ j → j < xs.length →
      xs.getD i 0 ≤ xs.getD j 0 := by
    intro xs hxs i j hij hj
    rw [List.getD_eq_getElem _ _ (by omega), List.getD_eq_getElem _ _ hj]
    rcases Nat.lt_or_eq_of_le hij with hlt | rfl
    · exact List.pairwise_iff_getElem.mp hxs i j (by omega) hj hlt
    · exact Std.le_refl _
  obtain ⟨hi_le, hi_below, hi_above⟩ :=
    bisect_full (fun i => decide (starts.getD i 0 ≤ maxTs)) starts.length
      (fun i j hij hj h => by
        have := sorted_getD starts hstarts i j hij hj
        simp only [decide_eq_true_eq] at h ⊢
        exact Std.le_trans this h)
  generalize hhi : bisect (fun i => decide (starts.getD i 0 ≤ maxTs)) starts.length 0
    starts.length = hi at *
  obtain ⟨lo_le, lo_below, _⟩ :=
    bisect_full (fun i => decide (prefixEnds.getD i 0 < minTs)) hi
      (fun i j hij hj h => by
        have := sorted_getD prefixEnds ends i j hij (by omega)
        simp only [decide_eq_true_eq] at h ⊢
        exact Std.lt_of_le_of_lt this h)
  have hwin : overlapWindow starts prefixEnds minTs maxTs =
      ⟨bisect (fun i => decide (prefixEnds.getD i 0 < minTs)) hi 0 hi, hi⟩ := by
    simp only [overlapWindow, hhi]
  rw [hwin]
  refine ⟨lo_le, hi_le, fun i hi' => by simpa using lo_below i hi', fun i hi' hit => ?_⟩
  have := hi_above i hi' hit
  simp only [decide_eq_false_iff_not] at this
  exact Std.not_le.mp this

end Window

end KrabkaO11y.Verified
