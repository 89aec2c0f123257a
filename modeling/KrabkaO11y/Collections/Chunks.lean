import Mathlib.Data.List.Basic

/-!
A list cut into consecutive parts of one size.
-/

namespace KrabkaO11y.Collections

open List

variable {α : Type} {size : Nat}

/-- As many rounds as there are elements are enough. -/
def chunksLoop (size : Nat) : Nat → List α → List (List α)
  | 0, _ => []
  | _, [] => []
  | fuel + 1, xs => xs.take size :: chunksLoop size fuel (xs.drop size)

/-- Consecutive parts of at most `size` elements. -/
def chunks (size : Nat) (xs : List α) : List (List α) := chunksLoop size xs.length xs

/-- The parts of a list, in order, none empty and none longer than the size. -/
theorem chunksLoop_spec (positive : 0 < size) :
    ∀ (fuel : Nat) {xs : List α}, xs.length ≤ fuel → (chunksLoop size fuel xs).flatten = xs ∧
      ∀ part ∈ chunksLoop size fuel xs, part ≠ [] ∧ part.length ≤ size ∧ part.Sublist xs := by
  intro fuel
  induction fuel with
  | zero =>
    intro xs hle
    obtain rfl : xs = [] := length_eq_zero_iff.mp (Nat.le_zero.mp hle)
    exact ⟨rfl, nofun⟩
  | succ fuel ih =>
    intro xs hle
    cases xs with
    | nil => exact ⟨rfl, nofun⟩
    | cons x xs =>
      obtain ⟨hflat, hparts⟩ := @ih ((x :: xs).drop size) (by
        rw [length_drop]
        omega)
      rw [chunksLoop]
      refine ⟨?_, fun part hpart => ?_⟩
      · rw [flatten_cons, hflat, take_append_drop]
      · rcases mem_cons.mp hpart with rfl | hlater
        · refine ⟨?_, length_take_le _ _, take_sublist _ _⟩
          intro hnil
          have := congrArg List.length hnil
          rw [length_take, length_cons, length_nil] at this
          omega
        · obtain ⟨hne, hlength, hsublist⟩ := hparts part hlater
          exact ⟨hne, hlength, hsublist.trans (drop_sublist _ _)⟩
      · exact nofun

theorem chunks_spec (positive : 0 < size) (xs : List α) :
    (chunks size xs).flatten = xs ∧
      ∀ part ∈ chunks size xs, part ≠ [] ∧ part.length ≤ size ∧ part.Sublist xs :=
  chunksLoop_spec positive xs.length (Nat.le_refl _)

/-- The parts start at the multiples of the size. -/
theorem take_drop_mem_chunksLoop (positive : 0 < size) : ∀ (fuel i : Nat) {xs : List α},
    xs.length ≤ fuel → i * size < xs.length →
      (xs.drop (i * size)).take size ∈ chunksLoop size fuel xs := by
  intro fuel
  induction fuel with
  | zero => exact fun i xs hle hlt => absurd hlt (by omega)
  | succ fuel ih =>
    intro i xs hle hlt
    cases xs with
    | nil => exact absurd hlt (by simp)
    | cons x xs =>
      rw [chunksLoop]
      · cases i with
        | zero => simp
        | succ i =>
          have hdrop : (x :: xs).drop ((i + 1) * size) = ((x :: xs).drop size).drop (i * size) := by
            rw [drop_drop, Nat.succ_mul, Nat.add_comm]
          rw [hdrop]
          rw [Nat.succ_mul] at hlt
          exact mem_cons_of_mem _ (ih i (by rw [length_drop]; omega) (by rw [length_drop]; omega))
      · exact nofun

theorem take_drop_mem_chunks (positive : 0 < size) {xs : List α} {i : Nat}
    (hlt : i * size < xs.length) : (xs.drop (i * size)).take size ∈ chunks size xs :=
  take_drop_mem_chunksLoop positive xs.length i (Nat.le_refl _) hlt

end KrabkaO11y.Collections
