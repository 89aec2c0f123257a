import Mathlib

/-!
Ordered maps and sets: how their listings relate to sorted lists, and what folding
insertions along a list leaves under a key.
-/

open Std (ExtTreeMap ExtTreeSet)

namespace KrabkaO11y.Collections

open Std.ExtTreeMap

section Listing

variable {α : Type} [Ord α] {xs : List α}

theorem nodup_of_ordered [Std.LawfulEqOrd α] (h : xs.Pairwise fun a b => compare a b = .lt) :
    xs.Nodup :=
  h.imp fun hlt heq => by
    rw [heq, Std.compare_self] at hlt
    exact absurd hlt (by simp)

variable [Std.TransOrd α] [Std.LawfulEqOrd α]

/-- Two ascending lists with the same members are one list. -/
theorem eq_of_ordered {xs ys : List α} (hx : xs.Pairwise fun a b => compare a b = .lt)
    (hy : ys.Pairwise fun a b => compare a b = .lt) (hmem : ∀ a, a ∈ xs ↔ a ∈ ys) : xs = ys := by
  have hpm : xs.Perm ys :=
    (List.perm_ext_iff_of_nodup (nodup_of_ordered hx) (nodup_of_ordered hy)).mpr hmem
  refine hpm.eq_of_pairwise (fun a b _ _ hab hba => ?_) hx hy
  exact (Std.OrientedCmp.not_lt_of_lt hab hba).elim

/-- The listing of a set is the ascending list of its members. -/
theorem toList_eq_of_ordered {s : ExtTreeSet α}
    (hx : xs.Pairwise fun a b => compare a b = .lt) (hmem : ∀ a, a ∈ xs ↔ a ∈ s) :
    s.toList = xs :=
  eq_of_ordered s.ordered_toList hx fun a => by rw [ExtTreeSet.mem_toList, hmem]

theorem nodup_toList (s : ExtTreeSet α) : s.toList.Nodup := nodup_of_ordered s.ordered_toList

variable [BEq α] [LawfulBEq α]

theorem ofList_toList (s : ExtTreeSet α) : ExtTreeSet.ofList s.toList = s :=
  ExtTreeSet.ext_mem fun a => by
    rw [ExtTreeSet.mem_ofList, List.contains_iff_mem, ExtTreeSet.mem_toList]

variable {β : Type}

theorem ofList_toList_map (m : ExtTreeMap α β) : ofList m.toList = m := by
  refine ext_getElem? fun k => ?_
  cases h : m[k]? with
  | some v =>
    exact getElem?_ofList_of_mem Std.compare_self m.distinct_keys_toList
      (mem_toList_iff_getElem?_eq_some.mpr h)
  | none =>
    refine getElem?_ofList_of_contains_eq_false ?_
    rw [map_fst_toList_eq_keys, ← Bool.not_eq_true, List.contains_iff_mem,
      mem_keys, mem_iff_isSome_getElem?, h]
    simp

omit [BEq α] [LawfulBEq α] in
theorem mem_of_getElem?_insertMany {k : α} {v : β} : ∀ (xs : List (α × β))
    (m : ExtTreeMap α β), (m.insertMany xs)[k]? = some v → m[k]? = some v ∨ (k, v) ∈ xs := by
  intro xs
  induction xs with
  | nil => intro m h; exact .inl (by simpa using h)
  | cons x xs ih =>
    intro m h
    rw [insertMany_cons] at h
    rcases ih _ h with hh | hmem
    · rw [getElem?_insert] at hh
      split at hh
      · rename_i hx
        rw [Std.compare_eq_iff_eq] at hx
        cases hh
        exact .inr (hx ▸ List.mem_cons_self)
      · exact .inl hh
    · exact .inr (List.mem_cons_of_mem x hmem)

omit [BEq α] in
/-- What is read from listed pairs is one of them. -/
theorem mem_of_getElem?_ofList {k : α} {v : β} {xs : List (α × β)}
    (h : (ofList xs)[k]? = some v) : (k, v) ∈ xs := by
  rw [ofList_eq_insertMany_empty] at h
  exact (mem_of_getElem?_insertMany xs ∅ h).resolve_left (by simp)

end Listing

section Sorting

variable {α κ : Type} [LinearOrder κ]

/-- Sorting by a key sorts. -/
theorem pairwise_mergeSort_key (key : α → κ) (xs : List α) :
    (xs.mergeSort fun a b => decide (key a ≤ key b)).Pairwise fun a b => key a ≤ key b := by
  refine (List.pairwise_mergeSort ?_ ?_ xs).imp of_decide_eq_true
  · intro a b c hab hbc
    exact decide_eq_true ((of_decide_eq_true hab).trans (of_decide_eq_true hbc))
  · intro a b
    simpa only [Bool.or_eq_true, decide_eq_true_eq] using le_total (key a) (key b)

theorem pairwise_insertionSort_key (key : α → κ) (xs : List α) :
    (xs.insertionSort fun a b => key a ≤ key b).Pairwise fun a b => key a ≤ key b := by
  have : Std.Total fun a b => key a ≤ key b := ⟨fun a b => le_total (key a) (key b)⟩
  have : IsTrans α fun a b => key a ≤ key b := ⟨fun _ _ _ => le_trans⟩
  exact List.pairwise_insertionSort _ xs

end Sorting

section Within

variable {α β : Type} [Ord α] [Std.TransOrd α] [Std.LawfulEqOrd α]

/-- Two maps that hold each other's pairs are one map. -/
theorem eq_of_within {m m' : ExtTreeMap α β}
    (h : ∀ (a : α) (b : β), m[a]? = some b → m'[a]? = some b)
    (h' : ∀ (a : α) (b : β), m'[a]? = some b → m[a]? = some b) : m = m' := by
  refine ext_getElem? fun a => ?_
  cases hlf : m[a]? with
  | some b => rw [h a b hlf]
  | none =>
    cases hr : m'[a]? with
    | none => rfl
    | some b => rw [h' a b hr] at hlf; cases hlf

variable {m' : ExtTreeMap α γ} {m : ExtTreeMap α β} {γ : Type}

/-- A map whose keys are those of another and some added ones is at most that much larger. -/
theorem size_le_of_mem {added : List α}
    (h : ∀ a ∈ m', a ∈ m ∨ a ∈ added) : m'.size ≤ m.size + added.length := by
  rw [← length_keys, ← length_keys, ← List.length_append]
  refine (nodup_keys.subperm fun a ha => ?_).length_le
  rw [List.mem_append, mem_keys]
  exact h a (mem_keys.mp ha)

theorem size_le_of_subset
    (h : ∀ a ∈ m', a ∈ m) : m'.size ≤ m.size := by
  have hsz : m'.size ≤ m.size + ([] : List α).length := size_le_of_mem fun a ha => .inl (h a ha)
  exact hsz

end Within

section Folding

variable {α β γ : Type} [Ord α] [Std.TransOrd α]

/-- Inserting along a list leaves under each key what the key's last element has. -/
theorem getElem?_foldl_insert (key : γ → α) (value : γ → β) (k : α) (xs : List γ) :
    ∀ (m : ExtTreeMap α β) (m' : ExtTreeMap α γ), m[k]? = (m'[k]?).map value →
      (xs.foldl (fun m x => m.insert (key x) (value x)) m)[k]? =
        ((xs.foldl (fun m x => m.insert (key x) x) m')[k]?).map value := by
  induction xs with
  | nil => intro m m' h; exact h
  | cons x xs ih =>
    intro m m' h
    refine ih _ _ ?_
    rw [getElem?_insert, getElem?_insert]
    split
    · rfl
    · exact h

end Folding

end KrabkaO11y.Collections
