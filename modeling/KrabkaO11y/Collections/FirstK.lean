import Mathlib

/-!
The first `k` elements of a list in an order, and the bounded heap that selects them: a heap
of at most `k` elements that gives up its greatest holds them (`foldl_pushBounded_perm`).
-/

namespace KrabkaO11y.Collections

open List

variable {α : Type} (r : α → α → Prop) [DecidableRel r]

/-- The first `k` elements of a stable sort. -/
def firstK (k : Nat) (xs : List α) : List α := (xs.insertionSort r).take k

/-- Offers an element to a heap of at most `k`, listed with its greatest element first: a
full heap gives up that element for a smaller one. -/
def pushBounded (r : α → α → Prop) [DecidableRel r] (k : Nat) (heap : List α) (x : α) : List α :=
  if heap.length < k then heap.orderedInsert (fun a b => r b a) x
  else
    match heap with
    | [] => []
    | greatest :: rest =>
      if r greatest x then greatest :: rest else rest.orderedInsert (fun a b => r b a) x

section Bounded

variable {r} [Std.Total r] [IsTrans α r] {k : Nat} {xs : List α}

/-- Elements before all the others are the first ones. -/
theorem perm_firstK [Std.Antisymm r] {front rest : List α} (perm : xs.Perm (front ++ rest))
    (hle : ∀ a ∈ front, ∀ b ∈ rest, r a b) : front.Perm (firstK r front.length xs) := by
  have hso : (front.insertionSort r ++ rest.insertionSort r).Pairwise r := by
    refine pairwise_append.mpr ⟨pairwise_insertionSort r front,
      pairwise_insertionSort r rest, fun a ha b hb => ?_⟩
    exact hle a ((mem_insertionSort r).mp ha) b ((mem_insertionSort r).mp hb)
  have hsm : (xs.insertionSort r).Perm (front.insertionSort r ++ rest.insertionSort r) :=
    (perm_insertionSort r xs).trans (perm.trans
      ((perm_insertionSort r front).append (perm_insertionSort r rest)).symm)
  have heq := hsm.eq_of_pairwise (fun _ _ _ _ => Std.Antisymm.antisymm _ _)
    (pairwise_insertionSort r xs) hso
  rw [firstK, heq, take_left' (length_insertionSort r front)]
  exact (perm_insertionSort r front).symm

/-- What a heap holds of the elements offered so far. -/
structure HoldsFirst (r : α → α → Prop) (k : Nat) (offered heap rest : List α) : Prop where
  perm : offered.Perm (heap ++ rest)
  sorted : heap.Pairwise fun a b => r b a
  before : ∀ a ∈ heap, ∀ b ∈ rest, r a b
  bounded : heap.length ≤ k
  full : heap.length < k → rest = []

theorem HoldsFirst.push {offered heap rest : List α} (h : HoldsFirst r k offered heap rest)
    (x : α) :
    ∃ rest', HoldsFirst r k (offered ++ [x]) (pushBounded r k heap x) rest' := by
  have : Std.Total fun a b => r b a := ⟨fun a b => Std.Total.total b a⟩
  have : IsTrans α fun a b => r b a := ⟨fun a b c hab hbc => IsTrans.trans c b a hbc hab⟩
  have hin : ∀ ys : List α, (ys.orderedInsert (fun a b => r b a) x).Perm (x :: ys) :=
    perm_orderedInsert _ x
  rw [pushBounded.eq_def]
  split
  · rename_i hro
    obtain rfl := h.full hro
    refine ⟨[], ?_, h.sorted.orderedInsert x heap, by simp, ?_, fun _ => rfl⟩
    · rw [append_nil]
      exact (perm_append_singleton x offered).trans
        ((h.perm.trans (by simp)).cons x |>.trans (hin heap).symm)
    · rw [(hin heap).length_eq]
      exact hro
  · rename_i hfu
    cases heap with
    | nil =>
      have hpm := (perm_append_singleton x offered).trans (h.perm.cons x)
      exact ⟨x :: rest, hpm, .nil, by simp, Nat.zero_le k, fun hk => absurd hk hfu⟩
    | cons greatest heap =>
      obtain ⟨hgr, hso⟩ := pairwise_cons.mp h.sorted
      have hlen : (greatest :: heap).length = k := le_antisymm h.bounded (not_lt.mp hfu)
      dsimp only
      split
      · rename_i hle
        refine ⟨x :: rest, ?_, h.sorted, fun a ha b hb => ?_, h.bounded, fun hk => absurd hk hfu⟩
        · exact (perm_append_singleton x offered).trans
            ((h.perm.cons x).trans perm_middle.symm)
        · rcases mem_cons.mp hb with rfl | hb
          · rcases mem_cons.mp ha with rfl | ha
            · exact hle
            · exact IsTrans.trans a greatest b (hgr a ha) hle
          · exact h.before a ha b hb
      · rename_i hnot
        have hx : r x greatest := (Std.Total.total x greatest).resolve_right hnot
        have hlen' : (heap.orderedInsert (fun a b => r b a) x).length = k := by
          rw [(hin heap).length_eq]
          exact hlen
        refine ⟨greatest :: rest, ?_, hso.orderedInsert x heap, fun a ha b hb => ?_, hlen'.le,
          fun hk => absurd hk (by omega)⟩
        · refine (perm_append_singleton x offered).trans ((h.perm.cons x).trans ?_)
          exact ((perm_middle.symm).cons x).trans (((hin heap).symm).append_right _)
        · have hbef : r a greatest ∧ ∀ b ∈ rest, r a b := by
            rcases mem_cons.mp ((hin heap).mem_iff.mp ha) with rfl | ha
            · exact ⟨hx, fun b hb => IsTrans.trans a greatest b hx
                (h.before greatest mem_cons_self b hb)⟩
            · exact ⟨hgr a ha, h.before a (mem_cons_of_mem _ ha)⟩
          rcases mem_cons.mp hb with rfl | hb
          · exact hbef.1
          · exact hbef.2 b hb

/-- A heap that was offered every element holds the first `k`. -/
theorem foldl_pushBounded_perm [Std.Antisymm r] (k : Nat) (xs : List α) :
    (xs.foldl (pushBounded r k) []).Perm (firstK r k xs) := by
  have hfo : ∀ (xs offered heap rest : List α), HoldsFirst r k offered heap rest →
      ∃ rest', HoldsFirst r k (offered ++ xs) (xs.foldl (pushBounded r k) heap) rest' := by
    intro xs
    induction xs with
    | nil =>
      intro offered heap rest h
      rw [append_nil]
      exact ⟨rest, h⟩
    | cons x xs ih =>
      intro offered heap rest h
      obtain ⟨rest', h'⟩ := h.push x
      rw [append_cons]
      exact ih _ _ rest' h'
  obtain ⟨rest, h⟩ := hfo xs [] [] [] ⟨.nil, .nil, by simp, Nat.zero_le k, fun _ => rfl⟩
  rw [nil_append] at h
  refine (perm_firstK h.perm h.before).trans (.of_eq ?_)
  rcases h.bounded.lt_or_eq with hlt | heq
  · -- a heap with room left has taken everything
    obtain rfl := h.full hlt
    have hlen : (xs.insertionSort r).length = (xs.foldl (pushBounded r k) []).length := by
      rw [length_insertionSort, h.perm.length_eq, append_nil]
    rw [firstK, firstK, take_of_length_le hlen.le, take_of_length_le (by omega)]
  · rw [heq]

end Bounded

end KrabkaO11y.Collections
