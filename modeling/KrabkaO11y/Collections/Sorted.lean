import Mathlib

/-!
Lists sorted by a key: `dedup` of a vector, and when it leaves each key once.
-/

namespace KrabkaO11y.Collections

open List

variable {α κ : Type} [DecidableEq α] [LinearOrder κ]

/-- Drops every element that equals the one before it. -/
def dedupAdjacent : List α → List α
  | [] => []
  | [a] => [a]
  | a :: b :: rest => if a = b then dedupAdjacent (b :: rest) else a :: dedupAdjacent (b :: rest)

variable {xs : List α}

theorem mem_dedupAdjacent {x : α} : x ∈ dedupAdjacent xs ↔ x ∈ xs := by
  induction xs using dedupAdjacent.induct with
  | case1 => rfl
  | case2 a => rfl
  | case3 a rest ih =>
    rw [dedupAdjacent, if_pos rfl, ih]
    simp
  | case4 a b rest hne ih =>
    rw [dedupAdjacent, if_neg hne, mem_cons, ih, ← mem_cons]

variable {key : α → κ}

/-- Where a key has one element at most, a sorted list has each key once after its
duplicates are dropped. -/
theorem pairwise_dedupAdjacent (sorted : xs.Pairwise fun a b => key a ≤ key b)
    (hkey : ∀ a ∈ xs, ∀ b ∈ xs, key a = key b → a = b) :
    (dedupAdjacent xs).Pairwise fun a b => key a < key b := by
  induction xs using dedupAdjacent.induct with
  | case1 => exact .nil
  | case2 a => exact pairwise_singleton _ a
  | case3 a rest ih =>
    rw [dedupAdjacent, if_pos rfl]
    exact ih sorted.of_cons fun x hx y hy =>
      hkey x (mem_cons_of_mem _ hx) y (mem_cons_of_mem _ hy)
  | case4 a b rest hne ih =>
    rw [dedupAdjacent, if_neg hne]
    obtain ⟨hf, hr⟩ := pairwise_cons.mp sorted
    refine pairwise_cons.mpr ⟨fun x hx => ?_, ih hr fun x hx y hy =>
      hkey x (mem_cons_of_mem _ hx) y (mem_cons_of_mem _ hy)⟩
    have hab : key a < key b := by
      refine lt_of_le_of_ne (hf b mem_cons_self) fun heq => hne ?_
      exact hkey a mem_cons_self b (mem_cons_of_mem _ mem_cons_self) heq
    rcases mem_cons.mp (mem_dedupAdjacent.mp hx) with rfl | hx
    · exact hab
    · exact hab.trans_le ((pairwise_cons.mp hr).1 x hx)

omit [DecidableEq α] in
/-- Two lists in the strict order of a key that have the same elements are one list. -/
theorem eq_of_pairwise_key_lt {ys : List α} (hx : xs.Pairwise fun a b => key a < key b)
    (hy : ys.Pairwise fun a b => key a < key b) (hmem : ∀ a, a ∈ xs ↔ a ∈ ys) : xs = ys := by
  have hnd : ∀ {zs : List α}, zs.Pairwise (fun a b => key a < key b) → zs.Nodup := fun h =>
    h.imp fun hlt heq => absurd (heq ▸ hlt) (lt_irrefl _)
  have hpm : xs.Perm ys := (perm_ext_iff_of_nodup (hnd hx) (hnd hy)).mpr hmem
  exact hpm.eq_of_pairwise (fun a b _ _ hab hba => (lt_asymm hab hba).elim) hx hy

omit [DecidableEq α] in
/-- In the strict order of a key each key has one element. -/
theorem eq_of_key_eq (h : xs.Pairwise fun a b => key a < key b) :
    ∀ a ∈ xs, ∀ b ∈ xs, key a = key b → a = b := by
  have hpw : xs.Pairwise fun a b => key a = key b → a = b :=
    h.imp fun hlt heq => absurd heq hlt.ne
  have : Std.Symm fun a b => key a = key b → a = b :=
    ⟨fun x y hxy heq => (hxy heq.symm).symm⟩
  exact fun a ha b hb => hpw.forall_of_forall (fun _ _ _ => rfl) ha hb

end KrabkaO11y.Collections
