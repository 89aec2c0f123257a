import Mathlib

/-!
Tables of distinct elements in which an element is found or appended, and named by its place.

A table only grows at its end, so a place once handed out names its element for good.
-/

namespace KrabkaO11y.Collections

open List

variable {α : Type*} [DecidableEq α]

/-- The place of an element and the table with it. -/
def intern (x : α) (table : List α) : Nat × List α :=
  if x ∈ table then (table.idxOf x, table) else (table.length, table ++ [x])

/-- The places of some elements, in order, and the table with all of them. -/
def internAll : List α → List α → List Nat × List α
  | [], table => ([], table)
  | x :: xs, table =>
    let first := intern x table
    let rest := internAll xs first.2
    (first.1 :: rest.1, rest.2)

theorem prefix_intern (x : α) (table : List α) : table <+: (intern x table).2 := by
  rw [intern]
  split
  · exact prefix_rfl
  · exact prefix_append _ _

theorem getElem?_intern (x : α) (table : List α) :
    (intern x table).2[(intern x table).1]? = some x := by
  rw [intern]
  split
  · rename_i hmem
    rw [getElem?_eq_getElem (idxOf_lt_length_of_mem hmem), getElem_idxOf]
  · exact getElem?_concat_length

omit [DecidableEq α] in
/-- A place of a table is a place of a longer one. -/
theorem getElem?_extend {table table' : List α} (h : table <+: table') {i : Nat} {x : α}
    (hx : table[i]? = some x) : table'[i]? = some x := by
  obtain ⟨rest, rfl⟩ := h
  obtain ⟨hlt, -⟩ := List.getElem?_eq_some_iff.mp hx
  rw [getElem?_append_left hlt, hx]

/-- What a table holds after interning was there or is the new element. -/
theorem mem_intern {x y : α} {table : List α} (h : y ∈ (intern x table).2) : y ∈ table ∨ y = x := by
  rw [intern] at h
  split at h
  · exact .inl h
  · exact (mem_append.mp h).imp_right mem_singleton.mp

variable {xs : List α}

theorem prefix_internAll : ∀ {table : List α}, table <+: (internAll xs table).2 := by
  induction xs with
  | nil => exact prefix_rfl
  | cons x xs ih => exact (prefix_intern x _).trans ih

theorem mem_internAll {y : α} : ∀ {table : List α},
    y ∈ (internAll xs table).2 → y ∈ table ∨ y ∈ xs := by
  induction xs with
  | nil => exact .inl
  | cons x xs ih =>
    intro table h
    rcases ih h with hr | hmem
    · rcases mem_intern hr with hold | rfl
      · exact .inl hold
      · exact .inr mem_cons_self
    · exact .inr (mem_cons_of_mem _ hmem)

/-- Every element has a place. -/
theorem getElem?_internAll {x : α} : ∀ {table : List α} {i : Nat}, xs[i]? = some x →
    ∃ place, (internAll xs table).1[i]? = some place ∧
      (internAll xs table).2[place]? = some x := by
  induction xs with
  | nil => exact fun h => absurd h nofun
  | cons y xs ih =>
    intro table i h
    cases i with
    | zero =>
      obtain rfl := Option.some.inj h
      refine ⟨(intern y table).1, rfl, ?_⟩
      exact getElem?_extend (@prefix_internAll _ _ xs (intern y table).2)
        (getElem?_intern y table)
    | succ i => exact ih h

end KrabkaO11y.Collections
