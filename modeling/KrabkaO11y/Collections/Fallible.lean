import KrabkaO11y.Concurrent.Prog

/-!
Lists that a fallible function is mapped over: when every step succeeds, the result is related to
the argument element by element, and what is known of one list is known of the other.
-/

namespace KrabkaO11y.Collections

open Concurrent List

variable {ε α β γ : Type} {R : α → β → Prop} {xs : List α} {ys : List β}

/-- What a sequence of fallible steps gives, step by step. -/
theorem forall₂_of_mapM_ok {f : α → Except ε β} :
    ∀ {ys : List β}, xs.mapM f = .ok ys → List.Forall₂ (fun x y => f x = .ok y) xs ys := by
  induction xs with
  | nil =>
    intro ys h
    obtain rfl : [] = ys := Except.ok.inj h
    exact .nil
  | cons x xs ih =>
    intro ys h
    rw [mapM_cons] at h
    obtain ⟨y, hx, h⟩ := except_bind_eq_ok.mp h
    obtain ⟨rest, hxs, h⟩ := except_bind_eq_ok.mp h
    obtain rfl : y :: rest = ys := Except.ok.inj h
    exact .cons hx (ih hxs)

theorem getElem?_of_forall₂ (h : List.Forall₂ R xs ys) : ∀ {i : Nat} {x : α},
    xs[i]? = some x → ∃ y, ys[i]? = some y ∧ R x y := by
  induction h with
  | nil =>
    intro i x hx
    cases hx
  | @cons x y xs ys hxy _ ih =>
    intro i x' hx
    cases i with
    | zero =>
      cases hx
      exact ⟨y, rfl, hxy⟩
    | succ i => exact ih hx

theorem mem_of_forall₂ (h : List.Forall₂ R xs ys) {y : β} (hy : y ∈ ys) : ∃ x ∈ xs, R x y := by
  obtain ⟨i, hi⟩ := getElem?_of_mem hy
  obtain ⟨x, hx, hR⟩ := getElem?_of_forall₂ h.flip hi
  exact ⟨x, mem_of_getElem? hx, hR⟩

theorem filterMap_eq_of_forall₂ {f : α → Option γ} {g : β → Option γ}
    (h : List.Forall₂ (fun x y => g y = f x) xs ys) : ys.filterMap g = xs.filterMap f := by
  induction h with
  | nil => rfl
  | cons hxy _ ih => rw [filterMap_cons, filterMap_cons, hxy, ih]

/-! ### Steps that are all defined -/

section Checked

variable {α β σ : Type} {xs : List α}

/-- Keeps the elements that a partial test passes. -/
def filterChecked (p : α → Option Bool) : List α → Option (List α)
  | [] => some []
  | x :: xs => do
    let keep ← p x
    let kept ← filterChecked p xs
    some (if keep then x :: kept else kept)

theorem filterChecked_eq {p : α → Option Bool} {q : α → Bool} (h : ∀ x ∈ xs, p x = some (q x)) :
    filterChecked p xs = some (xs.filter q) := by
  induction xs with
  | nil => rfl
  | cons x xs ih =>
    rw [filterChecked, h x mem_cons_self, ih fun y hy => h y (mem_cons_of_mem _ hy)]
    cases hq : q x <;> simp [hq]

section Pure

variable {m : Type → Type} [Monad m] [LawfulMonad m]

theorem mapM_eq_pure_map {f : α → m β} {g : α → β} (h : ∀ x ∈ xs, f x = pure (g x)) :
    xs.mapM f = pure (xs.map g) := by
  induction xs with
  | nil => rfl
  | cons x xs ih =>
    rw [mapM_cons, h x mem_cons_self, ih fun y hy => h y (mem_cons_of_mem _ hy)]
    simp

theorem foldlM_eq_pure_foldl {f : σ → α → m σ} {g : σ → α → σ}
    (h : ∀ s, ∀ x ∈ xs, f s x = pure (g s x)) : ∀ s, xs.foldlM f s = pure (xs.foldl g s) := by
  induction xs with
  | nil => exact fun _ => rfl
  | cons x xs ih =>
    intro s
    rw [foldlM_cons, h s x mem_cons_self, foldl_cons, pure_bind]
    exact ih (fun s y hy => h s y (mem_cons_of_mem _ hy)) (g s x)

end Pure

theorem mapM_eq_some_map {f : α → Option β} {g : α → β} (h : ∀ x ∈ xs, f x = some (g x)) :
    xs.mapM f = some (xs.map g) :=
  mapM_eq_pure_map h

theorem foldlM_eq_some_foldl {f : σ → α → Option σ} {g : σ → α → σ}
    (h : ∀ s, ∀ x ∈ xs, f s x = some (g s x)) : ∀ s, xs.foldlM f s = some (xs.foldl g s) :=
  foldlM_eq_pure_foldl h

end Checked

end KrabkaO11y.Collections
