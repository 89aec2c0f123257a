import Mathlib

/-!
Programs that call the operations of a shared object one at a time.

A `Prog` is the tree of the calls a procedure can make: each call hands its result to
the rest of the program, and a leaf is the value or the error the procedure returns.
The loops of a procedure are finite, so the tree is well founded, and what a program
does under a handler (`eval`) is a structural recursion.
-/

namespace KrabkaO11y.Concurrent

/-- What a sequence of two fallible steps that succeeded did. -/
theorem except_bind_eq_ok {ε α β : Type} {x : Except ε α} {f : α → Except ε β} {b : β} :
    x >>= f = .ok b ↔ ∃ a, x = .ok a ∧ f a = .ok b := by
  cases x with
  | ok a => exact ⟨fun h => ⟨a, rfl, h⟩, fun ⟨_, ha, h⟩ => Except.ok.inj ha ▸ h⟩
  | error e =>
    constructor
    · intro h
      cases h
    · rintro ⟨a, ha, -⟩
      cases ha

/-- A procedure over operations `Op` with results `Res`, errors `ε` and value `α`. -/
inductive Prog (Op : Type) (Res : Op → Type) (ε α : Type) where
  | done (result : Except ε α)
  | call (op : Op) (next : Res op → Prog Op Res ε α)

namespace Prog

variable {Op : Type} {Res : Op → Type} {ε α β γ σ : Type}

/-- Sequencing: an error ends the program. -/
def bind : Prog Op Res ε α → (α → Prog Op Res ε β) → Prog Op Res ε β
  | .done (.ok a), f => f a
  | .done (.error e), _ => .done (.error e)
  | .call op next, f => .call op fun r => (next r).bind f

instance : Monad (Prog Op Res ε) where
  pure a := .done (.ok a)
  bind := bind

@[simp] theorem pure_eq (a : α) : (pure a : Prog Op Res ε α) = .done (.ok a) := rfl

@[simp] theorem done_ok_bind (a : α) (f : α → Prog Op Res ε β) :
    ((.done (.ok a) : Prog Op Res ε α) >>= f) = f a := rfl

@[simp] theorem done_error_bind (e : ε) (f : α → Prog Op Res ε β) :
    ((.done (.error e) : Prog Op Res ε α) >>= f) = .done (.error e) := rfl

@[simp] theorem call_bind (op : Op) (next : Res op → Prog Op Res ε α)
    (f : α → Prog Op Res ε β) :
    ((.call op next : Prog Op Res ε α) >>= f) = .call op fun r => next r >>= f := rfl

/-- One operation, answered with its result. -/
def op (o : Op) : Prog Op Res ε (Res o) := .call o fun r => .done (.ok r)

@[simp] theorem op_bind (o : Op) (f : Res o → Prog Op Res ε α) : (op o >>= f) = .call o f := rfl

/-- Ends the program with an error. -/
def fail (e : ε) : Prog Op Res ε α := .done (.error e)

@[simp] theorem fail_bind (e : ε) (f : α → Prog Op Res ε β) :
    ((fail e : Prog Op Res ε α) >>= f) = fail e := rfl

/-- A computation that needs no operation. -/
def ofExcept (r : Except ε α) : Prog Op Res ε α := .done r

@[simp] theorem ofExcept_ok_bind (a : α) (f : α → Prog Op Res ε β) :
    ((ofExcept (.ok a) : Prog Op Res ε α) >>= f) = f a := rfl

@[simp] theorem ofExcept_error_bind (e : ε) (f : α → Prog Op Res ε β) :
    ((ofExcept (.error e) : Prog Op Res ε α) >>= f) = fail e := rfl

/-- What a program returns, and the state it leaves, when it runs alone. -/
def eval (handler : (o : Op) → σ → Res o × σ) : Prog Op Res ε α → σ → Except ε α × σ
  | .done result, s => (result, s)
  | .call o next, s => (next (handler o s).1).eval handler (handler o s).2

section Eval

variable (handler : (o : Op) → σ → Res o × σ) (s : σ)

@[simp] theorem eval_done (result : Except ε α) :
    (.done result : Prog Op Res ε α).eval handler s = (result, s) := rfl

@[simp] theorem eval_call (o : Op) (next : Res o → Prog Op Res ε α) :
    (.call o next : Prog Op Res ε α).eval handler s =
      (next (handler o s).1).eval handler (handler o s).2 := rfl

theorem eval_bind (p : Prog Op Res ε α) (f : α → Prog Op Res ε β) :
    (p >>= f).eval handler s =
      match p.eval handler s with
      | (.ok a, s') => (f a).eval handler s'
      | (.error e, s') => (.error e, s') := by
  induction p generalizing s with
  | done result => cases result <;> rfl
  | call o next ih => exact ih _ _

variable {p : Prog Op Res ε α} {f : α → Prog Op Res ε β}

theorem eval_bind_ok {a : α} {s s' : σ}
    (h : p.eval handler s = (.ok a, s')) :
    (p >>= f).eval handler s = (f a).eval handler s' := by
  rw [eval_bind, h]

/-- The program returns a value, and what it leaves satisfies `Q`. -/
def Returns (p : Prog Op Res ε α) (Q : α → σ → Prop) : Prop :=
  ∃ a s', p.eval handler s = (.ok a, s') ∧ Q a s'

variable {handler s} {Q : α → σ → Prop}

theorem returns_done {a : α} (h : Q a s) :
    Returns handler s (.done (.ok a) : Prog Op Res ε α) Q :=
  ⟨a, s, rfl, h⟩

theorem Returns.mono {Q R : α → σ → Prop} (h : Returns handler s p Q)
    (hmono : ∀ a s', Q a s' → R a s') : Returns handler s p R := by
  obtain ⟨a, s', hev, hq⟩ := h
  exact ⟨a, s', hev, hmono a s' hq⟩

theorem Returns.bind {R : β → σ → Prop}
    (h : Returns handler s p Q) (hf : ∀ a s', Q a s' → Returns handler s' (f a) R) :
    Returns handler s (p >>= f) R := by
  obtain ⟨a, s', hev, hq⟩ := h
  rw [Returns, eval_bind_ok handler hev]
  exact hf a s' hq

end Eval

section Only

/-- Every operation that the program can call satisfies `P`. -/
def Only (P : Op → Prop) : Prog Op Res ε α → Prop
  | .done _ => True
  | .call o next => P o ∧ ∀ r, (next r).Only P

variable {P : Op → Prop} {p : Prog Op Res ε α}

theorem only_bind {f : α → Prog Op Res ε β} (hp : p.Only P)
    (hf : ∀ a, (f a).Only P) : (p >>= f).Only P := by
  induction p with
  | done result =>
    cases result with
    | ok a => exact hf a
    | error e => trivial
  | call o next ih => exact ⟨hp.1, fun r => ih r (hp.2 r)⟩

/-- A reflexive and transitive relation that every operation called is in relates the state
before a program and the state after it. -/
theorem Only.eval_related {R : σ → σ → Prop} {handler : (o : Op) → σ → Res o × σ}
    (hrefl : ∀ s, R s s) (trans : ∀ {s t u}, R s t → R t u → R s u)
    (hs : ∀ o s, P o → R s (handler o s).2) (hp : p.Only P) :
    ∀ s, R s (p.eval handler s).2 := by
  induction p with
  | done result => exact hrefl
  | call o next ih => exact fun s => trans (hs o s hp.1) (ih _ (hp.2 _) _)

end Only

end Prog

end KrabkaO11y.Concurrent
