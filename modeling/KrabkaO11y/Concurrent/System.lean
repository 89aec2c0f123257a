import Mathlib.Tactic

/-!
Systems that take one event at a time, the states their runs reach, and the rules that
carry a property of one step to every run.

An event that cannot happen in a state takes no step there. A condition on the state and
the event selects the runs all of whose steps meet it.
-/

namespace KrabkaO11y.Concurrent.System

variable {σ ε : Type*}

/-- The states that runs reach whose steps all meet a condition. -/
inductive Reachable (step : σ → ε → Option σ) (initial : σ → Prop)
    (condition : σ → ε → Prop) : σ → Prop where
  | initial {s : σ} : initial s → Reachable step initial condition s
  | step {s s' : σ} {event : ε} : Reachable step initial condition s →
      condition s event → step s event = some s' → Reachable step initial condition s'

/-- Some events in order, or `none` when one of them cannot happen. -/
def run (step : σ → ε → Option σ) : σ → List ε → Option σ
  | s, [] => some s
  | s, event :: rest => (step s event).bind fun s => run step s rest

/-- Every event of a run meets a condition. -/
def Meets (step : σ → ε → Option σ) (condition : σ → ε → Prop) : σ → List ε → Prop
  | _, [] => True
  | s, event :: rest => condition s event ∧ ∀ s' ∈ step s event, Meets step condition s' rest

instance decidableMeets (step : σ → ε → Option σ) (condition : σ → ε → Prop)
    [∀ s event, Decidable (condition s event)] :
    (s : σ) → (events : List ε) → Decidable (Meets step condition s events)
  | _, [] => inferInstanceAs (Decidable True)
  | s, event :: rest =>
    match hstep : step s event with
    | none => decidable_of_iff (condition s event) (by simp [Meets, hstep])
    | some s' =>
      have := decidableMeets step condition s' rest
      decidable_of_iff (condition s event ∧ Meets step condition s' rest)
        (by simp [Meets, hstep])

/-- What a step of a part leads to, where the part is there. -/
theorem of_part {τ : Type*} {part : Option τ} {act : τ → Option σ} {s' : σ} {P : Prop}
    (hact : ∀ {x}, part = some x → act x = some s' → P) (h : part.bind act = some s') : P := by
  obtain ⟨x, hp, hn⟩ := Option.bind_eq_some_iff.mp h
  exact hact hp hn

/-- A step of a part that may be missing, behind a guard. -/
theorem guarded_eq_some {τ : Type*} {part : Option τ} {guard : τ → Prop} [DecidablePred guard]
    {next : τ → σ} {s' : σ}
    (h : (part.bind fun x => if guard x then some (next x) else none) = some s') :
    ∃ x, part = some x ∧ guard x ∧ next x = s' := by
  obtain ⟨x, hp, hn⟩ := Option.bind_eq_some_iff.mp h
  obtain ⟨hgu, heq⟩ := Option.ite_none_right_eq_some.mp hn
  exact ⟨x, hp, hgu, Option.some.inj heq⟩

/-- One of the parts of a system is replaced or removed: what holds of each of them. -/
theorem forall_update {κ τ : Type*} [DecidableEq κ] {P : κ → τ → Prop} {parts : κ → Option τ}
    {key : κ} {part : Option τ} (h : ∀ k x, parts k = some x → P k x)
    (hpart : ∀ x, part = some x → P key x) :
    ∀ k x, Function.update parts key part k = some x → P k x := by
  intro k x hx
  rw [Function.update_apply] at hx
  split at hx
  · rename_i heq
    exact heq ▸ hpart x hx
  · exact h k x hx

section Rules

variable {step : σ → ε → Option σ} {initial : σ → Prop} {condition : σ → ε → Prop} {P : σ → Prop}

/-- What holds at first and is kept by every step holds in every state reached. -/
theorem Reachable.invariant (hinitial : ∀ s, initial s → P s)
    (hstep : ∀ s event s', P s → condition s event → step s event = some s' → P s')
    {s : σ} (h : Reachable step initial condition s) : P s := by
  induction h with
  | initial hs => exact hinitial _ hs
  | step _ hco hev ih => exact hstep _ _ _ ih hco hev

variable {events : List ε}

theorem Reachable.run : ∀ {s s' : σ},
    Reachable step initial condition s → Meets step condition s events →
      run step s events = some s' → Reachable step initial condition s' := by
  induction events with
  | nil =>
    intro s s' h _ hrun
    cases hrun
    exact h
  | cons event rest ih =>
    intro s s' h hme hrun
    obtain ⟨next, hn, hr⟩ := Option.bind_eq_some_iff.mp hrun
    exact ih (h.step hme.1 hn) (hme.2 next hn) hr

theorem run_getD {s : σ} (h : (run step s events).isSome) (d : σ) :
    run step s events = some ((run step s events).getD d) := by
  obtain ⟨s', hs⟩ := Option.isSome_iff_exists.mp h
  rw [hs, Option.getD_some]

/-- The end of a run that can happen is reached. -/
theorem Reachable.getD {s d : σ} (h : Reachable step initial condition s)
    (hme : Meets step condition s events) (hsm : (System.run step s events).isSome) :
    Reachable step initial condition ((System.run step s events).getD d) :=
  h.run hme (run_getD hsm d)

/-- A reflexive and transitive relation that every step of an invariant's states is in
relates the ends of every run. -/
theorem run_related {R : σ → σ → Prop} (hrefl : ∀ s, R s s)
    (trans : ∀ {s t u}, R s t → R t u → R s u)
    (hk : ∀ s event s', P s → condition s event → step s event = some s' → P s')
    (hstep : ∀ s event s', P s → condition s event → step s event = some s' → R s s') :
    ∀ {s s' : σ}, P s → Meets step condition s events →
      run step s events = some s' → R s s' := by
  induction events with
  | nil =>
    intro s s' _ _ hrun
    cases hrun
    exact hrefl s
  | cons event rest ih =>
    intro s s' hs hme hrun
    obtain ⟨next, hn, hr⟩ := Option.bind_eq_some_iff.mp hrun
    exact trans (hstep _ _ _ hs hme.1 hn)
      (ih (hk _ _ _ hs hme.1 hn) (hme.2 next hn) hr)

/-- Every run meets the condition that every step meets. -/
theorem meets_of_forall (hall : ∀ s event, condition s event) :
    ∀ {s : σ}, Meets step condition s events := by
  induction events with
  | nil => exact trivial
  | cons event rest ih => exact ⟨hall _ _, fun _ _ => ih⟩

end Rules

end KrabkaO11y.Concurrent.System
