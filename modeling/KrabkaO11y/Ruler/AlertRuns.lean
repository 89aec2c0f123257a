import KrabkaO11y.Ruler.AlertInstances

/-!
Runs of one alerting rule: what becomes of an instance that fired.

An instance that is held as firing is still held after the two passes of an evaluation, or
the evaluation worked out a resolved alert for it; the alert is lost when a sink call of that
evaluation fails.
-/

open Std (ExtTreeMap)

namespace KrabkaO11y.Ruler

open List

open Machine (saturatingSub saturatingAdd)

variable {ν : Type}

/-- The instance with these labels is held as firing. -/
def HeldFiring (rule : AlertingRule) (state : RulerAlertState) (labels : PromqlLabels) : Prop :=
  rule.key labels ∈ state.keepFiringUntilMs

/-- Every firing instance of the rule is active, and has been for as long as the rule
asks. -/
def Settled (rule : AlertingRule) (state : RulerAlertState) (evalTimeMs : Int64) : Prop :=
  ∀ labels, HeldFiring rule state labels → ∃ startsAtMs,
    state.activeSinceMs[rule.key labels]? = some startsAtMs ∧
      rule.holdForMs ≤ saturatingSub evalTimeMs startsAtMs

variable {rule : AlertingRule} {state : RulerAlertState} {evalTimeMs : Int64} {tick : Tick}
  {templates : AlertTemplates ν}

theorem Settled.later (h : Settled rule state evalTimeMs) {laterMs : Int64}
    (hle : evalTimeMs ≤ laterMs) : Settled rule state laterMs := by
  intro labels hh
  obtain ⟨startsAtMs, hact, hho⟩ := h labels hh
  exact ⟨startsAtMs, hact, Std.le_trans hho (Machine.saturatingSub_mono hle _)⟩

/-! ### One evaluation -/

/-- The inputs of one evaluation: its samples, its time, what its templates expand to and
which of its sink calls fail. -/
structure EvaluationInput (ν : Type) where
  samples : List (Sample ν)
  evalTimeMs : Int64
  templates : AlertTemplates ν
  failure : Nat → Option PromqlError

def evaluate (rule : AlertingRule) (state : RulerAlertState) (input : EvaluationInput ν) :
    Evaluation :=
  evaluateAlertingRule rule input.templates input.failure state input.samples input.evalTimeMs

/-- Some instance that fired no longer matches and its keep-firing deadline is over. -/
def Resolving (rule : AlertingRule) (state : RulerAlertState) (input : EvaluationInput ν) : Prop :=
  ∃ labels untilMs, rule.key labels ∈ state.activeSinceMs ∧
    state.keepFiringUntilMs[rule.key labels]? = some untilMs ∧ untilMs ≤ input.evalTimeMs ∧
    labels ∉ input.samples.map (instanceLabels rule input.templates input.evalTimeMs)

/-- How one evaluation treats the firing instances. -/
structure Treats (rule : AlertingRule) (state : RulerAlertState) (evalTimeMs : Int64)
    (evaluation : Evaluation) : Prop where
  settled : Settled rule evaluation.state evalTimeMs
  dispatched : ∀ alert ∈ evaluation.dispatched, alert.endsAtMs = none →
    HeldFiring rule evaluation.state alert.labels
  held : ∀ labels, HeldFiring rule state labels → HeldFiring rule evaluation.state labels ∨
    ∃ alert ∈ evaluation.dispatched, alert.labels = labels ∧ alert.endsAtMs.isSome

variable {labels : PromqlLabels}

theorem heldFiring_iff :
    HeldFiring rule state labels ↔ (state.keepFiringUntilMs[rule.key labels]?).isSome :=
  ExtTreeMap.mem_iff_isSome_getElem?

variable {alert : AlertmanagerAlert} {externalUrl : String}

/-- An alert stays while later instances are passed. -/
theorem mem_alerts_foldl
    (keys : List AlertStateKey) :
    ∀ {tick : Tick}, alert ∈ tick.alerts →
      alert ∈ (keys.foldl (tickCleared rule externalUrl evalTimeMs) tick).alerts := by
  induction keys with
  | nil => exact fun h => h
  | cons key rest ih =>
    intro tick h
    refine ih ?_
    rw [tickCleared]
    split
    · split <;> exact mem_append_left _ h
    · exact h

section Passes

variable {matching : List PromqlLabels} {matched : Tick} {labels : PromqlLabels}

/-- An instance whose deadline is over when it stops matching resolves. -/
theorem exists_resolved {keys : List AlertStateKey}
    (hstart : Reconciled matched evalTimeMs [] matched)
    (hact : ∀ key ∈ keys, key ∈ matched.state.activeSinceMs) (hnd : keys.Nodup)
    {key : AlertStateKey} (hkey : key ∈ keys) {untilMs : Int64}
    (hun : matched.state.keepFiringUntilMs[key]? = some untilMs) (hov : ¬ evalTimeMs < untilMs) :
    ∃ alert ∈ (keys.foldl (tickCleared rule externalUrl evalTimeMs) matched).alerts,
      alert.labels = key.labels ∧ alert.endsAtMs.isSome := by
  obtain ⟨front, back, rfl⟩ := append_of_mem hkey
  rw [foldl_append, foldl_cons]
  have hre : Reconciled matched evalTimeMs front
      (front.foldl (tickCleared rule externalUrl evalTimeMs) matched) :=
    hstart.foldl (fun other ho => hact other (mem_append_left _ ho)) hnd.of_append_left
  have hfs : key ∉ front := fun hmem => (nodup_append.mp hnd).2.2 key hmem key mem_cons_self rfl
  have hend : ∃ alert ∈ (tickCleared rule externalUrl evalTimeMs
      (front.foldl (tickCleared rule externalUrl evalTimeMs) matched) key).alerts,
      alert.labels = key.labels ∧ alert.endsAtMs.isSome := by
    rw [tickCleared, hre.firing, if_neg fun h => hfs h.1, hun]
    simp only [if_neg hov]
    exact ⟨_, mem_append_right _ mem_cons_self, rfl, rfl⟩
  obtain ⟨alert, hal, hend⟩ := hend
  exact ⟨alert, mem_alerts_foldl back hal, hend⟩

variable (hmat : Matched rule state evalTimeMs matching matched)
  (hre : Reconciled matched evalTimeMs (clearedKeys rule matched.state matched.activeKeys) tick)
include hmat hre

/-- An instance that matches, after the passes. -/
theorem passed_of_mem (hmem : labels ∈ matching) :
    tick.state.activeSinceMs[rule.key labels]? =
        some (startsAt state evalTimeMs (rule.key labels)) ∧
      (HeldFiring rule tick.state labels ↔ rule.holdForMs ≤
        saturatingSub evalTimeMs (startsAt state evalTimeMs (rule.key labels))) := by
  have hkey := mem_map_of_mem (f := rule.key) hmem
  rw [heldFiring_iff, hre.active, hre.firing, hmat.active, hmat.firing, if_pos hkey, if_pos hkey,
    if_neg fun h => ((mem_clearedKeys_matched hmat).mp h.1).2.2 hkey]
  exact ⟨rfl, isSome_matchedUntil⟩

/-- An instance that does not match, after the passes. -/
theorem passed_of_not_mem (hmem : labels ∉ matching) :
    tick.state.activeSinceMs[rule.key labels]? = state.activeSinceMs[rule.key labels]? ∧
      (HeldFiring rule tick.state labels ↔ HeldFiring rule state labels ∧
        ¬ (rule.key labels ∈ state.activeSinceMs ∧
          keptFiring state evalTimeMs (rule.key labels) = false)) := by
  have hkey : rule.key labels ∉ _ := mt mem_map_key.mp hmem
  rw [heldFiring_iff, heldFiring_iff, hre.active, hre.firing, hmat.active, hmat.firing, if_neg hkey,
    if_neg hkey, keptFiring_matched hmat hkey]
  refine ⟨rfl, ?_⟩
  simp only [mem_clearedKeys_matched hmat, hkey, not_false_eq_true, and_true]
  split <;> rename_i h
  · simp [h.1.1, h.2]
  · exact (and_iff_left fun hno => h ⟨⟨hno.1, rfl⟩, hno.2⟩).symm

theorem settled_passed (h : Settled rule state evalTimeMs) :
    Settled rule tick.state evalTimeMs := by
  intro labels hh
  by_cases hmem : labels ∈ matching
  · obtain ⟨hact, hfir⟩ := passed_of_mem hmat hre hmem
    exact ⟨_, hact, hfir.mp hh⟩
  · obtain ⟨hact, hfir⟩ := passed_of_not_mem hmat hre hmem
    rw [hact]
    exact h labels (hfir.mp hh).1

/-- Dropping the instances that are neither active nor kept firing drops no firing one. -/
theorem settled_retainActive (h : Settled rule state evalTimeMs) :
    Settled rule (retainActive rule tick) evalTimeMs := by
  intro labels hh
  obtain ⟨startsAtMs, hact, hho⟩ := settled_passed hmat hre h labels hh
  refine ⟨startsAtMs, ?_, hho⟩
  have hkept : rule.key labels ∈ tick.activeKeys ∨ rule.key labels ∈ tick.keptFiringKeys := by
    by_cases hmem : labels ∈ matching
    · rw [hre.activeKeys, hmat.keys]
      exact .inl (mem_map_of_mem hmem)
    · obtain ⟨hsame, hfir⟩ := passed_of_not_mem hmat hre hmem
      have hkey : rule.key labels ∉ _ := mt mem_map_key.mp hmem
      have hin : rule.key labels ∈ state.activeSinceMs := by
        rw [ExtTreeMap.mem_iff_isSome_getElem?, ← hsame, hact]
        rfl
      rw [hre.kept, mem_clearedKeys_matched hmat, keptFiring_matched hmat hkey]
      refine .inr ⟨⟨hin, rfl, hkey⟩, Bool.of_not_eq_false fun hno => ?_⟩
      exact (hfir.mp hh).2 ⟨hin, hno⟩
  rw [retainActive, ExtTreeMap.getElem?_filter', hact]
  rcases hkept with hmem | hmem <;> simp [hmem]

/-- What is dispatched as firing is held as firing. -/
theorem heldFiring_of_mem_alerts (hal : alert ∈ tick.alerts)
    (hen : alert.endsAtMs = none) : HeldFiring rule tick.state alert.labels := by
  rcases justified_of_mem_alerts hmat hre hal with ⟨-, hmem, hho⟩ | ⟨hmem, -, untilMs, hun, hend⟩
  · exact (passed_of_mem hmat hre hmem).2.mpr hho
  · refine (passed_of_not_mem hmat hre hmem).2.mpr ⟨heldFiring_iff.mpr (by rw [hun]; rfl), ?_⟩
    rcases hend with ⟨-, hah⟩ | ⟨hend, -⟩
    · simp [keptFiring, hun, hah]
    · cases hen.symm.trans hend

/-- A firing instance is still held after the passes, unless it resolves. -/
theorem held_passed (h : Settled rule state evalTimeMs) (hh : HeldFiring rule state labels) :
    HeldFiring rule tick.state labels ∨ ∃ untilMs, rule.key labels ∈ state.activeSinceMs ∧
      state.keepFiringUntilMs[rule.key labels]? = some untilMs ∧ untilMs ≤ evalTimeMs ∧
      labels ∉ matching := by
  obtain ⟨since, hact, hho⟩ := h labels hh
  have hin : rule.key labels ∈ state.activeSinceMs := by
    rw [ExtTreeMap.mem_iff_isSome_getElem?, hact]
    rfl
  by_cases hmem : labels ∈ matching
  · refine .inl ((passed_of_mem hmat hre hmem).2.mpr ?_)
    rwa [startsAt, hact]
  · obtain ⟨untilMs, hun⟩ := Option.isSome_iff_exists.mp (heldFiring_iff.mp hh)
    by_cases hah : evalTimeMs < untilMs
    · refine .inl ((passed_of_not_mem hmat hre hmem).2.mpr ⟨hh, fun hno => ?_⟩)
      simp [keptFiring, hun, hah] at hno
    · exact .inr ⟨untilMs, hin, hun, Std.not_lt.mp hah, hmem⟩

end Passes

/-- With no failing call where an instance resolves, an evaluation holds every firing
instance or dispatches its end. -/
theorem evaluate_treats {input : EvaluationInput ν} (h : Settled rule state input.evalTimeMs)
    (hfa : Resolving rule state input → ∀ n, input.failure n = none) :
    Treats rule state input.evalTimeMs (evaluate rule state input) := by
  rw [evaluate, evaluateAlertingRule]
  split
  · exact ⟨h, by simp, fun labels hh => .inl hh⟩
  · rename_i prepared hpr
    obtain ⟨matched, hmat, hre, hti⟩ := evaluateTick_reconciled rule input.templates
      input.evalTimeMs state (nodup_of_prepareAlerts hpr)
    rw [labels_of_prepareAlerts hpr] at hmat
    dsimp only
    set tick := evaluateTick rule input.templates input.evalTimeMs state prepared
    -- where a call fails nothing resolves, so what was firing is firing in the tick
    have hqt {n : Nat} {calls : List SinkCall} {error : PromqlError}
        (hc : callSinks input.failure n calls = .error error) (labels : PromqlLabels)
        (hh : HeldFiring rule state labels) : HeldFiring rule tick.state labels := by
      refine (held_passed hmat hre h hh).resolve_right ?_
      rintro ⟨untilMs, hend⟩
      rw [callSinks_ok (hfa ⟨labels, untilMs, hend⟩)] at hc
      cases hc
    have hend : ∀ labels, HeldFiring rule state labels → HeldFiring rule tick.state labels ∨
        ∃ alert ∈ tick.alerts, alert.labels = labels ∧ alert.endsAtMs.isSome := by
      intro labels hh
      refine (held_passed hmat hre h hh).imp_right ?_
      rintro ⟨untilMs, hact, hun, hov, hmem⟩
      have hkey : rule.key labels ∉ _ := mt mem_map_key.mp hmem
      rw [hti]
      refine exists_resolved (reconciled_start hmat.kept hmat.cleared)
        (fun key hkey => (mem_clearedKeys.mp hkey).1) (nodup_clearedKeys _)
        ((mem_clearedKeys_matched hmat).mpr ⟨hact, rfl, hkey⟩) ?_ (Std.not_lt.mpr hov)
      rw [hmat.firing, if_neg hkey, hun]
    split
    · rename_i error hc
      exact ⟨settled_passed hmat hre h, by simp, fun labels hh => .inl (hqt hc labels hh)⟩
    · have hset := settled_retainActive hmat hre h
      split
      · rename_i hem
        rw [List.isEmpty_iff] at hem
        refine ⟨hset, by simp, fun labels hh => .inl ?_⟩
        rcases hend labels hh with hh | ⟨alert, hal, -⟩
        · exact hh
        · simp [hem] at hal
      · split
        · rename_i error hc
          exact ⟨hset, by simp, fun labels hh => .inl (hqt hc labels hh)⟩
        · exact ⟨hset, fun alert hal hen => heldFiring_of_mem_alerts hmat hre hal hen, hend⟩

/-! ### Runs -/

/-- The evaluations of a run, in order. -/
def evaluations (rule : AlertingRule) : RulerAlertState → List (EvaluationInput ν) →
    List Evaluation
  | _, [] => []
  | state, input :: rest =>
    evaluate rule state input :: evaluations rule (evaluate rule state input).state rest

/-- The state after a run. -/
def stateAfter (rule : AlertingRule) (state : RulerAlertState) (inputs : List (EvaluationInput ν)) :
    RulerAlertState :=
  inputs.foldl (fun state input => (evaluate rule state input).state) state

/-- No evaluation that resolves an instance has a failing sink call. -/
def ResolvesUnfailed (rule : AlertingRule) : RulerAlertState → List (EvaluationInput ν) → Prop
  | _, [] => True
  | state, input :: rest =>
    (Resolving rule state input → ∀ n, input.failure n = none) ∧
      ResolvesUnfailed rule (evaluate rule state input).state rest

/-- The evaluation times do not decrease. -/
def Chronological (inputs : List (EvaluationInput ν)) : Prop :=
  inputs.Pairwise fun a b => a.evalTimeMs ≤ b.evalTimeMs

variable {inputs : List (EvaluationInput ν)}

/-- A run holds a firing instance to its end, or one of its evaluations dispatches the
end of the instance. -/
theorem held_or_resolved {startMs : Int64} (hh : HeldFiring rule state labels)
    (hset : Settled rule state startMs) (start : ∀ input ∈ inputs, startMs ≤ input.evalTimeMs)
    (times : Chronological inputs) (hunf : ResolvesUnfailed rule state inputs) :
    HeldFiring rule (stateAfter rule state inputs) labels ∨
      ∃ evaluation ∈ evaluations rule state inputs, ∃ alert ∈ evaluation.dispatched,
        alert.labels = labels ∧ alert.endsAtMs.isSome := by
  induction inputs generalizing state startMs with
  | nil => exact .inl hh
  | cons input rest ih =>
    obtain ⟨hf, hr⟩ := pairwise_cons.mp times
    have htr := evaluate_treats (hset.later (start input (by simp))) hunf.1
    rcases htr.held labels hh with hh | ⟨alert, hal⟩
    · rcases ih hh htr.settled hf hr hunf.2 with hh | ⟨evaluation, hmem, h⟩
      · exact .inl hh
      · exact .inr ⟨evaluation, mem_cons_of_mem _ hmem, h⟩
    · exact .inr ⟨_, mem_cons_self .., alert, hal⟩

theorem settled_stateAfter {startMs endMs : Int64}
    (hset : Settled rule state startMs) (start : ∀ input ∈ inputs, startMs ≤ input.evalTimeMs)
    (times : Chronological inputs) (hunf : ResolvesUnfailed rule state inputs)
    (hsta : startMs ≤ endMs) (hend : ∀ input ∈ inputs, input.evalTimeMs ≤ endMs) :
    Settled rule (stateAfter rule state inputs) endMs := by
  induction inputs generalizing state startMs with
  | nil => exact hset.later hsta
  | cons input rest ih =>
    obtain ⟨hf, hr⟩ := pairwise_cons.mp times
    have htr := evaluate_treats (hset.later (start input (by simp))) hunf.1
    exact ih htr.settled hf hr hunf.2 (hend input (by simp))
      fun later hl => hend later (mem_cons_of_mem _ hl)

theorem ResolvesUnfailed.append {earlier later : List (EvaluationInput ν)}
    (h : ResolvesUnfailed rule state (earlier ++ later)) :
    ResolvesUnfailed rule state earlier ∧
      ResolvesUnfailed rule (stateAfter rule state earlier) later := by
  induction earlier generalizing state with
  | nil => exact ⟨trivial, h⟩
  | cons input rest ih =>
    obtain ⟨hr, hl⟩ := ih h.2
    exact ⟨⟨h.1, hr⟩, hl⟩

theorem settled_empty (startMs : Int64) : Settled rule {} startMs := by
  intro labels hh
  simp [HeldFiring] at hh

/-- An instance that was dispatched as firing is held as firing from then on, until a
dispatch contains its end. -/
theorem fired_alert_held_or_resolved (rule : AlertingRule)
    (earlier : List (EvaluationInput ν)) (input : EvaluationInput ν)
    (later : List (EvaluationInput ν)) (htimes : Chronological (earlier ++ input :: later))
    (hunfailed : ResolvesUnfailed rule {} (earlier ++ input :: later))
    (alert : AlertmanagerAlert)
    (hfired : alert ∈ (evaluate rule (stateAfter rule {} earlier) input).dispatched)
    (hends : alert.endsAtMs = none) :
    HeldFiring rule (stateAfter rule {} (earlier ++ input :: later)) alert.labels ∨
      ∃ evaluation ∈ evaluations rule
          (evaluate rule (stateAfter rule {} earlier) input).state later,
        ∃ ended ∈ evaluation.dispatched,
          ended.labels = alert.labels ∧ ended.endsAtMs.isSome := by
  obtain ⟨hbefore, hcross, hbetween⟩ := pairwise_append.mp htimes
  obtain ⟨hfirst, hafter⟩ := pairwise_cons.mp hcross
  obtain ⟨hunfailedBefore, hunfailedAfter⟩ := hunfailed.append
  have hsettled : Settled rule (stateAfter rule {} earlier) input.evalTimeMs :=
    settled_stateAfter (settled_empty Int64.minValue) (fun _ _ => Int64.minValue_le _) hbefore
      hunfailedBefore (Int64.minValue_le _) fun other hother => hbetween other hother input
        (by simp)
  have htreats := evaluate_treats hsettled hunfailedAfter.1
  have hafterAll : stateAfter rule {} (earlier ++ input :: later) =
      stateAfter rule (evaluate rule (stateAfter rule {} earlier) input).state later := by
    simp [stateAfter]
  rw [hafterAll]
  exact held_or_resolved (htreats.dispatched alert hfired hends) htreats.settled hfirst hafter
    hunfailedAfter.2

/-! ### One instance -/

section Sample

/-- A rule that fires at once and keeps nothing firing. -/
def sampleRule : AlertingRule := ⟨"t", "Down", "up == 0", 0, 0⟩

def sampleTemplates : AlertTemplates Unit := ⟨fun _ _ _ => [], fun _ _ _ => [], "u"⟩

/-- An evaluation that a sample matches, or none does. -/
def sampleEvaluation (evalTimeMs : Int64) (matched : Bool)
    (failure : Nat → Option PromqlError) : EvaluationInput Unit where
  samples := if matched then [⟨[], ()⟩] else []
  evalTimeMs := evalTimeMs
  templates := sampleTemplates
  failure := failure

def sampleAlert : AlertmanagerAlert := ⟨[⟨"alertname", "Down"⟩], [], 0, none, "u"⟩

theorem sampleAlert_fired :
    sampleAlert ∈ (evaluate sampleRule {} (sampleEvaluation 0 true fun _ => none)).dispatched := by
  decide +kernel

/-- The write of the resolved state fails, and the instance is no longer held as firing:
the next evaluation takes it for one that never fired and drops it. -/
theorem fired_alert_forgotten :
    ∃ (rule : AlertingRule) (input : EvaluationInput Unit) (later : List (EvaluationInput Unit))
      (alert : AlertmanagerAlert), Chronological (input :: later) ∧
      alert ∈ (evaluate rule {} input).dispatched ∧ alert.endsAtMs = none ∧
      ¬ HeldFiring rule (stateAfter rule {} (input :: later)) alert.labels ∧
      ∀ evaluation ∈ evaluations rule (evaluate rule {} input).state later,
        ∀ ended ∈ evaluation.dispatched, ended.labels = alert.labels → ended.endsAtMs = none := by
  refine ⟨sampleRule, sampleEvaluation 0 true fun _ => none,
    [sampleEvaluation 1 false fun _ => some (.sink "unavailable"),
      sampleEvaluation 2 false fun _ => none], sampleAlert, ?_, sampleAlert_fired, rfl, ?_, ?_⟩
  · simp only [Chronological, sampleEvaluation]
    decide
  · rw [HeldFiring]
    decide +kernel
  · decide +kernel

/-- Without the failure the second evaluation dispatches the end. -/
theorem fired_alert_resolved_unfailed :
    HeldFiring sampleRule
      (stateAfter sampleRule {} ([] ++ sampleEvaluation 0 true (fun _ => none) ::
        [sampleEvaluation 1 false fun _ => none])) sampleAlert.labels ∨
      ∃ evaluation ∈ evaluations sampleRule (evaluate sampleRule (stateAfter sampleRule {}
          ([] : List (EvaluationInput Unit))) (sampleEvaluation 0 true fun _ => none)).state
          [sampleEvaluation 1 false fun _ => none],
        ∃ ended ∈ evaluation.dispatched,
          ended.labels = sampleAlert.labels ∧ ended.endsAtMs.isSome :=
  fired_alert_held_or_resolved sampleRule [] (sampleEvaluation 0 true fun _ => none)
    [sampleEvaluation 1 false fun _ => none]
    (by simp only [Chronological, sampleEvaluation]; decide)
    ⟨fun _ _ => rfl, fun _ _ => rfl, trivial⟩ sampleAlert sampleAlert_fired rfl

end Sample

end KrabkaO11y.Ruler
