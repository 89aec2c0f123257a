import KrabkaO11y.Collections.Upsert
import KrabkaO11y.Ruler.AlertInstances

/-!
Runs of successful evaluations of any alerting rules over one state, and what a restart
rebuilds from the records that they persisted.

Apart from the state, the samples of the evaluations say for each instance when its current
activity started and until when its last firing keeps it. The state agrees with both, so an
instance fires only once it has been active for as long as its rule asks, and is resolved
only once it stopped matching and that time is over.
-/

open Std (ExtTreeMap)

namespace KrabkaO11y.Ruler

open Machine (saturatingSub saturatingAdd)
open Collections RulerAlertState

variable {ν : Type}

/-! ### Activity -/

/-- When the activity of an instance started, and until when its firing keeps it. -/
structure Activity where
  startedMs : Option Int64 := none
  deadlineMs : Option Int64 := none

namespace Activity

/-- The activity after an evaluation, by the instances that its samples match. -/
def after (key : AlertStateKey) (activity : Activity) (event : RuleEvaluation ν) : Activity :=
  -- the evaluation fails, or is of another rule
  if ¬ event.matching.Nodup ∨ key ≠ event.rule.key key.labels then activity
  else if key.labels ∈ event.matching then
    let startedMs := activity.startedMs.getD event.evalTimeMs
    { startedMs := some startedMs
      deadlineMs :=
        if event.rule.holdForMs ≤ saturatingSub event.evalTimeMs startedMs then
          some (saturatingAdd event.evalTimeMs event.rule.keepFiringForMs)
        else none }
  -- an instance that fires stays within its deadline, one that is pending does not
  else if ∃ deadlineMs ∈ activity.deadlineMs, event.evalTimeMs < deadlineMs then activity
  else {}

/-- The activity of an instance after some evaluations. -/
def ofEvents (events : List (RuleEvaluation ν)) (key : AlertStateKey) : Activity :=
  events.foldl (after key) {}

theorem ofEvents_append (events : List (RuleEvaluation ν)) (event : RuleEvaluation ν)
    (key : AlertStateKey) :
    ofEvents (events ++ [event]) key = (ofEvents events key).after key event := by
  rw [ofEvents, List.foldl_append]
  rfl

end Activity

/-! ### Runs -/

/-- A ruler process and the topic of its records. -/
structure RulerRun where
  state : RulerAlertState := {}
  log : List RulerAlertStateRecord := []

namespace RulerRun

def step (run : RulerRun) (event : RuleEvaluation ν) : RulerRun where
  state := (event.evaluate run.state).state
  log := run.log ++ event.persisted run.state

/-- The run of some evaluations from the empty state. -/
def after (events : List (RuleEvaluation ν)) : RulerRun := events.foldl step {}

/-- What the state holds of an instance. -/
def held (run : RulerRun) (key : AlertStateKey) : Activity :=
  ⟨run.state.activeSinceMs[key]?, run.state.keepFiringUntilMs[key]?⟩

/-- The log rebuilds the state, and the state holds the activity of each instance. -/
structure Valid (run : RulerRun) (history : AlertStateKey → Activity) : Prop where
  coupled : Coupled run.state
  replayed : ({} : RulerAlertState).applyRecords run.log = run.state
  history : ∀ key, history key = run.held key

theorem valid_empty : Valid {} fun _ => {} where
  coupled key hkey := absurd hkey (by simp)
  replayed := rfl
  history key := by simp [held]

variable {run : RulerRun} {event : RuleEvaluation ν} {key : AlertStateKey}

theorem mem_matching_iff : key ∈ event.matching.map event.rule.key ↔
    key = event.rule.key key.labels ∧ key.labels ∈ event.matching := by
  constructor
  · intro matched
    obtain ⟨labels, mem, rfl⟩ := List.mem_map.mp matched
    exact ⟨rfl, mem⟩
  · rintro ⟨eq, mem⟩
    exact eq ▸ List.mem_map_of_mem mem

theorem keptFiring_iff {evalTimeMs : Int64} : keptFiring run.state evalTimeMs key = true ↔
    ∃ deadlineMs ∈ (run.held key).deadlineMs, evalTimeMs < deadlineMs := by
  simp [keptFiring, held, Option.any_eq_true]

/-- An evaluation takes what the state holds of an instance to what the samples say. -/
theorem held_step (coupled : Coupled run.state) :
    (run.step event).held key = (run.held key).after key event := by
  rcases (RuleEvaluation.spec coupled : event.Spec run.state).outcome with
    ⟨duplicate, same, -⟩ | ⟨distinct, outcome⟩
  · rw [Activity.after, if_pos (.inl duplicate), held, RulerRun.step, same]
    rfl
  · rw [held, RulerRun.step, outcome.active, outcome.firing, Activity.after]
    by_cases ofRule : key = event.rule.key key.labels
    · rw [if_neg (not_or.mpr ⟨not_not.mpr distinct, not_not.mpr ofRule⟩)]
      by_cases mem : key.labels ∈ event.matching
      · have matched := mem_matching_iff.mpr ⟨ofRule, mem⟩
        rw [if_pos mem, if_pos matched, if_pos matched, matchedUntil, startsAt]
        simp only [held, ← Std.not_lt, ite_not]
      · have unmatched : key ∉ event.matching.map event.rule.key :=
          fun matched => mem (mem_matching_iff.mp matched).2
        rw [if_neg mem, if_neg unmatched, if_neg unmatched]
        by_cases kept : keptFiring run.state event.evalTimeMs key = true
        · rw [if_pos (keptFiring_iff.mp kept), if_neg (by simp [kept]), if_neg (by simp [kept]),
            held]
        · rw [if_neg (mt keptFiring_iff.mpr kept), if_pos ⟨ofRule, by simpa using kept⟩,
            if_pos ⟨ofRule, by simpa using kept⟩]
    · have unmatched : key ∉ event.matching.map event.rule.key :=
        fun matched => ofRule (mem_matching_iff.mp matched).1
      rw [if_pos (Or.inr ofRule), if_neg unmatched, if_neg unmatched, if_neg (mt And.left ofRule),
        if_neg (mt And.left ofRule), held]

theorem Valid.step {history : AlertStateKey → Activity} (h : run.Valid history)
    (event : RuleEvaluation ν) :
    (run.step event).Valid fun key => (history key).after key event := by
  have hsp : event.Spec run.state := RuleEvaluation.spec h.coupled
  constructor
  case coupled => exact hsp.coupled
  case replayed =>
    rw [RulerRun.step, applyRecords_append, h.replayed]
    exact hsp.replayed
  case history =>
    intro key
    rw [h.history, held_step h.coupled]

theorem valid_after (events : List (RuleEvaluation ν)) :
    (after events).Valid (Activity.ofEvents events) := by
  induction events using List.reverseRecOn with
  | nil => exact valid_empty
  | append_singleton events event ih =>
    have := ih.step event
    simpa only [after, List.foldl_append, List.foldl_cons, List.foldl_nil,
      ← Activity.ofEvents_append] using this

variable {alert : AlertmanagerAlert} {history : AlertStateKey → Activity}

/-- A firing alert of an instance that was not firing is of one that matches, in an
activity that started at least the rule's `for` before. -/
theorem Valid.firing (h : run.Valid history)
    (halert : alert ∈ (event.evaluate run.state).dispatched)
    (notFiring : (history (event.rule.key alert.labels)).deadlineMs = none) :
    alert.labels ∈ event.matching ∧
      ∃ startedMs ∈ ((history (event.rule.key alert.labels)).after
          (event.rule.key alert.labels) event).startedMs,
        event.rule.holdForMs ≤ saturatingSub event.evalTimeMs startedMs := by
  have hsp : event.Spec run.state := RuleEvaluation.spec h.coupled
  rw [h.history] at notFiring ⊢
  rcases hsp.dispatched alert halert with ⟨-, hmt, hh⟩ | ⟨-, -, untilMs, hun, -⟩
  · refine ⟨hmt, _, ?_, hh⟩
    rcases hsp.outcome with ⟨-, -, hno⟩ | ⟨-, hout⟩
    · rw [hno] at halert
      cases halert
    · rw [← held_step h.coupled, held, RulerRun.step, hout.active,
        if_pos (List.mem_map_of_mem hmt)]
      rfl
  · exact absurd (hun.symm.trans notFiring) nofun

/-- A resolved alert is of an instance that does not match and whose deadline is over. -/
theorem Valid.resolved (h : run.Valid history) {endsAtMs : Int64}
    (halert : alert ∈ (event.evaluate run.state).dispatched)
    (ends : alert.endsAtMs = some endsAtMs) :
    alert.labels ∉ event.matching ∧
      ∃ deadlineMs ∈ (history (event.rule.key alert.labels)).deadlineMs,
        deadlineMs ≤ event.evalTimeMs := by
  have hsp : event.Spec run.state := RuleEvaluation.spec h.coupled
  rcases hsp.dispatched alert halert with ⟨hno, -, -⟩ | ⟨hunm, -, untilMs, hun, hca⟩
  · exact absurd (hno.symm.trans ends) nofun
  · refine ⟨hunm, untilMs, by rw [h.history]; exact hun, ?_⟩
    rcases hca with ⟨hno, -⟩ | ⟨-, hov⟩
    · exact absurd (hno.symm.trans ends) nofun
    · exact hov

theorem toInt_le_of_le_saturatingSub {extent now started : Int64} (nonneg : 0 ≤ extent.toInt)
    (h : extent ≤ saturatingSub now started) : extent.toInt ≤ now.toInt - started.toInt := by
  rw [Int64.le_iff_toInt_le, saturatingSub, Machine.toInt_saturate] at h
  omega

/-- After every run of evaluations of any rules, the records that it persisted rebuild the
state. In a further evaluation an instance that was not firing fires only where it matches
and its activity started at least the rule's `for` before, and an instance is resolved only
where it does not match and its keep-firing deadline is over. -/
theorem alert_state_survives_restart (events : List (RuleEvaluation ν)) :
    ({} : RulerAlertState).applyRecords (after events).log = (after events).state ∧
      ∀ event : RuleEvaluation ν, ∀ alert ∈ (event.evaluate (after events).state).dispatched,
        (alert.endsAtMs = none →
          (Activity.ofEvents events (event.rule.key alert.labels)).deadlineMs = none →
          alert.labels ∈ event.matching ∧
            ∃ startedMs ∈ (Activity.ofEvents (events ++ [event])
                (event.rule.key alert.labels)).startedMs,
              0 ≤ event.rule.holdForMs.toInt →
                event.rule.holdForMs.toInt ≤ event.evalTimeMs.toInt - startedMs.toInt) ∧
        (∀ endsAtMs, alert.endsAtMs = some endsAtMs →
          alert.labels ∉ event.matching ∧
            ∃ deadlineMs ∈ (Activity.ofEvents events (event.rule.key alert.labels)).deadlineMs,
              deadlineMs ≤ event.evalTimeMs) := by
  have valid := valid_after events
  refine ⟨valid.replayed, fun event alert dispatched => ⟨fun _ notFiring => ?_,
    fun endsAtMs ended => valid.resolved dispatched ended⟩⟩
  obtain ⟨matching, startedMs, started, heldLong⟩ := valid.firing dispatched notFiring
  rw [← Activity.ofEvents_append] at started
  exact ⟨matching, startedMs, started, fun nonneg => toInt_le_of_le_saturatingSub nonneg heldLong⟩

/-- Compaction of the topic and delivering records again lose nothing: every log whose last
record of each instance is that of the records that a run persisted rebuilds the state. -/
theorem compacted_log_rebuilds_state (events : List (RuleEvaluation ν))
    (compacted : List RulerAlertStateRecord)
    (h : ∀ key, lastOf RulerAlertStateRecord.key key compacted =
      lastOf RulerAlertStateRecord.key key (after events).log) :
    ({} : RulerAlertState).applyRecords compacted = (after events).state := by
  rw [← (valid_after events).replayed]
  exact ext_getElem?
    (fun key => read_foldl_eq (·.activeSinceMs[key]?) (activeSinceMs_applyRecord · · key) {}
      (h key))
    fun key => read_foldl_eq (·.keepFiringUntilMs[key]?) (keepFiringUntilMs_applyRecord · · key) {}
      (h key)

/-- The record of one firing instance, delivered twice. -/
theorem redelivered_log_rebuilds_state :
    let events : List (RuleEvaluation Unit) := [⟨⟨"t", "Down", "up == 0", 0, 0⟩,
      ⟨fun _ _ _ => [], fun _ _ _ => [], "u"⟩, [⟨[], ()⟩], 5⟩]
    ({} : RulerAlertState).applyRecords ((after events).log ++ (after events).log) =
      (after events).state :=
  compacted_log_rebuilds_state _ _ fun key => by simp [lastOf, List.find?_append]

end RulerRun

end KrabkaO11y.Ruler
