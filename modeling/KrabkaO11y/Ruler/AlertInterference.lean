import KrabkaO11y.Ruler.AlertInstances

/-!
Several alerting rules over one state (`crates/promql/src/ruler/evaluation/workflows.rs`).

A rule's instances are found under its rule id, which is its alert name and its expression.
While no other rule has the id, evaluating others changes none of the instances and the
rule makes the calls that it makes alone. Rules that differ in anything else share the
instances, and each clears those of the other.
-/

open Std (ExtTreeMap)

namespace KrabkaO11y.Ruler

open List

open Machine (saturatingSub saturatingAdd)

variable {ν : Type}

/-- Two states have the same instances of a rule. -/
def Agrees (rule : AlertingRule) (state state' : RulerAlertState) : Prop :=
  ∀ labels : PromqlLabels,
    state.activeSinceMs[rule.key labels]? = state'.activeSinceMs[rule.key labels]? ∧
      state.keepFiringUntilMs[rule.key labels]? = state'.keepFiringUntilMs[rule.key labels]?

section

variable {rule : AlertingRule} {state state' : RulerAlertState} {evalTimeMs : Int64}
  {tick tick' : Tick} {templates : AlertTemplates ν}

theorem Agrees.contains (h : Agrees rule state state') (labels : PromqlLabels) :
    state.activeSinceMs.contains (rule.key labels) =
        state'.activeSinceMs.contains (rule.key labels) ∧
      state.keepFiringUntilMs.contains (rule.key labels) =
        state'.keepFiringUntilMs.contains (rule.key labels) := by
  simp only [ExtTreeMap.contains_eq_isSome_getElem?, (h labels).1, (h labels).2, and_self]

variable {key : AlertStateKey} {map map' : ExtTreeMap AlertStateKey Int64}

theorem getElem?_insert_congr
    (h : map[key]? = map'[key]?) (other : AlertStateKey) (value : Int64) :
    (map.insert other value)[key]? = (map'.insert other value)[key]? := by
  simp only [ExtTreeMap.getElem?_insert, h]

theorem getElem?_erase_congr
    (h : map[key]? = map'[key]?) (other : AlertStateKey) :
    (map.erase other)[key]? = (map'.erase other)[key]? := by
  simp only [ExtTreeMap.getElem?_erase, h]

/-! ### The evaluation of a rule reads its own instances -/

/-- Two ticks differ in the instances of other rules only. -/
structure Alike (rule : AlertingRule) (tick tick' : Tick) : Prop where
  state : Agrees rule tick.state tick'.state
  activeKeys : tick.activeKeys = tick'.activeKeys
  keptFiringKeys : tick.keptFiringKeys = tick'.keptFiringKeys
  activeRecords : tick.activeRecords = tick'.activeRecords
  clearedRecords : tick.clearedRecords = tick'.clearedRecords
  syntheticRecords : tick.syntheticRecords = tick'.syntheticRecords
  alerts : tick.alerts = tick'.alerts

theorem Alike.tickActive (h : Alike rule tick tick') (prepared : PreparedAlert ν) :
    Alike rule (tickActive rule templates evalTimeMs tick prepared)
      (tickActive rule templates evalTimeMs tick' prepared) := by
  obtain ⟨hact, -⟩ := h.state prepared.labels
  obtain ⟨hwa, hwas⟩ := h.state.contains prepared.labels
  rw [Ruler.tickActive, Ruler.tickActive]
  simp only [hact, hwa, hwas, h.activeKeys, h.activeRecords, h.syntheticRecords,
    h.alerts]
  split
  · exact ⟨fun labels => ⟨getElem?_insert_congr (h.state labels).1 _ _,
      getElem?_erase_congr (h.state labels).2 _⟩, rfl, h.keptFiringKeys, rfl, h.clearedRecords,
      rfl, rfl⟩
  · exact ⟨fun labels => ⟨getElem?_insert_congr (h.state labels).1 _ _,
      getElem?_insert_congr (h.state labels).2 _ _⟩, rfl, h.keptFiringKeys, rfl,
      h.clearedRecords, rfl, rfl⟩

theorem Alike.tickCleared (h : Alike rule tick tick') (externalUrl : String)
    (hkey : key = rule.key key.labels) :
    Alike rule (tickCleared rule externalUrl evalTimeMs tick key)
      (tickCleared rule externalUrl evalTimeMs tick' key) := by
  obtain ⟨hact, hfir⟩ := h.state key.labels
  rw [← hkey] at hact hfir
  rw [Ruler.tickCleared, Ruler.tickCleared, hact, hfir]
  split
  · split
    · exact ⟨h.state, h.activeKeys, by rw [h.keptFiringKeys], by rw [h.activeRecords],
        h.clearedRecords, by rw [h.syntheticRecords], by rw [h.alerts]⟩
    · exact ⟨fun labels => ⟨(h.state labels).1, getElem?_erase_congr (h.state labels).2 _⟩,
        h.activeKeys, h.keptFiringKeys, h.activeRecords, by rw [h.clearedRecords],
        by rw [h.syntheticRecords], by rw [h.alerts]⟩
  · exact ⟨h.state, h.activeKeys, h.keptFiringKeys, h.activeRecords, by rw [h.clearedRecords],
      by rw [h.syntheticRecords], h.alerts⟩

theorem Alike.foldl_tickActive (prepared : List (PreparedAlert ν)) :
    ∀ {tick tick' : Tick}, Alike rule tick tick' →
      Alike rule (prepared.foldl (Ruler.tickActive rule templates evalTimeMs) tick)
        (prepared.foldl (Ruler.tickActive rule templates evalTimeMs) tick') := by
  induction prepared with
  | nil => exact fun h => h
  | cons first rest ih => exact fun h => ih (h.tickActive first)

theorem Alike.foldl_tickCleared {externalUrl : String} {keys : List AlertStateKey} :
    ∀ {tick tick' : Tick}, (∀ key ∈ keys, key = rule.key key.labels) → Alike rule tick tick' →
      Alike rule (keys.foldl (Ruler.tickCleared rule externalUrl evalTimeMs) tick)
        (keys.foldl (Ruler.tickCleared rule externalUrl evalTimeMs) tick') := by
  induction keys with
  | nil => exact fun _ h => h
  | cons key rest ih =>
    intro tick tick' hks h
    obtain ⟨hkey, hr⟩ := forall_mem_cons.mp hks
    exact ih hr (h.tickCleared externalUrl hkey)

/-- The rule's instances that stopped matching are the same, in the same order. -/
theorem clearedKeys_congr (h : Agrees rule state state') (activeKeys : List AlertStateKey) :
    clearedKeys rule state activeKeys = clearedKeys rule state' activeKeys := by
  refine Collections.eq_of_ordered (state.activeSinceMs.ordered_keys.sublist filter_sublist)
    (state'.activeSinceMs.ordered_keys.sublist filter_sublist) fun key => ?_
  rw [mem_clearedKeys, mem_clearedKeys]
  refine and_congr_left fun hkey => ?_
  rw [hkey.1, ExtTreeMap.mem_iff_isSome_getElem?, ExtTreeMap.mem_iff_isSome_getElem?,
    (h key.labels).1]

theorem alike_evaluateTick (h : Agrees rule state state') (prepared : List (PreparedAlert ν)) :
    Alike rule (evaluateTick rule templates evalTimeMs state prepared)
      (evaluateTick rule templates evalTimeMs state' prepared) := by
  have hmat : Alike rule
      (prepared.foldl (tickActive rule templates evalTimeMs) { state := state })
      (prepared.foldl (tickActive rule templates evalTimeMs) { state := state' }) :=
    Alike.foldl_tickActive prepared ⟨h, rfl, rfl, rfl, rfl, rfl, rfl⟩
  rw [evaluateTick, evaluateTick]
  simp only [clearedKeys_congr hmat.state, hmat.activeKeys]
  exact hmat.foldl_tickCleared fun key hkey => (mem_clearedKeys.mp hkey).2.1

theorem Alike.retainActive (h : Alike rule tick tick') :
    Agrees rule (retainActive rule tick) (retainActive rule tick') := by
  intro labels
  refine ⟨?_, (h.state labels).2⟩
  rw [Ruler.retainActive, Ruler.retainActive, ExtTreeMap.getElem?_filter',
    ExtTreeMap.getElem?_filter', (h.state labels).1, h.activeKeys, h.keptFiringKeys]

end

namespace RuleEvaluation

variable {event : RuleEvaluation ν} {state state' : RulerAlertState}

/-- States that agree on a rule's instances give its evaluation the same calls, and agree
after it. -/
theorem evaluate_congr (h : Agrees event.rule state state') :
    event.calls state = event.calls state' ∧
      Agrees event.rule (event.evaluate state).state (event.evaluate state').state := by
  cases hpr : prepareAlerts event.rule event.templates event.evalTimeMs event.samples [] with
  | error error =>
    rw [evaluate_error hpr, evaluate_error hpr, calls, calls, hpr]
    exact ⟨rfl, h⟩
  | ok prepared =>
    have hal : Alike event.rule
        (evaluateTick event.rule event.templates event.evalTimeMs state prepared)
        (evaluateTick event.rule event.templates event.evalTimeMs state' prepared) :=
      alike_evaluateTick h prepared
    rw [evaluate_ok hpr, evaluate_ok hpr, calls, calls, hpr]
    refine ⟨?_, hal.retainActive⟩
    simp only [Tick.writes, hal.activeRecords, hal.clearedRecords,
      hal.syntheticRecords, hal.alerts]

/-- A rule with another id leaves the instances of a rule alone. -/
theorem evaluate_frame (event : RuleEvaluation ν) (coupled : Coupled state)
    {rule : AlertingRule} (hids : event.rule.ruleId ≠ rule.ruleId) :
    Agrees rule (event.evaluate state).state state := by
  intro labels
  have ho : rule.key labels ∉ event.matching.map event.rule.key := by
    intro hmem
    obtain ⟨other, -, heq⟩ := mem_map.mp hmem
    exact hids (congrArg AlertStateKey.ruleId heq)
  have hnm : rule.key labels ≠ event.rule.key (rule.key labels).labels := fun heq =>
    hids (congrArg AlertStateKey.ruleId heq).symm
  rcases (spec coupled : event.Spec state).outcome with ⟨-, hsm, -⟩ | ⟨-, hout⟩
  · rw [hsm]
    exact ⟨rfl, rfl⟩
  · rw [hout.active, hout.firing, if_neg ho, if_neg ho,
      if_neg fun h => hnm h.1, if_neg fun h => hnm h.1]
    exact ⟨rfl, rfl⟩

end RuleEvaluation

/-! ### Groups of rules -/

/-- A rule where it stands. -/
structure RuleDefinition (ν : Type) where
  namespaceName : String
  groupName : String
  rule : AlertingRule
  templates : AlertTemplates ν

/-- A rule of a group with the samples that its query gave, if it gave a vector. -/
structure GroupEntry (ι ν : Type) where
  index : ι
  samples : Option (List (Sample ν))

/-- The rules of a group that are evaluated at one time, in order. -/
structure GroupEvaluation (ι ν : Type) where
  evalTimeMs : Int64
  entries : List (GroupEntry ι ν)

section Groups

variable {ι : Type} (rules : ι → RuleDefinition ν)

/-- One rule of a group. Without a vector there is nothing to evaluate. -/
def evaluateEntry (evalTimeMs : Int64) (state : RulerAlertState) (entry : GroupEntry ι ν) :
    RulerAlertState × List SinkCall :=
  match entry.samples with
  | none => (state, [])
  | some samples =>
    let event : RuleEvaluation ν :=
      ⟨(rules entry.index).rule, (rules entry.index).templates, samples, evalTimeMs⟩
    ((event.evaluate state).state, event.calls state)

/-- The loop over the rules of a group. A rule that fails does not stop it. -/
def evaluateEntries (evalTimeMs : Int64) : RulerAlertState → List (GroupEntry ι ν) →
    RulerAlertState × List (ι × List SinkCall)
  | state, [] => (state, [])
  | state, entry :: rest =>
    let first := evaluateEntry rules evalTimeMs state entry
    let later := evaluateEntries evalTimeMs first.1 rest
    (later.1, (entry.index, first.2) :: later.2)

/-- A sequence of group evaluations, with the calls that each evaluation of a rule makes. -/
def evaluateGroups : RulerAlertState → List (GroupEvaluation ι ν) →
    RulerAlertState × List (ι × List SinkCall)
  | state, [] => (state, [])
  | state, group :: rest =>
    let first := evaluateEntries rules group.evalTimeMs state group.entries
    let later := evaluateGroups first.1 rest
    (later.1, first.2 ++ later.2)

variable [DecidableEq ι]

/-- The calls of the evaluations of one rule, in order. -/
def callsOf (index : ι) (trace : List (ι × List SinkCall)) : List (List SinkCall) :=
  (trace.filter fun entry => entry.1 = index).map Prod.snd

/-- The group evaluations with one rule left. -/
def alone (index : ι) (groups : List (GroupEvaluation ι ν)) : List (GroupEvaluation ι ν) :=
  groups.map fun group => { group with
    entries := group.entries.filter fun entry => entry.index = index }

variable {rules} {index : ι} {state state' : RulerAlertState}

theorem callsOf_append (trace trace' : List (ι × List SinkCall)) :
    callsOf index (trace ++ trace') = callsOf index trace ++ callsOf index trace' := by
  rw [callsOf, filter_append, map_append, ← callsOf, ← callsOf]

/-- What the runs with and without the other rules have in common. -/
structure Separate (rules : ι → RuleDefinition ν) (index : ι) (state state' : RulerAlertState) :
    Prop where
  coupled : Coupled state
  coupled' : Coupled state'
  agrees : Agrees (rules index).rule state state'

variable {entry : GroupEntry ι ν}

omit [DecidableEq ι] in
/-- The rule itself makes the same calls in both runs. -/
theorem Separate.own (h : Separate rules index state state') (evalTimeMs : Int64)
    (hi : entry.index = index) :
    Separate rules index (evaluateEntry rules evalTimeMs state entry).1
        (evaluateEntry rules evalTimeMs state' entry).1 ∧
      (evaluateEntry rules evalTimeMs state entry).2 =
        (evaluateEntry rules evalTimeMs state' entry).2 := by
  subst hi
  rw [evaluateEntry, evaluateEntry]
  split
  · exact ⟨h, rfl⟩
  · rename_i samples _
    set event : RuleEvaluation ν :=
      ⟨(rules entry.index).rule, (rules entry.index).templates, samples, evalTimeMs⟩ with hev
    have hag : Agrees event.rule state state' := h.agrees
    obtain ⟨hca, ha⟩ := RuleEvaluation.evaluate_congr hag
    exact ⟨⟨(RuleEvaluation.spec h.coupled).coupled, (RuleEvaluation.spec h.coupled').coupled,
      ha⟩, hca⟩

omit [DecidableEq ι] in
/-- Another rule changes nothing that the rule reads. -/
theorem Separate.other (h : Separate rules index state state') (evalTimeMs : Int64)
    (hids : (rules entry.index).rule.ruleId ≠ (rules index).rule.ruleId) :
    Separate rules index (evaluateEntry rules evalTimeMs state entry).1 state' := by
  rw [evaluateEntry]
  split
  · exact h
  · rename_i samples _
    refine ⟨(RuleEvaluation.spec h.coupled).coupled, h.coupled', fun labels => ?_⟩
    have hfm := RuleEvaluation.evaluate_frame
      ⟨(rules entry.index).rule, (rules entry.index).templates, samples, evalTimeMs⟩ h.coupled
      hids labels
    exact ⟨hfm.1.trans (h.agrees labels).1, hfm.2.trans (h.agrees labels).2⟩

section Runs

variable (hids : ∀ other, other ≠ index →
  (rules other).rule.ruleId ≠ (rules index).rule.ruleId)

include hids

theorem separate_evaluateEntries (evalTimeMs : Int64) (entries : List (GroupEntry ι ν)) :
    ∀ {state state' : RulerAlertState}, Separate rules index state state' →
      Separate rules index (evaluateEntries rules evalTimeMs state entries).1
          (evaluateEntries rules evalTimeMs state'
            (entries.filter fun entry => entry.index = index)).1 ∧
        callsOf index (evaluateEntries rules evalTimeMs state entries).2 =
          callsOf index (evaluateEntries rules evalTimeMs state'
            (entries.filter fun entry => entry.index = index)).2 := by
  induction entries with
  | nil => exact fun h => ⟨h, rfl⟩
  | cons entry rest ih =>
    intro state state' h
    by_cases hi : entry.index = index
    · obtain ⟨hsep, hca⟩ := h.own evalTimeMs hi
      obtain ⟨hl, hr⟩ := ih hsep
      rw [filter_cons, if_pos (decide_eq_true hi), evaluateEntries, evaluateEntries]
      refine ⟨hl, ?_⟩
      simp only [callsOf, filter_cons, hi, decide_true, if_true, map_cons, hca]
      exact congrArg (_ :: ·) hr
    · obtain ⟨hl, hr⟩ := ih (h.other evalTimeMs (hids entry.index hi))
      rw [filter_cons, if_neg (by simpa using hi), evaluateEntries]
      refine ⟨hl, ?_⟩
      rw [callsOf, filter_cons, if_neg (by simpa using hi)]
      exact hr

theorem separate_evaluateGroups (groups : List (GroupEvaluation ι ν)) :
    ∀ {state state' : RulerAlertState}, Separate rules index state state' →
      Separate rules index (evaluateGroups rules state groups).1
          (evaluateGroups rules state' (alone index groups)).1 ∧
        callsOf index (evaluateGroups rules state groups).2 =
          callsOf index (evaluateGroups rules state' (alone index groups)).2 := by
  induction groups with
  | nil => exact fun h => ⟨h, rfl⟩
  | cons group rest ih =>
    intro state state' h
    obtain ⟨hsep, hca⟩ :=
      separate_evaluateEntries hids group.evalTimeMs group.entries h
    obtain ⟨hl, hr⟩ := ih hsep
    rw [alone, map_cons, ← alone, evaluateGroups, evaluateGroups]
    refine ⟨hl, ?_⟩
    simp only [callsOf_append]
    rw [hca, hr]

end Runs

/-- While no other rule has its id, a rule makes in every run of the groups the calls that
it makes alone, and has the same instances afterwards. -/
theorem rule_undisturbed (rules : ι → RuleDefinition ν) (index : ι)
    (hids : ∀ other, other ≠ index →
      (rules other).rule.ruleId ≠ (rules index).rule.ruleId)
    (groups : List (GroupEvaluation ι ν)) :
    callsOf index (evaluateGroups rules {} groups).2 =
        callsOf index (evaluateGroups rules {} (alone index groups)).2 ∧
      Agrees (rules index).rule (evaluateGroups rules {} groups).1
        (evaluateGroups rules {} (alone index groups)).1 := by
  have hempty : Coupled {} := fun key hkey => absurd hkey (by simp)
  obtain ⟨hseparate, hcalls⟩ :=
    separate_evaluateGroups hids groups ⟨hempty, hempty, fun labels => ⟨rfl, rfl⟩⟩
  exact ⟨hcalls, hseparate.agrees⟩

end Groups

/-! ### Two rules -/

/-- A rule that waits some time before it fires. -/
def waitingRule (namespaceName groupName alertName : String) (holdForMs : Int64) :
    RuleDefinition Unit where
  namespaceName := namespaceName
  groupName := groupName
  rule := ⟨"t", alertName, "up == 0", holdForMs, 0⟩
  templates := ⟨fun _ _ _ => [], fun _ _ _ => [], "u"⟩

/-- Two rules of one name and expression in different groups, of which one waits. -/
def sameName : Bool → RuleDefinition Unit
  | false => waitingRule "n" "g" "Down" 0
  | true => waitingRule "m" "h" "Down" 5

def differentNames : Bool → RuleDefinition Unit
  | false => waitingRule "n" "g" "Down" 0
  | true => waitingRule "m" "h" "DownForLong" 5

/-- Both groups are evaluated at 0 with a matching series, and the first at 1 without. -/
def bothThenFirst : List (GroupEvaluation Bool Unit) :=
  [⟨0, [⟨false, some [⟨[], ()⟩]⟩]⟩, ⟨0, [⟨true, some [⟨[], ()⟩]⟩]⟩, ⟨1, [⟨false, some []⟩]⟩]

theorem rule_undisturbed_differentNames :
    callsOf false (evaluateGroups differentNames {} bothThenFirst).2 =
        callsOf false (evaluateGroups differentNames {} (alone false bothThenFirst)).2 ∧
      Agrees (differentNames false).rule (evaluateGroups differentNames {} bothThenFirst).1
        (evaluateGroups differentNames {} (alone false bothThenFirst)).1 :=
  rule_undisturbed differentNames false
    (fun other hne => by cases other with
      | false => exact absurd rfl hne
      | true => decide) bothThenFirst

/-- The alerts that a call dispatches: when each started, and whether it ends. -/
def SinkCall.announced : SinkCall → List (Int64 × Bool)
  | .dispatch alerts => alerts.map fun alert => (alert.startsAtMs, alert.endsAtMs.isSome)
  | _ => []

def announced (calls : List (List SinkCall)) : List (Int64 × Bool) :=
  calls.flatten.flatMap SinkCall.announced

/-- Alone, the first rule fires at 0 and resolves at 1. With the second rule between, the
instance is pending again at 1, and its end is not announced. -/
theorem rule_disturbed :
    announced (callsOf false (evaluateGroups sameName {} (alone false bothThenFirst)).2) =
      [(0, false), (0, true)] ∧
    announced (callsOf false (evaluateGroups sameName {} bothThenFirst).2) = [(0, false)] := by
  decide +kernel

end KrabkaO11y.Ruler
