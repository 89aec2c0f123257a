import KrabkaO11y.Machine.Saturating

/-!
One evaluation of an alerting rule (`crates/promql/src/ruler/alerting/operations.rs`,
`ruler_alert_state.rs`).

An evaluation edits the state of the rule's instances before, between and after calls of
three sinks, and any call may fail and end it. The templates that expand labels and
annotations are a parameter, and the values of the written samples are named rather than
computed as floats.
-/

open Std (ExtTreeMap)

namespace KrabkaO11y.Ruler

open Machine (saturatingSub saturatingAdd)

/-! ### Labels and keys -/

structure LabelPair where
  name : String
  value : String
deriving DecidableEq, Repr

namespace LabelPair

instance : Ord LabelPair := ⟨compareLex (compareOn name) (compareOn value)⟩

instance : Std.TransOrd LabelPair :=
  inferInstanceAs (Std.TransCmp (compareLex (compareOn name) (compareOn value)))

instance : Std.LawfulEqOrd LabelPair where
  eq_of_compare {a b} h := by
    change compareLex (compareOn name) (compareOn value) a b = .eq at h
    simp only [compareLex_eq_eq, compareOn, Std.compare_eq_iff_eq] at h
    cases a
    cases b
    simp_all

end LabelPair

/-- Labels in the order of their names. -/
abbrev PromqlLabels := List LabelPair

namespace PromqlLabels

def remove (labels : PromqlLabels) (name : String) : PromqlLabels :=
  labels.filter fun pair => pair.name ≠ name

def insert (labels : PromqlLabels) (name value : String) : PromqlLabels :=
  (labels.remove name).orderedInsert (fun a b => a.name ≤ b.name) ⟨name, value⟩

end PromqlLabels

/-- Identity of one alert instance in the ruler state. -/
structure AlertStateKey where
  tenant : String
  ruleId : String
  labels : PromqlLabels
deriving DecidableEq, Repr

namespace AlertStateKey

/-- By tenant, then rule, then labels. -/
def order : AlertStateKey → AlertStateKey → Ordering :=
  compareLex (compareOn tenant) (compareLex (compareOn ruleId) (compareOn labels))

instance : Ord AlertStateKey := ⟨order⟩

instance : Std.TransOrd AlertStateKey :=
  inferInstanceAs (Std.TransCmp
    (compareLex (compareOn tenant) (compareLex (compareOn ruleId) (compareOn labels))))

instance : Std.LawfulEqOrd AlertStateKey where
  eq_of_compare {a b} h := by
    change order a b = .eq at h
    simp only [order, compareLex_eq_eq, compareOn, Std.compare_eq_iff_eq] at h
    cases a
    cases b
    simp_all

end AlertStateKey

/-! ### The state -/

/-- Pending and firing instances. An entry of `keepFiringUntilMs` also marks the
instance as fired. -/
structure RulerAlertState where
  activeSinceMs : ExtTreeMap AlertStateKey Int64 := ∅
  keepFiringUntilMs : ExtTreeMap AlertStateKey Int64 := ∅

structure RulerAlertStateRecord where
  tenant : String
  ruleId : String
  labels : PromqlLabels
  activeSinceMs : Option Int64
  keepFiringUntilMs : Option Int64
deriving DecidableEq, Repr

/-- The value of a synthetic sample: `1.0`, a start time in seconds, or the stale marker. -/
inductive AlertSampleValue where
  | one
  | startedAt (startsAtMs : Int64)
  | stale
deriving DecidableEq, Repr

structure WalRecord where
  tenant : String
  labels : PromqlLabels
  timestampMs : Int64
  value : AlertSampleValue
deriving DecidableEq, Repr

structure AlertmanagerAlert where
  labels : PromqlLabels
  annotations : PromqlLabels
  startsAtMs : Int64
  endsAtMs : Option Int64
  generatorUrl : String
deriving DecidableEq, Repr

inductive PromqlError where
  | exec (message : String)
  | sink (message : String)
deriving DecidableEq, Repr

/-- A call of the state sink, the WAL sink or the Alertmanager. -/
inductive SinkCall where
  | persist (record : RulerAlertStateRecord)
  | append (record : WalRecord)
  | dispatch (alerts : List AlertmanagerAlert)
deriving DecidableEq, Repr

/-! ### Synthetic samples -/

def alertsRecord (tenant : String) (labels : PromqlLabels) (alertState : String)
    (value : AlertSampleValue) (evalTimeMs : Int64) : WalRecord where
  tenant := tenant
  labels := (labels.insert "__name__" "ALERTS").insert "alertstate" alertState
  timestampMs := evalTimeMs
  value := value

def alertForStateRecord (tenant : String) (labels : PromqlLabels) (value : AlertSampleValue)
    (evalTimeMs : Int64) : WalRecord where
  tenant := tenant
  labels := (labels.insert "__name__" "ALERTS_FOR_STATE").remove "alertstate"
  timestampMs := evalTimeMs
  value := value

def activeAlertRecords (tenant : String) (labels : PromqlLabels) (alertState : String)
    (startsAtMs evalTimeMs : Int64) : List WalRecord :=
  [alertsRecord tenant labels alertState .one evalTimeMs,
    alertForStateRecord tenant labels (.startedAt startsAtMs) evalTimeMs]

def staleAlertRecords (tenant : String) (labels : PromqlLabels) (alertState : String)
    (evalTimeMs : Int64) : List WalRecord :=
  [alertsRecord tenant labels alertState .stale evalTimeMs,
    alertForStateRecord tenant labels .stale evalTimeMs]

/-! ### The rule and its samples -/

structure AlertingRule where
  tenant : String
  alertName : String
  expr : String
  holdForMs : Int64
  keepFiringForMs : Int64

def AlertingRule.ruleId (rule : AlertingRule) : String := rule.alertName ++ "\n" ++ rule.expr

def AlertingRule.key (rule : AlertingRule) (labels : PromqlLabels) : AlertStateKey :=
  ⟨rule.tenant, rule.ruleId, labels⟩

/-- What the templates of a rule expand to for a sample. -/
structure AlertTemplates (ν : Type) where
  labels : PromqlLabels → ν → Int64 → PromqlLabels
  annotations : PromqlLabels → ν → Int64 → PromqlLabels
  externalUrl : String

structure Sample (ν : Type) where
  labels : PromqlLabels
  value : ν

structure PreparedAlert (ν : Type) where
  storageLabels : PromqlLabels
  labels : PromqlLabels
  value : ν

variable {ν : Type}

/-- The labels of the instance behind a sample. -/
def instanceLabels (rule : AlertingRule) (templates : AlertTemplates ν) (evalTimeMs : Int64)
    (sample : Sample ν) : PromqlLabels :=
  let expanded := templates.labels sample.labels sample.value evalTimeMs
  PromqlLabels.insert
    (expanded.foldl (fun labels pair => labels.insert pair.name pair.value)
      (sample.labels.remove "__name__"))
    "alertname" rule.alertName

def duplicateLabelset : PromqlError :=
  .exec "vector contains metrics with the same labelset after applying alert labels"

/-- The instances behind the samples; two with the same labels are an error. -/
def prepareAlerts (rule : AlertingRule) (templates : AlertTemplates ν) (evalTimeMs : Int64) :
    List (Sample ν) → List PromqlLabels → Except PromqlError (List (PreparedAlert ν))
  | [], _ => .ok []
  | sample :: rest, identities =>
    let labels := instanceLabels rule templates evalTimeMs sample
    if identities.contains labels then .error duplicateLabelset
    else do
      let prepared ← prepareAlerts rule templates evalTimeMs rest (labels :: identities)
      pure (⟨sample.labels, labels, sample.value⟩ :: prepared)

/-! ### One evaluation -/

/-- What an evaluation has worked out before it calls the sinks. -/
structure Tick where
  state : RulerAlertState
  activeKeys : List AlertStateKey := []
  keptFiringKeys : List AlertStateKey := []
  activeRecords : List RulerAlertStateRecord := []
  clearedRecords : List RulerAlertStateRecord := []
  syntheticRecords : List WalRecord := []
  alerts : List AlertmanagerAlert := []

/-- An instance whose series matches: pending until it has held, then firing. -/
def tickActive (rule : AlertingRule) (templates : AlertTemplates ν) (evalTimeMs : Int64)
    (tick : Tick) (prepared : PreparedAlert ν) : Tick :=
  let key := rule.key prepared.labels
  let wasActive := tick.state.activeSinceMs.contains key
  let wasFiring := tick.state.keepFiringUntilMs.contains key
  let startsAtMs := (tick.state.activeSinceMs[key]?).getD evalTimeMs
  let activeSinceMs := tick.state.activeSinceMs.insert key startsAtMs
  if saturatingSub evalTimeMs startsAtMs < rule.holdForMs then
    { tick with
      state := ⟨activeSinceMs, tick.state.keepFiringUntilMs.erase key⟩
      activeKeys := tick.activeKeys ++ [key]
      activeRecords := tick.activeRecords ++
        [⟨rule.tenant, rule.ruleId, prepared.labels, some startsAtMs, none⟩]
      syntheticRecords := tick.syntheticRecords ++
        activeAlertRecords rule.tenant prepared.labels "pending" startsAtMs evalTimeMs }
  else
    let keepFiringUntilMs := saturatingAdd evalTimeMs rule.keepFiringForMs
    { tick with
      state := ⟨activeSinceMs, tick.state.keepFiringUntilMs.insert key keepFiringUntilMs⟩
      activeKeys := tick.activeKeys ++ [key]
      activeRecords := tick.activeRecords ++
        [⟨rule.tenant, rule.ruleId, prepared.labels, some startsAtMs, some keepFiringUntilMs⟩]
      syntheticRecords := tick.syntheticRecords ++
        (if wasActive && !wasFiring then
          [alertsRecord rule.tenant prepared.labels "pending" .stale evalTimeMs] else []) ++
        activeAlertRecords rule.tenant prepared.labels "firing" startsAtMs evalTimeMs
      alerts := tick.alerts ++
        [⟨prepared.labels,
          templates.annotations prepared.storageLabels prepared.value evalTimeMs, startsAtMs, none,
          templates.externalUrl⟩] }

def clearedAlertStateRecord (key : AlertStateKey) : RulerAlertStateRecord :=
  ⟨key.tenant, key.ruleId, key.labels, none, none⟩

/-- An instance whose series stopped matching: kept firing, resolved, or dropped when it
never fired. -/
def tickCleared (rule : AlertingRule) (externalUrl : String) (evalTimeMs : Int64) (tick : Tick)
    (key : AlertStateKey) : Tick :=
  let startsAtMs := (tick.state.activeSinceMs[key]?).getD evalTimeMs
  match tick.state.keepFiringUntilMs[key]? with
  | some untilMs =>
    if evalTimeMs < untilMs then
      { tick with
        keptFiringKeys := tick.keptFiringKeys ++ [key]
        activeRecords := tick.activeRecords ++
          [⟨key.tenant, key.ruleId, key.labels, some startsAtMs, some untilMs⟩]
        syntheticRecords := tick.syntheticRecords ++
          activeAlertRecords rule.tenant key.labels "firing" startsAtMs evalTimeMs
        alerts := tick.alerts ++ [⟨key.labels, [], startsAtMs, none, externalUrl⟩] }
    else
      { tick with
        state := { tick.state with
          keepFiringUntilMs := tick.state.keepFiringUntilMs.erase key }
        clearedRecords := tick.clearedRecords ++ [clearedAlertStateRecord key]
        syntheticRecords := tick.syntheticRecords ++
          staleAlertRecords rule.tenant key.labels "firing" evalTimeMs
        alerts := tick.alerts ++
          [⟨key.labels, [], startsAtMs, some evalTimeMs, externalUrl⟩] }
  | none =>
    { tick with
      clearedRecords := tick.clearedRecords ++ [clearedAlertStateRecord key]
      syntheticRecords := tick.syntheticRecords ++
        staleAlertRecords rule.tenant key.labels "pending" evalTimeMs }

/-- The rule's instances that the samples no longer match. -/
def clearedKeys (rule : AlertingRule) (state : RulerAlertState)
    (activeKeys : List AlertStateKey) : List AlertStateKey :=
  state.activeSinceMs.keys.filter fun key =>
    key.tenant = rule.tenant && key.ruleId = rule.ruleId && !activeKeys.contains key

/-- What an evaluation works out from its samples. -/
def evaluateTick (rule : AlertingRule) (templates : AlertTemplates ν) (evalTimeMs : Int64)
    (state : RulerAlertState) (prepared : List (PreparedAlert ν)) : Tick :=
  let tick := prepared.foldl (tickActive rule templates evalTimeMs) { state := state }
  (clearedKeys rule tick.state tick.activeKeys).foldl
    (tickCleared rule templates.externalUrl evalTimeMs) tick

/-- Keeps the active and the kept firing instances of the rule, and every other rule's. -/
def retainActive (rule : AlertingRule) (tick : Tick) : RulerAlertState :=
  { tick.state with
    activeSinceMs := tick.state.activeSinceMs.filter fun key _ =>
      key.tenant ≠ rule.tenant || key.ruleId ≠ rule.ruleId || tick.activeKeys.contains key ||
        tick.keptFiringKeys.contains key }

/-- Makes some calls in order, until one fails. `failure n` is the failure of the `n`th
call of the evaluation. -/
def callSinks (failure : Nat → Option PromqlError) : Nat → List SinkCall → Except PromqlError Unit
  | _, [] => .ok ()
  | n, _ :: rest =>
    match failure n with
    | some error => .error error
    | none => callSinks failure (n + 1) rest

/-- How an evaluation ended: the state it left, what it dispatched, and its result. -/
structure Evaluation where
  state : RulerAlertState
  dispatched : List AlertmanagerAlert
  result : Except PromqlError Nat

/-- The calls that write the state and the samples. -/
def Tick.writes (tick : Tick) : List SinkCall :=
  (tick.activeRecords ++ tick.clearedRecords).map .persist ++ tick.syntheticRecords.map .append

/-- `evaluate_alerting_rule_with_state_and_sink`, from the samples of the query on. -/
def evaluateAlertingRule (rule : AlertingRule) (templates : AlertTemplates ν)
    (failure : Nat → Option PromqlError) (state : RulerAlertState) (samples : List (Sample ν))
    (evalTimeMs : Int64) : Evaluation :=
  match prepareAlerts rule templates evalTimeMs samples [] with
  | .error error => ⟨state, [], .error error⟩
  | .ok prepared =>
    let tick := evaluateTick rule templates evalTimeMs state prepared
    match callSinks failure 0 tick.writes with
    | .error error => ⟨tick.state, [], .error error⟩
    | .ok () =>
      let state := retainActive rule tick
      if tick.alerts.isEmpty then ⟨state, [], .ok 0⟩
      else
        match callSinks failure tick.writes.length [.dispatch tick.alerts] with
        | .error error => ⟨state, [], .error error⟩
        | .ok () => ⟨state, tick.alerts, .ok tick.alerts.length⟩

end KrabkaO11y.Ruler
