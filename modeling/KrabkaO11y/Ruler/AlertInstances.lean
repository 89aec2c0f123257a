import KrabkaO11y.Collections.Tree
import KrabkaO11y.Ruler.Alerting

/-!
What one evaluation does to each instance, and what it persists
(`crates/promql/src/ruler/alerting/operations.rs`, `ruler_alert_state.rs`).

An instance that matches is active since it first did, and firing once it has held. One
that stopped matching stays as it is while its keep-firing deadline is ahead, and is
dropped otherwise. Applying the persisted records to the state before gives the state
after.
-/

open Std (ExtTreeMap)

namespace KrabkaO11y.Ruler

open PreparedAlert List

open Machine (saturatingSub saturatingAdd)

variable {ν : Type}

/-! ### Applying records -/

def RulerAlertStateRecord.key (record : RulerAlertStateRecord) : AlertStateKey :=
  ⟨record.tenant, record.ruleId, record.labels⟩

namespace RulerAlertState

def applyRecord (state : RulerAlertState) (record : RulerAlertStateRecord) : RulerAlertState :=
  match record.activeSinceMs with
  | some activeSinceMs =>
    { activeSinceMs := state.activeSinceMs.insert record.key activeSinceMs
      keepFiringUntilMs :=
        match record.keepFiringUntilMs with
        | some untilMs => state.keepFiringUntilMs.insert record.key untilMs
        | none => state.keepFiringUntilMs.erase record.key }
  | none =>
    { activeSinceMs := state.activeSinceMs.erase record.key
      keepFiringUntilMs := state.keepFiringUntilMs.erase record.key }

def applyRecords (state : RulerAlertState) (records : List RulerAlertStateRecord) :
    RulerAlertState :=
  records.foldl applyRecord state

theorem ext_getElem? {state state' : RulerAlertState}
    (hact : ∀ key : AlertStateKey, state.activeSinceMs[key]? = state'.activeSinceMs[key]?)
    (hfir : ∀ key : AlertStateKey,
      state.keepFiringUntilMs[key]? = state'.keepFiringUntilMs[key]?) : state = state' := by
  cases state
  cases state'
  rw [mk.injEq]
  exact ⟨ExtTreeMap.ext_getElem? fun key => hact key,
    ExtTreeMap.ext_getElem? fun key => hfir key⟩

variable (state : RulerAlertState) (record : RulerAlertStateRecord) (key : AlertStateKey)

theorem activeSinceMs_applyRecord :
    (state.applyRecord record).activeSinceMs[key]? =
      if record.key = key then record.activeSinceMs else state.activeSinceMs[key]? := by
  rw [applyRecord]
  split <;> rename_i heq <;>
    simp only [ExtTreeMap.getElem?_insert, ExtTreeMap.getElem?_erase, Std.compare_eq_iff_eq, heq]

theorem keepFiringUntilMs_applyRecord :
    (state.applyRecord record).keepFiringUntilMs[key]? =
      if record.key = key then record.activeSinceMs.bind fun _ => record.keepFiringUntilMs
      else state.keepFiringUntilMs[key]? := by
  rw [applyRecord]
  split
  · rename_i heq
    split <;> rename_i hkp <;>
      simp [ExtTreeMap.getElem?_insert, ExtTreeMap.getElem?_erase, heq, hkp]
  · rename_i heq
    simp only [ExtTreeMap.getElem?_erase, Std.compare_eq_iff_eq, heq, Option.bind_none]

@[simp] theorem applyRecords_nil : state.applyRecords [] = state := rfl

theorem applyRecords_append (earlier later : List RulerAlertStateRecord) :
    state.applyRecords (earlier ++ later) = (state.applyRecords earlier).applyRecords later :=
  foldl_append ..

theorem applyRecords_concat (earlier : List RulerAlertStateRecord) :
    state.applyRecords (earlier ++ [record]) = (state.applyRecords earlier).applyRecord record :=
  foldl_append ..

/-- A record of what an instance is already changes nothing. -/
theorem applyRecord_eq_self {state : RulerAlertState} {record : RulerAlertStateRecord}
    (hsome : record.activeSinceMs.isSome)
    (hact : state.activeSinceMs[record.key]? = record.activeSinceMs)
    (hfir : state.keepFiringUntilMs[record.key]? = record.keepFiringUntilMs) :
    state.applyRecord record = state := by
  obtain ⟨since, hsi⟩ := Option.isSome_iff_exists.mp hsome
  refine ext_getElem? (fun key => ?_) fun key => ?_
  · rw [activeSinceMs_applyRecord]
    split
    · rename_i heq
      rw [← heq, hact]
    · rfl
  · rw [keepFiringUntilMs_applyRecord]
    split
    · rename_i heq
      rw [← heq, hfir, hsi, Option.bind_some]
    · rfl

/-- Tombstones drop their instances. -/
theorem applyRecords_cleared (keys : List AlertStateKey) :
    ∀ state : RulerAlertState, ∀ key : AlertStateKey,
      (state.applyRecords (keys.map clearedAlertStateRecord)).activeSinceMs[key]? =
        (if key ∈ keys then none else state.activeSinceMs[key]?) ∧
      (state.applyRecords (keys.map clearedAlertStateRecord)).keepFiringUntilMs[key]? =
        (if key ∈ keys then none else state.keepFiringUntilMs[key]?) := by
  induction keys with
  | nil => simp
  | cons first rest ih =>
    intro state key
    obtain ⟨hact, hfir⟩ := ih (state.applyRecord (clearedAlertStateRecord first)) key
    have hkey : (clearedAlertStateRecord first).key = first := rfl
    rw [map_cons, applyRecords, foldl_cons, ← applyRecords, hact, hfir,
      activeSinceMs_applyRecord, keepFiringUntilMs_applyRecord, hkey]
    simp only [mem_cons, clearedAlertStateRecord, Option.bind_none, eq_comm]
    by_cases heq : first = key <;> by_cases hr : key ∈ rest <;> simp [heq, hr]

end RulerAlertState

open RulerAlertState

/-- Every firing instance is active. -/
def Coupled (state : RulerAlertState) : Prop :=
  ∀ key ∈ state.keepFiringUntilMs, key ∈ state.activeSinceMs

/-! ### The matched instances -/

/-- When an instance that matches became active. -/
def startsAt (state : RulerAlertState) (evalTimeMs : Int64) (key : AlertStateKey) : Int64 :=
  (state.activeSinceMs[key]?).getD evalTimeMs

/-- The keep-firing deadline of an instance that matches, once it has held. -/
def matchedUntil (rule : AlertingRule) (evalTimeMs startsAtMs : Int64) : Option Int64 :=
  if saturatingSub evalTimeMs startsAtMs < rule.holdForMs then none
  else some (saturatingAdd evalTimeMs rule.keepFiringForMs)

section

variable {rule : AlertingRule} {state : RulerAlertState} {evalTimeMs : Int64} {tick : Tick}
  {templates : AlertTemplates ν}

theorem AlertingRule.key_injective {labels labels' : PromqlLabels}
    (h : rule.key labels = rule.key labels') : labels = labels' :=
  congrArg AlertStateKey.labels h

@[simp] theorem activeKeys_tickActive (prepared : PreparedAlert ν) :
    (tickActive rule templates evalTimeMs tick prepared).activeKeys =
      tick.activeKeys ++ [rule.key prepared.labels] := by
  rw [tickActive]
  split <;> rfl

theorem isSome_matchedUntil {startsAtMs : Int64} :
    (matchedUntil rule evalTimeMs startsAtMs).isSome ↔
      rule.holdForMs ≤ saturatingSub evalTimeMs startsAtMs := by
  rw [matchedUntil]
  split
  · simp only [Option.isSome_none, Bool.false_eq_true, false_iff, Std.not_le]
    assumption
  · simp only [Option.isSome_some, true_iff]
    exact Std.not_lt.mp ‹_›

def matchedRecord (rule : AlertingRule) (evalTimeMs startsAtMs : Int64) (labels : PromqlLabels) :
    RulerAlertStateRecord :=
  ⟨rule.tenant, rule.ruleId, labels, some startsAtMs, matchedUntil rule evalTimeMs startsAtMs⟩

/-- What `tickActive` does, through the record that it queues. -/
theorem tickActive_eq (rule : AlertingRule) (templates : AlertTemplates ν) (evalTimeMs : Int64)
    (tick : Tick) (prepared : PreparedAlert ν) :
    let startsAtMs := startsAt tick.state evalTimeMs (rule.key prepared.labels)
    let next := tickActive rule templates evalTimeMs tick prepared
    let record := matchedRecord rule evalTimeMs startsAtMs prepared.labels
    next.state = tick.state.applyRecord record ∧
      next.activeRecords = tick.activeRecords ++ [record] ∧
      next.keptFiringKeys = tick.keptFiringKeys ∧ next.clearedRecords = tick.clearedRecords ∧
      ∀ alert ∈ next.alerts, alert ∈ tick.alerts ∨ (alert.endsAtMs = none ∧
        alert.labels = prepared.labels ∧ (matchedUntil rule evalTimeMs startsAtMs).isSome) := by
  simp only
  rw [tickActive]
  split
  · rename_i hpd
    have hno : matchedUntil rule evalTimeMs
        (startsAt tick.state evalTimeMs (rule.key prepared.labels)) = none := if_pos hpd
    refine ⟨?_, ?_, rfl, rfl, fun alert hal => .inl hal⟩
    · rw [applyRecord, matchedRecord, hno]
      rfl
    · rw [matchedRecord, hno]
      rfl
  · rename_i hfir
    have hsm : matchedUntil rule evalTimeMs
        (startsAt tick.state evalTimeMs (rule.key prepared.labels)) =
          some (saturatingAdd evalTimeMs rule.keepFiringForMs) := if_neg hfir
    refine ⟨?_, ?_, rfl, rfl, fun alert hal => ?_⟩
    · rw [applyRecord, matchedRecord, hsm]
      rfl
    · rw [matchedRecord, hsm]
      rfl
    · rcases mem_append.mp hal with hold | hnew
      · exact .inl hold
      · rw [mem_singleton.mp hnew, hsm]
        exact .inr ⟨rfl, rfl, rfl⟩

/-- The pass over the matched instances, with `done` already passed. -/
structure Matched (rule : AlertingRule) (before : RulerAlertState) (evalTimeMs : Int64)
    (done : List PromqlLabels) (tick : Tick) : Prop where
  keys : tick.activeKeys = done.map rule.key
  active : ∀ key : AlertStateKey, tick.state.activeSinceMs[key]? =
    if key ∈ done.map rule.key then some (startsAt before evalTimeMs key)
    else before.activeSinceMs[key]?
  firing : ∀ key : AlertStateKey, tick.state.keepFiringUntilMs[key]? =
    if key ∈ done.map rule.key then matchedUntil rule evalTimeMs (startsAt before evalTimeMs key)
    else before.keepFiringUntilMs[key]?
  replayed : before.applyRecords tick.activeRecords = tick.state
  kept : tick.keptFiringKeys = []
  cleared : tick.clearedRecords = []
  alerts : ∀ alert ∈ tick.alerts, alert.endsAtMs = none ∧ alert.labels ∈ done ∧
    rule.holdForMs ≤
      saturatingSub evalTimeMs (startsAt before evalTimeMs (rule.key alert.labels))

variable {done : List PromqlLabels}

theorem mem_map_key {labels : PromqlLabels} :
    rule.key labels ∈ done.map rule.key ↔ labels ∈ done :=
  mem_map_of_injective fun _ _ => AlertingRule.key_injective

variable {before : RulerAlertState}

theorem Matched.step
    (h : Matched rule before evalTimeMs done tick) {prepared : PreparedAlert ν}
    (fresh : prepared.labels ∉ done) :
    Matched rule before evalTimeMs (done ++ [prepared.labels])
      (tickActive rule templates evalTimeMs tick prepared) := by
  obtain ⟨hst, hrc, hk, hclr, hale⟩ :=
    tickActive_eq rule templates evalTimeMs tick prepared
  -- The instance was not passed yet, so it starts as it did before the pass.
  have hsta : startsAt tick.state evalTimeMs (rule.key prepared.labels) =
      startsAt before evalTimeMs (rule.key prepared.labels) := by
    rw [startsAt, startsAt, h.active, if_neg (mt mem_map_key.mp fresh)]
  rw [hsta] at hst hrc hale
  have hkey : (matchedRecord rule evalTimeMs (startsAt before evalTimeMs
      (rule.key prepared.labels)) prepared.labels).key = rule.key prepared.labels := rfl
  refine ⟨?_, ?_, ?_, ?_, hk.trans h.kept, hclr.trans h.cleared, ?_⟩
  · rw [activeKeys_tickActive, h.keys, map_append, map_singleton]
  · intro key
    rw [hst, activeSinceMs_applyRecord, hkey, h.active, map_append, map_singleton]
    by_cases heq : rule.key prepared.labels = key
    · subst heq
      simp [matchedRecord]
    · simp [heq, Ne.symm heq]
  · intro key
    rw [hst, keepFiringUntilMs_applyRecord, hkey, h.firing, map_append,
      map_singleton]
    by_cases heq : rule.key prepared.labels = key
    · subst heq
      simp [matchedRecord]
    · simp [heq, Ne.symm heq]
  · rw [hrc, applyRecords_concat, h.replayed, hst]
  · intro alert hal
    rcases hale alert hal with hold | ⟨hen, hlab, hh⟩
    · obtain ⟨hen, hdo, hh⟩ := h.alerts alert hold
      exact ⟨hen, mem_append_left _ hdo, hh⟩
    · rw [hlab]
      exact ⟨hen, mem_append_right _ (mem_singleton.mpr rfl),
        isSome_matchedUntil.mp hh⟩

theorem Matched.foldl :
    ∀ {prepared : List (PreparedAlert ν)} {done : List PromqlLabels} {tick : Tick},
      Matched rule before evalTimeMs done tick →
        (done ++ prepared.map labels).Nodup →
        Matched rule before evalTimeMs (done ++ prepared.map labels)
          (prepared.foldl (tickActive rule templates evalTimeMs) tick) := by
  intro prepared
  induction prepared with
  | nil =>
    intro done tick h _
    rwa [map_nil, append_nil]
  | cons first rest ih =>
    intro done tick h hnd
    rw [map_cons, append_cons] at hnd ⊢
    have hfs : first.labels ∉ done := by
      have := hnd.of_append_left
      rw [nodup_append] at this
      exact fun hmem => this.2.2 _ hmem _ (mem_singleton.mpr rfl) rfl
    exact ih (h.step hfs) hnd

theorem matched_start (before : RulerAlertState) :
    Matched rule before evalTimeMs [] { state := before } where
  keys := rfl
  active key := by simp
  firing key := by simp
  replayed := rfl
  kept := rfl
  cleared := rfl
  alerts alert hal := absurd hal not_mem_nil

/-! ### The instances that stopped matching -/

variable {key : AlertStateKey}

theorem mem_clearedKeys {activeKeys : List AlertStateKey} :
    key ∈ clearedKeys rule state activeKeys ↔
      key ∈ state.activeSinceMs ∧ key = rule.key key.labels ∧ key ∉ activeKeys := by
  simp only [clearedKeys, mem_filter, ExtTreeMap.mem_keys, Bool.and_eq_true,
    decide_eq_true_eq, Bool.not_eq_true', contains_eq_mem, decide_eq_false_iff_not]
  refine and_congr_right fun _ => and_congr_left fun _ => ?_
  constructor
  · rintro ⟨hten, hru⟩
    cases key
    simp_all [AlertingRule.key]
  · intro h
    rw [h]
    exact ⟨rfl, rfl⟩

theorem nodup_clearedKeys (activeKeys : List AlertStateKey) :
    (clearedKeys rule state activeKeys).Nodup :=
  (Collections.nodup_of_ordered state.activeSinceMs.ordered_keys).filter _

/-- The keep-firing deadline of an instance is ahead. -/
def keptFiring (state : RulerAlertState) (evalTimeMs : Int64) (key : AlertStateKey) : Bool :=
  (state.keepFiringUntilMs[key]?).any fun untilMs => decide (evalTimeMs < untilMs)

/-- The end of an instance, or its firing on for now, as its deadline has it. -/
def Announces (state : RulerAlertState) (evalTimeMs : Int64) (key : AlertStateKey)
    (alert : AlertmanagerAlert) : Prop :=
  alert.labels = key.labels ∧ ∃ untilMs, state.keepFiringUntilMs[key]? = some untilMs ∧
    ((alert.endsAtMs = none ∧ evalTimeMs < untilMs) ∨
      (alert.endsAtMs = some evalTimeMs ∧ untilMs ≤ evalTimeMs))

/-- What an instance is. -/
def currentRecord (state : RulerAlertState) (key : AlertStateKey) : RulerAlertStateRecord :=
  ⟨key.tenant, key.ruleId, key.labels, state.activeSinceMs[key]?, state.keepFiringUntilMs[key]?⟩

/-- What `tickCleared` does to an active instance. -/
theorem tickCleared_eq (rule : AlertingRule) (externalUrl : String) (evalTimeMs : Int64)
    (hact : key ∈ tick.state.activeSinceMs) :
    let next := tickCleared rule externalUrl evalTimeMs tick key
    let kept := keptFiring tick.state evalTimeMs key
    next.state.activeSinceMs = tick.state.activeSinceMs ∧
      next.activeKeys = tick.activeKeys ∧
      (∀ other : AlertStateKey, next.state.keepFiringUntilMs[other]? =
        if key = other ∧ kept = false then none else tick.state.keepFiringUntilMs[other]?) ∧
      next.keptFiringKeys = tick.keptFiringKeys ++ (if kept then [key] else []) ∧
      next.clearedRecords =
        tick.clearedRecords ++ (if kept then [] else [clearedAlertStateRecord key]) ∧
      next.activeRecords =
        tick.activeRecords ++ (if kept then [currentRecord tick.state key] else []) ∧
      ∀ alert ∈ next.alerts, alert ∈ tick.alerts ∨ Announces tick.state evalTimeMs key alert := by
  simp only
  rw [tickCleared]
  split
  · rename_i untilMs hun
    split
    · rename_i hah
      have hk : keptFiring tick.state evalTimeMs key = true := by
        rw [keptFiring, hun]
        exact decide_eq_true hah
      rw [hk]
      refine ⟨rfl, rfl, fun other => by simp, rfl, by simp, ?_, fun alert hal => ?_⟩
      · obtain ⟨since, hsi⟩ :=
          Option.isSome_iff_exists.mp (ExtTreeMap.mem_iff_isSome_getElem?.mp hact)
        rw [if_pos rfl, currentRecord, hsi, hun]
        rfl
      · rcases mem_append.mp hal with hold | hnew
        · exact .inl hold
        · rw [mem_singleton.mp hnew]
          exact .inr ⟨rfl, untilMs, hun, .inl ⟨rfl, hah⟩⟩
    · rename_i hov
      have hk : keptFiring tick.state evalTimeMs key = false := by
        rw [keptFiring, hun]
        exact decide_eq_false hov
      rw [hk]
      refine ⟨rfl, rfl, fun other => ?_, by simp, rfl, by simp, fun alert hal => ?_⟩
      · simp only [ExtTreeMap.getElem?_erase, Std.compare_eq_iff_eq, and_true]
      · rcases mem_append.mp hal with hold | hnew
        · exact .inl hold
        · rw [mem_singleton.mp hnew]
          exact .inr ⟨rfl, untilMs, hun, .inr ⟨rfl, Std.not_lt.mp hov⟩⟩
  · rename_i hno
    have hk : keptFiring tick.state evalTimeMs key = false := by
      rw [keptFiring, hno]
      rfl
    rw [hk]
    refine ⟨rfl, rfl, fun other => ?_, by simp, rfl, by simp, fun alert hal => .inl hal⟩
    split
    · rename_i heq
      rw [← heq.1, hno]
    · rfl

/-- The pass over the instances that stopped matching, with `done` already passed. -/
structure Reconciled (matched : Tick) (evalTimeMs : Int64) (done : List AlertStateKey)
    (tick : Tick) : Prop where
  active : tick.state.activeSinceMs = matched.state.activeSinceMs
  activeKeys : tick.activeKeys = matched.activeKeys
  firing : ∀ key : AlertStateKey, tick.state.keepFiringUntilMs[key]? =
    if key ∈ done ∧ keptFiring matched.state evalTimeMs key = false then none
    else matched.state.keepFiringUntilMs[key]?
  kept : ∀ key, key ∈ tick.keptFiringKeys ↔
    key ∈ done ∧ keptFiring matched.state evalTimeMs key = true
  cleared : tick.clearedRecords = (done.filter fun key =>
    !keptFiring matched.state evalTimeMs key).map clearedAlertStateRecord
  replayed : ∃ again, tick.activeRecords = matched.activeRecords ++ again ∧
    matched.state.applyRecords again = matched.state
  alerts : ∀ alert ∈ tick.alerts, alert ∈ matched.alerts ∨
    ∃ key ∈ done, Announces matched.state evalTimeMs key alert

variable {matched : Tick}

theorem reconciled_start (hk : matched.keptFiringKeys = []) (hclr : matched.clearedRecords = []) :
    Reconciled matched evalTimeMs [] matched where
  active := rfl
  activeKeys := rfl
  firing key := by simp
  kept key := by simp [hk]
  cleared := by simp [hclr]
  replayed := ⟨[], by simp, rfl⟩
  alerts alert hal := .inl hal

variable {externalUrl : String}

/-- An instance that was not passed yet is as the pass found it. -/
theorem Reconciled.step {done : List AlertStateKey}
    (h : Reconciled matched evalTimeMs done tick) (hact : key ∈ matched.state.activeSinceMs)
    (fresh : key ∉ done) :
    Reconciled matched evalTimeMs (done ++ [key])
      (tickCleared rule externalUrl evalTimeMs tick key) := by
  have hact' : key ∈ tick.state.activeSinceMs := by
    rw [h.active]
    exact hact
  have hun : tick.state.keepFiringUntilMs[key]? = matched.state.keepFiringUntilMs[key]? := by
    rw [h.firing, if_neg fun hdo => fresh hdo.1]
  have hsm : keptFiring tick.state evalTimeMs key = keptFiring matched.state evalTimeMs key := by
    rw [keptFiring, keptFiring, hun]
  obtain ⟨hst, hks, hfir, hk, hclr, hrc, hale⟩ :=
    tickCleared_eq rule externalUrl evalTimeMs hact'
  rw [hsm] at hfir hk hclr hrc
  refine ⟨hst.trans h.active, hks.trans h.activeKeys, ?_, ?_, ?_, ?_, ?_⟩
  · intro other
    rw [hfir, h.firing]
    by_cases heq : key = other
    · subst heq
      simp [fresh]
    · simp [heq, Ne.symm heq]
  · intro other
    rw [hk, mem_append, h.kept, mem_append, mem_singleton]
    by_cases heq : other = key
    · subst heq
      cases keptFiring matched.state evalTimeMs other <;> simp [fresh]
    · cases keptFiring matched.state evalTimeMs key <;> simp [heq]
  · rw [hclr, h.cleared, filter_append, map_append]
    cases hca : keptFiring matched.state evalTimeMs key <;> simp [hca]
  · obtain ⟨earlier, hear, hid⟩ := h.replayed
    refine ⟨earlier ++ _, by rw [hrc, hear, append_assoc], ?_⟩
    rw [applyRecords_append, hid]
    split
    · refine applyRecord_eq_self ?_ ?_ hun.symm
      · exact ExtTreeMap.mem_iff_isSome_getElem?.mp hact'
      · exact congrArg (·[key]?) h.active.symm
    · rfl
  · intro alert hal
    rcases hale alert hal with hold | ⟨hlab, untilMs, hso, hen⟩
    · rcases h.alerts alert hold with hmat | ⟨other, ho, han⟩
      · exact .inl hmat
      · exact .inr ⟨other, mem_append_left _ ho, han⟩
    · exact .inr ⟨key, mem_append_right _ (mem_singleton.mpr rfl), hlab, untilMs,
        hun ▸ hso, hen⟩

theorem Reconciled.foldl :
    ∀ {keys done : List AlertStateKey} {tick : Tick}, Reconciled matched evalTimeMs done tick →
      (∀ key ∈ keys, key ∈ matched.state.activeSinceMs) → (done ++ keys).Nodup →
      Reconciled matched evalTimeMs (done ++ keys)
        (keys.foldl (tickCleared rule externalUrl evalTimeMs) tick) := by
  intro keys
  induction keys with
  | nil =>
    intro done tick h _ _
    rwa [append_nil]
  | cons key rest ih =>
    intro done tick h hact hnd
    obtain ⟨hkey, hr⟩ := forall_mem_cons.mp hact
    rw [append_cons] at hnd ⊢
    exact ih (h.step hkey (disjoint_singleton.mp
      (disjoint_of_nodup_append hnd.of_append_left))) hr hnd

/-! ### One evaluation -/

variable {prepared : List (PreparedAlert ν)}

/-- The two passes of an evaluation, over instances that match once each. -/
theorem evaluateTick_reconciled (rule : AlertingRule) (templates : AlertTemplates ν)
    (evalTimeMs : Int64) (state : RulerAlertState)
    (nodup : (prepared.map labels).Nodup) :
    ∃ matched : Tick,
      Matched rule state evalTimeMs (prepared.map labels) matched ∧
      Reconciled matched evalTimeMs (clearedKeys rule matched.state matched.activeKeys)
        (evaluateTick rule templates evalTimeMs state prepared) ∧
      evaluateTick rule templates evalTimeMs state prepared =
        (clearedKeys rule matched.state matched.activeKeys).foldl
          (tickCleared rule templates.externalUrl evalTimeMs) matched := by
  have hmat : Matched rule state evalTimeMs (prepared.map labels)
      (prepared.foldl (tickActive rule templates evalTimeMs) { state := state }) :=
    (matched_start state).foldl nodup
  exact ⟨_, hmat, (reconciled_start hmat.kept hmat.cleared).foldl
    (fun key hkey => (mem_clearedKeys.mp hkey).1) (nodup_clearedKeys _), rfl⟩

/-- What an instance of the rule is after an evaluation in which `labels` match. -/
structure Outcome (rule : AlertingRule) (before : RulerAlertState) (evalTimeMs : Int64)
    (labels : List PromqlLabels) (after : RulerAlertState) : Prop where
  active : ∀ key : AlertStateKey, after.activeSinceMs[key]? =
    if key ∈ labels.map rule.key then some (startsAt before evalTimeMs key)
    else if key = rule.key key.labels ∧ keptFiring before evalTimeMs key = false then none
    else before.activeSinceMs[key]?
  firing : ∀ key : AlertStateKey, after.keepFiringUntilMs[key]? =
    if key ∈ labels.map rule.key then matchedUntil rule evalTimeMs (startsAt before evalTimeMs key)
    else if key = rule.key key.labels ∧ keptFiring before evalTimeMs key = false then none
    else before.keepFiringUntilMs[key]?

/-- An alert that an evaluation dispatches: a matched instance that has held, or one that
stopped matching with its deadline ahead or over. -/
def Justified (rule : AlertingRule) (before : RulerAlertState) (evalTimeMs : Int64)
    (labels : List PromqlLabels) (alert : AlertmanagerAlert) : Prop :=
  (alert.endsAtMs = none ∧ alert.labels ∈ labels ∧ rule.holdForMs ≤
      saturatingSub evalTimeMs (startsAt before evalTimeMs (rule.key alert.labels))) ∨
    (alert.labels ∉ labels ∧ Announces before evalTimeMs (rule.key alert.labels) alert)

section Evaluated

variable {before : RulerAlertState} {labels : List PromqlLabels} {matched : Tick}

variable {key : AlertStateKey}

theorem keptFiring_matched (hmat : Matched rule before evalTimeMs labels matched)
    (hkey : key ∉ labels.map rule.key) :
    keptFiring matched.state evalTimeMs key = keptFiring before evalTimeMs key := by
  rw [keptFiring, keptFiring, hmat.firing, if_neg hkey]

theorem mem_clearedKeys_matched (hmat : Matched rule before evalTimeMs labels matched) :
    key ∈ clearedKeys rule matched.state matched.activeKeys ↔
      key ∈ before.activeSinceMs ∧ key = rule.key key.labels ∧ key ∉ labels.map rule.key := by
  rw [mem_clearedKeys, hmat.keys]
  refine and_congr_left fun hkey => ?_
  rw [ExtTreeMap.mem_iff_isSome_getElem?, hmat.active, if_neg hkey.2,
    ExtTreeMap.mem_iff_isSome_getElem?]

theorem key_eq_iff :
    key = rule.key key.labels ↔ key.tenant = rule.tenant ∧ key.ruleId = rule.ruleId := by
  cases key
  simp [AlertingRule.key]

/-- A condition that only takes away what is there may be asked of every key. -/
theorem ite_and_none {α : Type} {held : Option α} {p q : Prop} [Decidable p] [Decidable q]
    (h : ¬ p → held = none) :
    (if p ∧ q then none else held) = if q then none else held := by
  by_cases hp : p
  · simp only [hp, true_and]
  · simp [hp, h hp]

theorem getElem?_of_not_mem {map : ExtTreeMap AlertStateKey Int64} (h : key ∉ map) :
    map[key]? = none := by
  rwa [ExtTreeMap.mem_iff_isSome_getElem?, Bool.not_eq_true, Option.isSome_eq_false_iff,
    Option.isNone_iff_eq_none] at h

theorem Coupled.getElem? (coupled : Coupled before) (h : key ∉ before.activeSinceMs) :
    before.keepFiringUntilMs[key]? = none :=
  getElem?_of_not_mem fun hmem => h (coupled key hmem)

/-- The state after an evaluation, instance by instance. -/
theorem outcome_retainActive (coupled : Coupled before)
    (hmat : Matched rule before evalTimeMs labels matched)
    (reconciled : Reconciled matched evalTimeMs
      (clearedKeys rule matched.state matched.activeKeys) tick) :
    Outcome rule before evalTimeMs labels (retainActive rule tick) := by
  constructor
  · intro key
    rw [retainActive, ExtTreeMap.getElem?_filter', reconciled.active, hmat.active]
    by_cases hkey : key ∈ labels.map rule.key
    · rw [if_pos hkey, if_pos hkey, Option.filter_some_pos]
      simp [reconciled.activeKeys, hmat.keys, hkey]
    · rw [if_neg hkey, if_neg hkey]
      cases hsi : before.activeSinceMs[key]? with
      | none => split <;> rfl
      | some since =>
        have hmem : key ∈ before.activeSinceMs := by
          rw [ExtTreeMap.mem_iff_isSome_getElem?, hsi]
          rfl
        have hk : key ∈ tick.keptFiringKeys ↔
            key = rule.key key.labels ∧ keptFiring before evalTimeMs key = true := by
          rw [reconciled.kept, mem_clearedKeys_matched hmat,
            keptFiring_matched hmat hkey]
          tauto
        have hact : key ∉ tick.activeKeys := by
          rwa [reconciled.activeKeys, hmat.keys]
        rw [Option.filter_some]
        simp only [contains_eq_mem, hact, hk, key_eq_iff]
        cases keptFiring before evalTimeMs key <;>
          by_cases hten : key.tenant = rule.tenant <;>
          by_cases hru : key.ruleId = rule.ruleId <;> simp [hten, hru]
  · intro key
    change tick.state.keepFiringUntilMs[key]? = _
    rw [reconciled.firing, hmat.firing]
    simp only [mem_clearedKeys_matched hmat]
    by_cases hkey : key ∈ labels.map rule.key
    · simp [hkey]
    · rw [if_neg hkey, if_neg hkey, keptFiring_matched hmat hkey]
      simp only [hkey, not_false_eq_true, and_true, and_assoc]
      exact ite_and_none coupled.getElem?

/-- Applying what an evaluation persists gives the state that it leaves. -/
theorem applyRecords_evaluateTick (coupled : Coupled before)
    (hmat : Matched rule before evalTimeMs labels matched)
    (reconciled : Reconciled matched evalTimeMs
      (clearedKeys rule matched.state matched.activeKeys) tick) :
    before.applyRecords (tick.activeRecords ++ tick.clearedRecords) = retainActive rule tick := by
  have hout := outcome_retainActive coupled hmat reconciled
  obtain ⟨again, hag, hid⟩ := reconciled.replayed
  rw [applyRecords_append, hag, applyRecords_append, hmat.replayed, hid,
    reconciled.cleared]
  have hmem : ∀ key : AlertStateKey, key ∉ labels.map rule.key →
      (key ∈ (clearedKeys rule matched.state matched.activeKeys).filter (fun key =>
        !keptFiring matched.state evalTimeMs key) ↔ key ∈ before.activeSinceMs ∧
          key = rule.key key.labels ∧ keptFiring before evalTimeMs key = false) := by
    intro key hkey
    rw [mem_filter, mem_clearedKeys_matched hmat, keptFiring_matched hmat hkey,
      Bool.not_eq_true']
    tauto
  have hma : ∀ key : AlertStateKey, key ∈ labels.map rule.key →
      key ∉ (clearedKeys rule matched.state matched.activeKeys).filter (fun key =>
        !keptFiring matched.state evalTimeMs key) := fun key hkey hclr =>
    ((mem_clearedKeys_matched hmat).mp (mem_of_mem_filter hclr)).2.2 hkey
  refine ext_getElem? (fun key => ?_) fun key => ?_
  · rw [(applyRecords_cleared _ matched.state key).1, hout.active, hmat.active]
    by_cases hkey : key ∈ labels.map rule.key
    · rw [if_neg (hma key hkey), if_pos hkey, if_pos hkey]
    · simp only [hmem key hkey, if_neg hkey]
      exact ite_and_none getElem?_of_not_mem
  · rw [(applyRecords_cleared _ matched.state key).2, hout.firing, hmat.firing]
    by_cases hkey : key ∈ labels.map rule.key
    · rw [if_neg (hma key hkey), if_pos hkey, if_pos hkey]
    · simp only [hmem key hkey, if_neg hkey]
      exact ite_and_none coupled.getElem?

theorem justified_of_mem_alerts (hmat : Matched rule before evalTimeMs labels matched)
    (reconciled : Reconciled matched evalTimeMs
      (clearedKeys rule matched.state matched.activeKeys) tick)
    {alert : AlertmanagerAlert} (halert : alert ∈ tick.alerts) :
    Justified rule before evalTimeMs labels alert := by
  rcases reconciled.alerts alert halert with hold | ⟨key, hkey, hlab, untilMs, hsm, hen⟩
  · exact .inl (hmat.alerts alert hold)
  · obtain ⟨-, hnm, hunm⟩ := (mem_clearedKeys_matched hmat).mp hkey
    have heq : rule.key alert.labels = key := by rw [hlab, ← hnm]
    rw [hmat.firing, if_neg hunm] at hsm
    rw [← heq] at hunm hsm
    exact .inr ⟨mt mem_map_key.mpr hunm, rfl, untilMs, hsm, hen⟩

/-- An evaluation leaves every firing instance active. -/
theorem Outcome.coupled {after : RulerAlertState} (hcoupled : Coupled before)
    (h : Outcome rule before evalTimeMs labels after) : Coupled after := by
  intro key hfir
  rw [ExtTreeMap.mem_iff_isSome_getElem?] at hfir ⊢
  rw [h.firing] at hfir
  rw [h.active]
  split
  · rfl
  · rename_i hkey
    rw [if_neg hkey] at hfir
    split
    · rename_i hdr
      rw [if_pos hdr] at hfir
      exact hfir
    · rename_i hdr
      rw [if_neg hdr, ← ExtTreeMap.mem_iff_isSome_getElem?] at hfir
      exact ExtTreeMap.mem_iff_isSome_getElem?.mp (hcoupled key hfir)

end Evaluated

variable {identities : List PromqlLabels} {samples : List (Sample ν)}

theorem labels_of_prepareAlerts
    (h : prepareAlerts rule templates evalTimeMs samples identities = .ok prepared) :
    prepared.map labels = samples.map (instanceLabels rule templates evalTimeMs) := by
  induction samples generalizing identities prepared with
  | nil =>
    obtain rfl : [] = prepared := Except.ok.inj h
    rfl
  | cons sample rest ih =>
    rw [prepareAlerts] at h
    split at h
    · cases h
    · cases hr : prepareAlerts rule templates evalTimeMs rest
          (instanceLabels rule templates evalTimeMs sample :: identities) with
      | error error => rw [hr] at h; cases h
      | ok tail =>
        rw [hr] at h
        cases h
        rw [map_cons, map_cons, ih hr]

/-- Two samples whose instances have the same labels are an error, and the only one. -/
theorem isOk_prepareAlerts :
    (prepareAlerts rule templates evalTimeMs samples identities).isOk = true ↔
      (samples.map (instanceLabels rule templates evalTimeMs)).Nodup ∧
        ∀ labels ∈ samples.map (instanceLabels rule templates evalTimeMs), labels ∉ identities := by
  induction samples generalizing identities with
  | nil => simp [prepareAlerts, Except.isOk, Except.toBool]
  | cons sample rest ih =>
    have bind_isOk : ∀ (rest : Except PromqlError (List (PreparedAlert ν)))
      (first : PreparedAlert ν),
        (do let prepared ← rest; pure (first :: prepared)).isOk = rest.isOk := by
      intro rest first
      cases rest <;> rfl
    rw [prepareAlerts]
    split
    · rename_i known
      have known : instanceLabels rule templates evalTimeMs sample ∈ identities := by
        simpa using known
      simp [Except.isOk, Except.toBool, known]
    · rename_i fresh
      have fresh : instanceLabels rule templates evalTimeMs sample ∉ identities := by
        simpa using fresh
      rw [bind_isOk, ih]
      rw [map_cons, nodup_cons, forall_mem_cons]
      constructor
      · rintro ⟨distinct, apart⟩
        exact ⟨⟨fun mem => apart _ mem mem_cons_self, distinct⟩, fresh,
          fun labels mem => not_mem_of_not_mem_cons (apart labels mem)⟩
      · rintro ⟨⟨absent, distinct⟩, -, apart⟩
        exact ⟨distinct, fun labels mem =>
          not_mem_cons_of_ne_of_not_mem (fun eq => absent (eq ▸ mem)) (apart labels mem)⟩

theorem nodup_of_prepareAlerts
    (h : prepareAlerts rule templates evalTimeMs samples identities = .ok prepared) :
    (prepared.map labels).Nodup := by
  rw [labels_of_prepareAlerts h]
  exact (isOk_prepareAlerts.mp (by rw [h]; rfl)).1

end

/-! ### Successful evaluations -/

theorem callSinks_ok {failure : Nat → Option PromqlError} (h : ∀ n, failure n = none) :
    ∀ (calls : List SinkCall) (n : Nat), callSinks failure n calls = .ok () := by
  intro calls
  induction calls with
  | nil => intro n; rfl
  | cons call rest ih => intro n; rw [callSinks, h n]; exact ih (n + 1)

/-- An evaluation of some rule. -/
structure RuleEvaluation (ν : Type) where
  rule : AlertingRule
  templates : AlertTemplates ν
  samples : List (Sample ν)
  evalTimeMs : Int64

namespace RuleEvaluation

variable (event : RuleEvaluation ν) (state : RulerAlertState)

/-- The labels of the instances that match. -/
def matching : List PromqlLabels :=
  event.samples.map (instanceLabels event.rule event.templates event.evalTimeMs)

/-- The evaluation with no failing sink. -/
def evaluate : Evaluation :=
  evaluateAlertingRule event.rule event.templates (fun _ => none) state event.samples
    event.evalTimeMs

/-- The calls of the sinks that the evaluation makes, in order. -/
def calls : List SinkCall :=
  match prepareAlerts event.rule event.templates event.evalTimeMs event.samples [] with
  | .error _ => []
  | .ok prepared =>
    let tick := evaluateTick event.rule event.templates event.evalTimeMs state prepared
    tick.writes ++ if tick.alerts.isEmpty then [] else [.dispatch tick.alerts]

end RuleEvaluation

/-- The record of a call that persists one. -/
def SinkCall.persisted? : SinkCall → Option RulerAlertStateRecord
  | .persist record => some record
  | _ => none

/-- The records that an evaluation persists. -/
def RuleEvaluation.persisted (event : RuleEvaluation ν) (state : RulerAlertState) :
    List RulerAlertStateRecord :=
  (event.calls state).filterMap SinkCall.persisted?

namespace RuleEvaluation

variable {event : RuleEvaluation ν} {state : RulerAlertState}

theorem evaluate_error {error : PromqlError}
    (h : prepareAlerts event.rule event.templates event.evalTimeMs event.samples [] =
      .error error) : event.evaluate state = ⟨state, [], .error error⟩ := by
  rw [evaluate, evaluateAlertingRule, h]

theorem evaluate_ok {prepared : List (PreparedAlert ν)}
    (h : prepareAlerts event.rule event.templates event.evalTimeMs event.samples [] =
      .ok prepared) :
    let tick := evaluateTick event.rule event.templates event.evalTimeMs state prepared
    event.evaluate state =
      ⟨retainActive event.rule tick, tick.alerts, .ok tick.alerts.length⟩ := by
  simp only
  rw [evaluate, evaluateAlertingRule, h]
  simp only [callSinks_ok (fun _ => rfl)]
  split
  · rename_i hem
    rw [List.isEmpty_iff.mp hem]
    rfl
  · rfl

theorem persisted_ok {prepared : List (PreparedAlert ν)}
    (h : prepareAlerts event.rule event.templates event.evalTimeMs event.samples [] =
      .ok prepared) :
    let tick := evaluateTick event.rule event.templates event.evalTimeMs state prepared
    event.persisted state = tick.activeRecords ++ tick.clearedRecords := by
  simp only
  rw [persisted, calls, h]
  simp only [filterMap_append, Tick.writes, filterMap_map]
  have hpe : (SinkCall.persisted? ∘ SinkCall.persist) = some := rfl
  have hap : (SinkCall.persisted? ∘ SinkCall.append) = fun _ => none := rfl
  rw [hpe, hap, filterMap_some]
  split <;> simp [SinkCall.persisted?]

/-- What an evaluation with no failing sink does, to the state, to the log and to the
Alertmanager. -/
structure Spec (event : RuleEvaluation ν) (state : RulerAlertState) : Prop where
  coupled : Coupled (event.evaluate state).state
  replayed : state.applyRecords (event.persisted state) = (event.evaluate state).state
  outcome : (¬ event.matching.Nodup ∧ (event.evaluate state).state = state ∧
      (event.evaluate state).dispatched = []) ∨
    event.matching.Nodup ∧
      Outcome event.rule state event.evalTimeMs event.matching (event.evaluate state).state
  dispatched : ∀ alert ∈ (event.evaluate state).dispatched,
    Justified event.rule state event.evalTimeMs event.matching alert

theorem spec (hcoupled : Coupled state) : event.Spec state := by
  have distinct : (prepareAlerts event.rule event.templates event.evalTimeMs event.samples
      []).isOk = true ↔ event.matching.Nodup := by
    simp [isOk_prepareAlerts, matching]
  cases hpr : prepareAlerts event.rule event.templates event.evalTimeMs event.samples [] with
  | error error =>
    have heq : event.evaluate state = ⟨state, [], .error error⟩ := evaluate_error hpr
    have hno : event.persisted state = [] := by
      rw [persisted, calls, hpr]
      rfl
    constructor
    case coupled => rwa [heq]
    case replayed => rw [heq, hno]; rfl
    case outcome =>
      refine .inl ⟨?_, by rw [heq], by rw [heq]⟩
      rw [← distinct, hpr]
      exact Bool.false_ne_true
    case dispatched => rw [heq]; exact nofun
  | ok prepared =>
    have hlab := labels_of_prepareAlerts hpr
    have hnd : event.matching.Nodup := distinct.mp (by rw [hpr]; rfl)
    obtain ⟨matched, hmat, hre, -⟩ := evaluateTick_reconciled event.rule
      event.templates event.evalTimeMs state (nodup_of_prepareAlerts hpr)
    rw [hlab, ← matching] at hmat
    have heq : event.evaluate state = _ := evaluate_ok hpr
    have hout := outcome_retainActive hcoupled hmat hre
    constructor
    case coupled => rw [heq]; exact hout.coupled hcoupled
    case replayed =>
      rw [heq, persisted_ok hpr]
      exact applyRecords_evaluateTick hcoupled hmat hre
    case outcome => rw [heq]; exact .inr ⟨hnd, hout⟩
    case dispatched =>
      rw [heq]
      exact fun alert hal => justified_of_mem_alerts hmat hre hal

end RuleEvaluation

end KrabkaO11y.Ruler
