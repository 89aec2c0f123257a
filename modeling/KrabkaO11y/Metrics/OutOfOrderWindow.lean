import KrabkaO11y.Metrics.IngestGates

/-!
The verdicts of the out-of-order gate (`enforce_out_of_order_window` in
`crates/metrics/src/distributor/ingest_gates.rs`).

The gate holds a push against the newest sample of each of its series, less the window. The
difference is an `i64` and wraps below its least value: one accepted sample that is close
enough to it turns away every later push of its series. Where the timestamps stay a window
above it, the gate accepts the pushes that are in the window and no others.
-/

open Std (ExtTreeMap)

namespace KrabkaO11y.Metrics

open SeriesTracker List
open Concurrent (System.Reachable System.run System.Meets)

namespace DistributorConfig

variable (config : DistributorConfig)

/-- No series of the push reaches back further than the window. -/
def InWindow (tracked : TenantSeries) (windowMs : Int64) (series : List DecodedSeries) : Prop :=
  config.EachKnown tracked series fun latest bounds =>
    latest.toInt - windowMs.toInt ≤ bounds.minMs.toInt

/-- The bound wraps for a series of the push and comes to lie above its samples. -/
def Wraps (tracked : TenantSeries) (windowMs : Int64) (series : List DecodedSeries) : Prop :=
  ¬ config.EachKnown tracked series fun latest bounds =>
    latest.toInt - windowMs.toInt < -2 ^ 63 → latest - windowMs ≤ bounds.minMs

end DistributorConfig

/-- The newest sample that the tracker holds of a tenant's series. -/
def latestOf (tenants : ExtTreeMap String TenantSeries) (name : String) (fp : Nat) :
    Option Int64 :=
  (tenants[name]?).bind fun tenant => tenant.latest fp

/-! ### The newest samples -/

/-- Touching a series leaves its newest sample. -/
theorem latest_touch (tracked : TenantSeries) (fp now other : Nat) :
    (tracked.touch fp now).latest other = tracked.latest other := by
  rw [TenantSeries.latest, TenantSeries.touch, ExtTreeMap.getElem?_insert, TenantSeries.latest]
  split
  · rename_i heq
    obtain rfl := Std.compare_eq_iff_eq.mp heq
    cases tracked.series[fp]? <;> rfl
  · rfl

theorem latest_touchAll (now : Nat) (fingerprints : List Nat) (other : Nat) :
    ∀ tracked : TenantSeries, (touchAll now tracked fingerprints).latest other =
      tracked.latest other := by
  induction fingerprints with
  | nil => exact fun _ => rfl
  | cons first rest ih => exact fun tracked => (ih _).trans (latest_touch tracked first now other)

/-- An update raises the newest sample of its own series. -/
theorem latest_applyUpdate (now : Nat) (tracked : TenantSeries) (update : SeriesTimestampUpdate)
    (other : Nat) : (applyUpdate now tracked update).latest other =
      if update.fingerprint = other then
        some ((tracked.latest other).elim update.maxTimestamp (max · update.maxTimestamp))
      else tracked.latest other := by
  rw [TenantSeries.latest, applyUpdate, ExtTreeMap.getElem?_insert]
  simp only [Std.compare_eq_iff_eq]
  split
  · rename_i heq
    subst heq
    have hlatest := latest_touch tracked update.fingerprint now update.fingerprint
    rw [← hlatest, TenantSeries.latest]
    cases (tracked.touch update.fingerprint now).series[update.fingerprint]? <;> rfl
  · exact latest_touch tracked update.fingerprint now other

/-- After some updates the newest sample is the greatest seen. -/
theorem latest_foldl_applyUpdate (now : Nat) (other : Nat) {updates : List SeriesTimestampUpdate} :
    ∀ {tracked : TenantSeries}, (updates.foldl (applyUpdate now) tracked).latest other =
      ((tracked.latest other).toList ++ (updates.filter (·.fingerprint = other)).map
        SeriesTimestampUpdate.maxTimestamp).max? := by
  induction updates with
  | nil => intro tracked; cases h : tracked.latest other <;> simp [h]
  | cons update rest ih =>
    intro tracked
    rw [foldl_cons, ih, latest_applyUpdate]
    by_cases heq : update.fingerprint = other
    · rw [if_pos heq, filter_cons, if_pos (decide_eq_true heq), map_cons]
      cases tracked.latest other with
      | none => rfl
      | some latest =>
        simp only [Option.elim_some, Option.toList_some, singleton_append, max?_cons',
          foldl_cons]
    · simp [heq]

/-! ### Entering the tracker -/

/-- Newest samples are forgotten, never changed. -/
def Forgets (before after : ExtTreeMap String TenantSeries) : Prop :=
  ∀ name fp, latestOf after name fp = latestOf before name fp ∨
    latestOf after name fp = none

theorem latestOf_insert (tenants : ExtTreeMap String TenantSeries) (tenant name : String)
    (entry : TenantSeries) (fp : Nat) :
    latestOf (tenants.insert tenant entry) name fp =
      if tenant = name then entry.latest fp else latestOf tenants name fp := by
  rw [latestOf, getElem?_insert_tenant]
  split <;> rfl

namespace Distributor

variable {config : DistributorConfig} {tracker : SeriesTrackerState} {tenant : String}
  {series : List DecodedSeries} {tracked : TenantSeries} {windowMs : Int64}

/-- Entering may forget a newest sample and changes none. -/
theorem forgets_enter (config : DistributorConfig) (tracker : SeriesTrackerState) (tenant : String)
    (now : Nat) :
    Forgets tracker.tenants (config.enter tracker tenant now).tenants := by
  have hlatest (tenants : ExtTreeMap String TenantSeries) (name : String) (fp : Nat) :
      latestOf tenants name fp =
        (activityOf tenants name fp).bind SeriesActivity.latestSampleMs := by
    rw [latestOf, activityOf]
    cases tenants[name]? <;> rfl
  intro name fp
  rw [hlatest, hlatest, DistributorConfig.enter]
  rcases drops_enter config.maxTenants tracker tenant
    (config.limits tenant).activeSeriesIdleTimeoutNs now name fp with heq | hno
  · exact .inl (by rw [heq])
  · exact .inr (by rw [hno, Option.bind_none])

/-! ### The verdict -/

/-- In `i64` the bound is passed where it is passed without it wrapping, and either does not
wrap or is passed all the same. -/
theorem sub_le_iff (hwindow : 0 ≤ windowMs.toInt) {latest least : Int64} :
    latest - windowMs ≤ least ↔ latest.toInt - windowMs.toInt ≤ least.toInt ∧
      (latest.toInt - windowMs.toInt < -2 ^ 63 → latest - windowMs ≤ least) := by
  by_cases hwr : latest.toInt - windowMs.toInt < -2 ^ 63
  · have hle : latest.toInt - windowMs.toInt ≤ least.toInt := by
      have := least.le_toInt
      omega
    exact ⟨fun h => ⟨hle, fun _ => h⟩, fun h => h.2 hwr⟩
  · have hsub : (latest - windowMs).toInt = latest.toInt - windowMs.toInt := by
      have := latest.toInt_lt
      rw [Int64.toInt_sub, Int.bmod_eq_of_le (by omega) (by omega)]
    rw [Int64.le_iff_toInt_le, hsub]
    exact ⟨fun h => ⟨h, fun hlt => absurd hlt hwr⟩, And.left⟩

/-- What the gate computes is the window, unless a bound wraps. -/
theorem eachKnown_iff (hwindow : 0 ≤ windowMs.toInt) :
    (config.EachKnown tracked series fun latest bounds => latest - windowMs ≤ bounds.minMs) ↔
      config.InWindow tracked windowMs series ∧ ¬ config.Wraps tracked windowMs series := by
  rw [DistributorConfig.Wraps, not_not, DistributorConfig.InWindow]
  simp only [DistributorConfig.EachKnown, ← forall_and, ← sub_le_iff hwindow]

section Gate

variable (hlimit : 0 ≤ (config.limits tenant).outOfOrderTimeWindow) (clockUncertainty : Int)

include hlimit

/-- A window that is checked is not negative. -/
theorem windowMs_nonneg : 0 ≤ (config.windowMs tracked tenant clockUncertainty).toInt := by
  refine config.millisI64_nonneg _ ?_
  omega

/-- What the gate answers and leaves behind. -/
theorem enforceOutOfOrderWindow_cases (tracker : SeriesTrackerState)
    (series : List DecodedSeries) (now : Nat) :
    let tracked := config.tracked tracker tenant now
    let window := config.windowMs tracked tenant clockUncertainty
    let outcome := config.enforceOutOfOrderWindow tracker tenant series clockUncertainty now
    let entered := config.enter tracker tenant now
    (outcome.2 = .ok () ↔
        config.InWindow tracked window series ∧ ¬ config.Wraps tracked window series) ∧
      (outcome.2 = .ok () → outcome.1.tenants = entered.tenants.insert tenant
        ((config.updates series).foldl (applyUpdate now) tracked)) ∧
      (outcome.2 ≠ .ok () → outcome.1 = entered) := by
  intro tracked window outcome entered
  rw [← eachKnown_iff (windowMs_nonneg hlimit clockUncertainty)]
  have houtcome : outcome = config.enforceOutOfOrderWindow tracker tenant series
    clockUncertainty now := rfl
  rw [DistributorConfig.enforceOutOfOrderWindow, if_neg (not_lt.mpr hlimit)] at houtcome
  simp only [getD_enter] at houtcome
  cases hcollect : config.collectUpdates tracked window series with
  | error error =>
    rw [hcollect] at houtcome
    rw [houtcome]
    refine ⟨iff_of_false (by simp) fun hall => ?_, by simp, fun _ => rfl⟩
    cases hcollect.symm.trans (collectUpdates_eq_ok.mpr ⟨hall, rfl⟩)
  | ok updates =>
    rw [hcollect] at houtcome
    obtain ⟨hall, rfl⟩ := collectUpdates_eq_ok.mp hcollect
    rw [houtcome]
    exact ⟨iff_of_true rfl hall, fun _ => rfl, fun hne => absurd rfl hne⟩

end Gate

/-! ### Histories -/

/-- No newest sample lies below a floor. -/
def Floored (floor : Int) (tenants : ExtTreeMap String TenantSeries) : Prop :=
  ∀ name fp, ∀ latest ∈ latestOf tenants name fp, floor ≤ latest.toInt

/-- No push that takes the gate carries a sample below a floor. -/
def Above (config : DistributorConfig) (floor : Int) (s : Distributor) : GateEvent → Prop
  | .outOfOrder index _ => ∀ push ∈ s.pending[index]?, ∀ update ∈ config.updates push.series,
      floor ≤ update.maxTimestamp.toInt
  | _ => True

instance decidableAbove (config : DistributorConfig) (floor : Int) (s : Distributor) :
    (event : GateEvent) → Decidable (s.Above config floor event)
  | .outOfOrder index _ => inferInstanceAs (Decidable (∀ push ∈ s.pending[index]?, _))
  | .activeSeries _ | .abandon _ | .clockUncertainty .. => .isTrue trivial

variable {floor : Int} {s s' : Distributor}

theorem Floored.forget {before after : ExtTreeMap String TenantSeries} (h : Floored floor before)
    (hforgets : Forgets before after) : Floored floor after := by
  intro name fp latest hlatest
  rcases hforgets name fp with heq | hno
  · exact h name fp latest (heq ▸ hlatest)
  · exact absurd (hno ▸ hlatest) nofun

/-- An entry for the tenant that was entered. -/
theorem Floored.edit {now : Nat} (h : Floored floor tracker.tenants) {entry : TenantSeries}
    (he : ∀ fp, ∀ latest ∈ entry.latest fp, floor ≤ latest.toInt ∨
      latest ∈ (config.tracked tracker tenant now).latest fp) :
    Floored floor ((config.enter tracker tenant now).tenants.insert tenant entry) := by
  have hent := h.forget (forgets_enter config tracker tenant now)
  intro name fp latest hlatest
  rw [latestOf_insert] at hlatest
  split at hlatest
  · refine (he fp latest hlatest).elim id fun hold => hent tenant fp latest ?_
    rw [latestOf, getElem?_enter_tracked]
    exact hold
  · exact hent name fp latest hlatest

/-- A step whose samples stay above the floor keeps the newest ones above it. -/
theorem Floored.step (h : Floored floor s.tracker.tenants) {event : GateEvent}
    (hab : s.Above config floor event) (hs : s.step config event = some s') :
    Floored floor s'.tracker.tenants := by
  cases event with
  | activeSeries push =>
    cases hs
    dsimp only
    rw [DistributorConfig.enforceAndRecordActiveSeries]
    simp only [getD_enter]
    split
    · exact h.forget (forgets_enter _ _ _ _)
    · exact h.edit fun _ latest hlatest => .inr (by rwa [latest_touchAll] at hlatest)
  | outOfOrder index clockUncertainty =>
    obtain ⟨push, hpu, rfl⟩ := Option.map_eq_some_iff.mp hs
    by_cases hlimit : 0 ≤ (config.limits push.tenant).outOfOrderTimeWindow
    · obtain ⟨-, haccepted, hrejected⟩ := enforceOutOfOrderWindow_cases hlimit clockUncertainty
        s.tracker push.series push.now
      by_cases hok : (config.enforceOutOfOrderWindow s.tracker push.tenant push.series
        clockUncertainty push.now).2 = .ok ()
      · rw [haccepted hok]
        refine h.edit fun fp latest hlatest => ?_
        rw [latest_foldl_applyUpdate] at hlatest
        have : Std.MaxEqOr Int64 := ⟨fun a b => (ite_eq_or_eq (a ≤ b) b a).symm⟩
        rcases mem_append.mp (max?_mem hlatest) with hold | hnew
        · exact .inr (Option.mem_toList.mp hold)
        · obtain ⟨update, hupdate, rfl⟩ := mem_map.mp hnew
          exact .inl (hab push hpu update (mem_filter.mp hupdate).1)
      · rw [hrejected hok]
        exact h.forget (forgets_enter _ _ _ _)
    · rw [DistributorConfig.enforceOutOfOrderWindow, if_pos (not_le.mp hlimit)]
      exact h
  | abandon index =>
    obtain ⟨push, hpu, rfl⟩ := Option.map_eq_some_iff.mp hs
    exact h
  | clockUncertainty tenant uncertainty now =>
    cases hs
    dsimp only
    rw [DistributorConfig.recordClockUncertainty]
    simp only [getD_enter]
    exact h.edit fun _ _ hlatest => .inr hlatest

/-- A window that fits between the floor and the least `i64` does not wrap. -/
theorem Floored.not_wraps (h : Floored floor tracker.tenants) {now : Nat}
    (hft : windowMs.toInt ≤ floor + 2 ^ 63) :
    ¬ config.Wraps (config.tracked tracker tenant now) windowMs series := by
  rw [DistributorConfig.Wraps, not_not]
  intro entry _ bounds _ latest hlatest hwr
  have hfl := h.forget (forgets_enter config tracker tenant now) tenant
    (config.fingerprint entry.labels) latest (by rwa [latestOf, getElem?_enter_tracked])
  omega

/-- The gate accepts the pushes that are in the window exactly where no bound wraps above the
samples. An accepted push raises the newest samples of its series to the newest seen, a
rejected push changes none, and entering the tracker at most forgets some. In a history
whose samples stay a window above the least `i64` every push in the window is accepted. -/
theorem out_of_order_gate_right_iff
    (hlimit : 0 ≤ (config.limits tenant).outOfOrderTimeWindow) (tracker : SeriesTrackerState)
    (series : List DecodedSeries) (clockUncertainty : Int) (now : Nat) :
    let entered := config.enter tracker tenant now
    let tracked := config.tracked tracker tenant now
    let window := config.windowMs tracked tenant clockUncertainty
    let outcome := config.enforceOutOfOrderWindow tracker tenant series clockUncertainty now
    ((outcome.2 = .ok () ↔ config.InWindow tracked window series) ↔
        (config.InWindow tracked window series → ¬ config.Wraps tracked window series)) ∧
      (outcome.2 = .ok () → ∀ name fp, latestOf outcome.1.tenants name fp =
        if tenant = name then
          ((latestOf entered.tenants name fp).toList ++ ((config.updates series).filter
            (·.fingerprint = fp)).map SeriesTimestampUpdate.maxTimestamp).max?
        else latestOf entered.tenants name fp) ∧
      (outcome.2 ≠ .ok () → ∀ name fp, latestOf outcome.1.tenants name fp =
        latestOf entered.tenants name fp) ∧
      Forgets tracker.tenants entered.tenants ∧
      ∀ floor s, System.Reachable (step config) Started (Above config floor) s →
        s.tracker = tracker → window.toInt ≤ floor + 2 ^ 63 →
          (outcome.2 = .ok () ↔ config.InWindow tracked window series) := by
  intro entered tracked window outcome
  obtain ⟨hverdict, haccepted, hrejected⟩ :=
    enforceOutOfOrderWindow_cases hlimit clockUncertainty tracker series now
  refine ⟨?_, ?_, ?_, forgets_enter _ _ _ _, ?_⟩
  · rw [hverdict]
    tauto
  · intro hok name fp
    rw [haccepted hok, latestOf_insert]
    split
    · rename_i heq
      rw [latest_foldl_applyUpdate, ← heq, latestOf, getElem?_enter_tracked]
      rfl
    · rfl
  · intro her name fp
    rw [hrejected her]
  · rintro floor s hreached rfl hfits
    have hfloored : Floored floor s.tracker.tenants := by
      refine hreached.invariant (P := fun s => Floored floor s.tracker.tenants)
        (fun s hstarted => ?_)
        fun s event s' h hab hstep => h.step hab hstep
      rw [hstarted.1]
      exact fun _ _ _ hlatest => absurd hlatest (by simp [latestOf])
    rw [hverdict]
    exact and_iff_left (hfloored.not_wraps hfits)

/-! ### One series, with a window of a millisecond -/

def windowConfig : DistributorConfig where
  maxTenants := 1
  limits := fun _ => ⟨0, 0, 1⟩
  fingerprint := List.length
  millisI64 := Machine.saturate
  millisI64_nonneg _ := Machine.saturate_nonneg

def seriesAt (timestampMs : Int64) : DecodedSeries := ⟨[], [timestampMs], [], []⟩

/-- A sample that passes both gates. -/
def pushedAt (timestampMs : Int64) : List GateEvent :=
  [.activeSeries ⟨"a", [seriesAt timestampMs], 0⟩, .outOfOrder 0 0]

def afterPushAt (timestampMs : Int64) : Distributor :=
  (System.run (step windowConfig) {} (pushedAt timestampMs)).getD {}

/-- The window that a push after it is held against. -/
theorem inWindow_afterPushAt {timestampMs later : Int64}
    (hlatest : (windowConfig.tracked (afterPushAt timestampMs).tracker "a" 1).latest 0 =
      some timestampMs)
    (hwindow : windowConfig.windowMs
      (windowConfig.tracked (afterPushAt timestampMs).tracker "a" 1) "a" 0 = 1)
    (hlate : timestampMs.toInt - 1 ≤ later.toInt) :
    windowConfig.InWindow (windowConfig.tracked (afterPushAt timestampMs).tracker "a" 1)
      (windowConfig.windowMs (windowConfig.tracked (afterPushAt timestampMs).tracker "a" 1) "a" 0)
      [seriesAt later] := by
  intro entry hentry bounds hbounds latest hknown
  obtain rfl := mem_singleton.mp hentry
  cases hbounds
  cases hlatest.symm.trans hknown
  rw [hwindow]
  exact hlate

/-- After a sample at 5 ms one at 4 ms is accepted, and the newest stays at 5 ms. -/
theorem gate_right_late_sample :
    0 ≤ (windowConfig.limits "a").outOfOrderTimeWindow ∧
      (windowConfig.enforceOutOfOrderWindow (afterPushAt 5).tracker "a" [seriesAt 4] 0 1).2 =
        .ok () ∧
      latestOf (windowConfig.enforceOutOfOrderWindow (afterPushAt 5).tracker "a" [seriesAt 4]
        0 1).1.tenants "a" 0 = some 5 := by
  have hlimit : 0 ≤ (windowConfig.limits "a").outOfOrderTimeWindow := by decide
  obtain ⟨-, haccepted, -, -, hhistory⟩ :=
    out_of_order_gate_right_iff hlimit (afterPushAt 5).tracker [seriesAt 4] 0 1
  have hreached : System.Reachable (step windowConfig) Started (Above windowConfig 5)
      (afterPushAt 5) :=
    System.Reachable.getD (.initial ⟨rfl, rfl⟩) (by decide +kernel) (by decide +kernel)
  have hok := (hhistory 5 _ hreached rfl (by decide +kernel)).mpr
    (inWindow_afterPushAt (by decide +kernel) (by decide +kernel) (by decide))
  refine ⟨hlimit, hok, ?_⟩
  rw [haccepted hok]
  decide +kernel

/-- After a sample at the least `i64` a push in the window is turned away: its bound has
wrapped to the greatest `i64`. -/
theorem least_sample_shuts_series_out :
    System.run (step windowConfig) {} (pushedAt Int64.minValue) =
        some (afterPushAt Int64.minValue) ∧
      windowConfig.InWindow (windowConfig.tracked (afterPushAt Int64.minValue).tracker "a" 1)
        (windowConfig.windowMs (windowConfig.tracked (afterPushAt Int64.minValue).tracker "a" 1)
          "a" 0)
        [seriesAt 0] ∧
      (windowConfig.enforceOutOfOrderWindow (afterPushAt Int64.minValue).tracker "a"
        [seriesAt 0] 0 1).2 = .error (.tooOldSample 0 Int64.maxValue) := by
  have hsome : (System.run (step windowConfig) {} (pushedAt Int64.minValue)).isSome := by
    decide +kernel
  refine ⟨?_, inWindow_afterPushAt (by decide +kernel) (by decide +kernel) (by decide),
    by decide +kernel⟩
  obtain ⟨s, hs⟩ := Option.isSome_iff_exists.mp hsome
  rw [afterPushAt, hs]
  rfl

end Distributor

end KrabkaO11y.Metrics
