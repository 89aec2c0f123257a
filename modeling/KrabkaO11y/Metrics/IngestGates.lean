import KrabkaO11y.Concurrent.System
import KrabkaO11y.Machine.Saturating
import KrabkaO11y.Metrics.SeriesTracker

/-!
The two ingest gates that keep series state (`crates/metrics/src/distributor/ingest_gates.rs`),
under any interleaving of concurrent pushes.

A push takes the tracker's lock twice: the active-series gate counts and records its
series, and the out-of-order gate touches them again. A series that a sweep or an eviction
took away in between is put back by the second touch, which counts nothing; other pushes
may have filled its place by then.
-/

open Std (ExtTreeMap)

namespace KrabkaO11y.Metrics

open SeriesTracker List
open Concurrent (System.Reachable System.run System.Meets)

/-! ### The gates -/

structure Limits where
  maxGlobalSeriesPerUser : Nat
  activeSeriesIdleTimeoutNs : Int
  outOfOrderTimeWindow : Int

inductive PushError where
  | maxSeriesPerUser (limit observed : Nat)
  | tooOldSample (timestampMs oldestAllowedMs : Int64)
deriving DecidableEq, Repr

/-- What a process is configured with. The fingerprint of labels is a hash, and extents of
time are read in milliseconds as the units do it. -/
structure DistributorConfig where
  maxTenants : Nat
  limits : String → Limits
  fingerprint : List (String × String) → Nat
  millisI64 : Int → Int64
  millisI64_nonneg : ∀ extent, 0 ≤ extent → 0 ≤ (millisI64 extent).toInt

def checkActiveSeries (limits : Limits) (wouldAdd current : Nat) : Except PushError Unit :=
  if limits.maxGlobalSeriesPerUser = 0 then .ok ()
  else if limits.maxGlobalSeriesPerUser < current + wouldAdd then
    .error (.maxSeriesPerUser limits.maxGlobalSeriesPerUser (current + wouldAdd))
  else .ok ()

/-- The fingerprints that the tenant does not hold yet, each once. -/
def newFingerprints (tracked : TenantSeries) (fingerprints : List Nat) : List Nat :=
  (fingerprints.filter fun fingerprint => !tracked.series.contains fingerprint).dedup

def touchAll (now : Nat) (tracked : TenantSeries) (fingerprints : List Nat) : TenantSeries :=
  fingerprints.foldl (fun tracked fingerprint => tracked.touch fingerprint now) tracked

structure SeriesTimestampUpdate where
  fingerprint : Nat
  maxTimestamp : Int64
deriving DecidableEq, Repr

/-- The newest sample that the tenant holds of a series. -/
def TenantSeries.latest (tracked : TenantSeries) (fingerprint : Nat) : Option Int64 :=
  (tracked.series[fingerprint]?).bind SeriesActivity.latestSampleMs

/-- The samples of a series reach back further than the window behind its newest one. The
subtraction wraps. -/
def tooOld (tracked : TenantSeries) (windowMs : Int64) (fingerprint : Nat)
    (bounds : SampleTimestampBounds) : Option PushError :=
  match tracked.latest fingerprint with
  | some previousLatest =>
    let oldestAllowed := previousLatest - windowMs
    if bounds.minMs < oldestAllowed then some (.tooOldSample bounds.minMs oldestAllowed) else none
  | none => none

def applyUpdate (now : Nat) (tracked : TenantSeries) (update : SeriesTimestampUpdate) :
    TenantSeries :=
  let touched := tracked.touch update.fingerprint now
  let activity := (touched.series[update.fingerprint]?).getD { lastSeen := now }
  { touched with
    series := touched.series.insert update.fingerprint { activity with
      latestSampleMs := some (activity.latestSampleMs.elim update.maxTimestamp
        (max · update.maxTimestamp)) } }

namespace DistributorConfig

variable (config : DistributorConfig)

variable (tracker : SeriesTrackerState)

/-- The tracker and the tenant's entry once the tenant was entered. -/
def enter (tenant : String) (now : Nat) : SeriesTrackerState :=
  SeriesTracker.enter config.maxTenants tracker tenant
    (config.limits tenant).activeSeriesIdleTimeoutNs now

def tracked (tenant : String) (now : Nat) : TenantSeries :=
  stamped (sweepIfDue tracker now).tenants tenant
    (config.limits tenant).activeSeriesIdleTimeoutNs now

/-- Counts and records the series in one critical section. -/
def enforceAndRecordActiveSeries (tenant : String)
    (series : List DecodedSeries) (now : Nat) : SeriesTrackerState × Except PushError Unit :=
  let entered := config.enter tracker tenant now
  let tracked := (entered.tenants[tenant]?).getD (config.tracked tracker tenant now)
  let fingerprints := series.map fun entry => config.fingerprint entry.labels
  match checkActiveSeries (config.limits tenant) (newFingerprints tracked fingerprints).length
      tracked.series.size with
  | .error error => (entered, .error error)
  | .ok () =>
    ({ entered with
      tenants := entered.tenants.insert tenant (touchAll now tracked fingerprints) }, .ok ())

/-- The updates of the series that carry samples; the first one too old is an error. -/
def collectUpdates (tracked : TenantSeries) (windowMs : Int64) :
    List DecodedSeries → Except PushError (List SeriesTimestampUpdate)
  | [] => .ok []
  | entry :: rest =>
    match sampleTimestampBounds entry with
    | none => collectUpdates tracked windowMs rest
    | some bounds =>
      let fingerprint := config.fingerprint entry.labels
      match tooOld tracked windowMs fingerprint bounds with
      | some error => .error error
      | none =>
        match collectUpdates tracked windowMs rest with
        | .error error => .error error
        | .ok updates => .ok (⟨fingerprint, bounds.maxMs⟩ :: updates)

/-- The window in force for a push. -/
def windowMs (tracked : TenantSeries) (tenant : String) (clockUncertainty : Int) : Int64 :=
  config.millisI64 (max (max (config.limits tenant).outOfOrderTimeWindow
    tracked.clockUncertainty) clockUncertainty)

/-- Checks and touches the series in a second critical section. -/
def enforceOutOfOrderWindow (tenant : String)
    (series : List DecodedSeries) (clockUncertainty : Int) (now : Nat) :
    SeriesTrackerState × Except PushError Unit :=
  if (config.limits tenant).outOfOrderTimeWindow < 0 then (tracker, .ok ())
  else
    let entered := config.enter tracker tenant now
    let tracked := (entered.tenants[tenant]?).getD (config.tracked tracker tenant now)
    match config.collectUpdates tracked
        (config.windowMs tracked tenant clockUncertainty) series with
    | .error error => (entered, .error error)
    | .ok updates =>
      ({ entered with
        tenants := entered.tenants.insert tenant (updates.foldl (applyUpdate now) tracked) },
        .ok ())

def recordClockUncertainty (tenant : String)
    (uncertainty : Int) (now : Nat) : SeriesTrackerState :=
  let entered := config.enter tracker tenant now
  let tracked := (entered.tenants[tenant]?).getD (config.tracked tracker tenant now)
  { entered with
    tenants := entered.tenants.insert tenant { tracked with clockUncertainty := uncertainty } }

/-- What a push tells of its series, in the order of the request. -/
def updates (series : List DecodedSeries) : List SeriesTimestampUpdate :=
  series.filterMap fun entry =>
    (sampleTimestampBounds entry).map fun bounds => ⟨config.fingerprint entry.labels, bounds.maxMs⟩

/-- What holds of the newest sample of a series and the bounds of each entry of it. -/
def EachKnown (tracked : TenantSeries) (series : List DecodedSeries)
    (P : Int64 → SampleTimestampBounds → Prop) : Prop :=
  ∀ entry ∈ series, ∀ bounds ∈ sampleTimestampBounds entry,
    ∀ latest ∈ tracked.latest (config.fingerprint entry.labels), P latest bounds

end DistributorConfig

/-! ### Concurrent pushes -/

/-- A push reads the clock once, before its gates. -/
structure Push where
  tenant : String
  series : List DecodedSeries
  now : Nat
deriving DecidableEq, Repr

/-- The tracker, and the pushes that are past the active-series gate. -/
structure Distributor where
  tracker : SeriesTrackerState := {}
  pending : List Push := []

/-- A critical section, or a push that ends between its two. -/
inductive GateEvent where
  | activeSeries (push : Push)
  | outOfOrder (index : Nat) (clockUncertainty : Int)
  | abandon (index : Nat)
  | clockUncertainty (tenant : String) (uncertainty : Int) (now : Nat)
deriving DecidableEq, Repr

namespace Distributor

def step (config : DistributorConfig) (s : Distributor) : GateEvent → Option Distributor
  | .activeSeries push =>
    let outcome := config.enforceAndRecordActiveSeries s.tracker push.tenant push.series push.now
    some ⟨outcome.1, if outcome.2.isOk then s.pending ++ [push] else s.pending⟩
  | .outOfOrder index clockUncertainty =>
    s.pending[index]?.map fun push =>
      ⟨(config.enforceOutOfOrderWindow s.tracker push.tenant push.series clockUncertainty
        push.now).1, s.pending.eraseIdx index⟩
  | .abandon index => s.pending[index]?.map fun _ => { s with pending := s.pending.eraseIdx index }
  | .clockUncertainty tenant uncertainty now =>
    some { s with tracker := config.recordClockUncertainty s.tracker tenant uncertainty now }

/-- No tenant with a limit holds more series than it allows. -/
def Capped (config : DistributorConfig) (tenants : ExtTreeMap String TenantSeries) : Prop :=
  ∀ (name : String) (tenant : TenantSeries), tenants[name]? = some tenant →
    (config.limits name).maxGlobalSeriesPerUser ≠ 0 →
      tenant.series.size ≤ (config.limits name).maxGlobalSeriesPerUser

/-- An out-of-order gate finds every series that it touches still held. -/
def StillHeld (config : DistributorConfig) (s : Distributor) : GateEvent → Prop
  | .outOfOrder index _ => ∀ push ∈ s.pending[index]?, ∀ entry ∈ push.series,
      (sampleTimestampBounds entry).isSome →
        Kept s.tracker push.tenant (config.fingerprint entry.labels) push.now
  | _ => True

instance decidableStillHeld (config : DistributorConfig) (s : Distributor) :
    (event : GateEvent) → Decidable (s.StillHeld config event)
  | .outOfOrder index _ => inferInstanceAs (Decidable (∀ push ∈ s.pending[index]?, _))
  | .activeSeries _ | .abandon _ | .clockUncertainty .. => .isTrue trivial

variable {config : DistributorConfig} {s s' : Distributor}
  {tenants tenants' : ExtTreeMap String TenantSeries}

theorem capped_of_shrinks (h : Capped config tenants) (hshr : Shrinks tenants tenants') :
    Capped config tenants' := by
  intro name tenant hten hlim
  cases hold : tenants[name]? with
  | none =>
    -- A tenant that was not held before holds nothing.
    have hsz : tenant.series.size ≤ (∅ : ExtTreeMap Nat Unit).size :=
      Collections.size_le_of_subset fun fingerprint hmem => by
        obtain ⟨old, hsm, -⟩ := hshr name tenant hten fingerprint hmem
        exact absurd (hold.symm.trans hsm) nofun
    exact (Nat.le_zero.mp hsz).le.trans (Nat.zero_le _)
  | some old =>
    have hsz : tenant.series.size ≤ old.series.size :=
      Collections.size_le_of_subset fun fingerprint hmem => by
        obtain ⟨old', hsm, hmem⟩ := hshr name tenant hten fingerprint hmem
        cases hold.symm.trans hsm
        exact hmem
    exact hsz.trans (h name old hold hlim)

variable {name : String}

/-- Editing one tenant's entry is judged by that entry. -/
theorem capped_insert (h : Capped config tenants) {tenant : TenantSeries}
    (hcap : (config.limits name).maxGlobalSeriesPerUser ≠ 0 →
      tenant.series.size ≤ (config.limits name).maxGlobalSeriesPerUser) :
    Capped config (tenants.insert name tenant) := by
  intro other entry he hlim
  rw [getElem?_insert_tenant] at he
  split at he
  · rename_i hnm
    subst hnm
    cases he
    exact hcap hlim
  · exact h other entry he hlim

variable {tracker : SeriesTrackerState}

theorem capped_enter (h : Capped config tenants) (htracker : tracker.tenants = tenants)
    (tenant : String)
    (now : Nat) :
    Capped config (config.enter tracker tenant now).tenants :=
  capped_of_shrinks h (htracker ▸ (drops_enter _ tracker tenant _ now).shrinks)

/-- The entry that a gate edits. -/
theorem getD_enter (tracker : SeriesTrackerState) (tenant : String) (now : Nat) :
    ((config.enter tracker tenant now).tenants[tenant]?).getD
      (config.tracked tracker tenant now) = config.tracked tracker tenant now := by
  rw [DistributorConfig.enter, getElem?_enter]
  rfl

theorem getElem?_enter_tracked (tracker : SeriesTrackerState) (tenant : String) (now : Nat) :
    (config.enter tracker tenant now).tenants[tenant]? =
      some (config.tracked tracker tenant now) := by
  rw [DistributorConfig.enter, getElem?_enter]
  rfl

/-! ### The active-series gate -/

variable {now : Nat}

variable {fingerprint : Nat}

theorem mem_series_touchAll {fingerprints : List Nat} :
    ∀ {tracked : TenantSeries}, fingerprint ∈ (touchAll now tracked fingerprints).series ↔
      fingerprint ∈ tracked.series ∨ fingerprint ∈ fingerprints := by
  induction fingerprints with
  | nil => simp [touchAll]
  | cons first rest ih =>
    intro tracked
    rw [touchAll, List.foldl_cons, ← touchAll, ih, TenantSeries.mem_series_touch,
      List.mem_cons, eq_comm]
    tauto

/-- The new fingerprints are all that touching adds. -/
theorem size_touchAll_le (now : Nat) (tracked : TenantSeries) (fingerprints : List Nat) :
    (touchAll now tracked fingerprints).series.size ≤
      tracked.series.size + (newFingerprints tracked fingerprints).length := by
  refine Collections.size_le_of_mem fun fingerprint hmem => ?_
  by_cases hh : fingerprint ∈ tracked.series
  · exact .inl hh
  · refine .inr (List.mem_dedup.mpr (List.mem_filter.mpr ⟨?_, ?_⟩))
    · exact (mem_series_touchAll.mp hmem).resolve_left hh
    · rwa [Bool.not_eq_true', ← Bool.not_eq_true, ExtTreeMap.contains_iff_mem]

theorem le_limit_of_checkActiveSeries {limits : Limits} {wouldAdd current : Nat}
    (h : checkActiveSeries limits wouldAdd current = .ok ())
    (hlim : limits.maxGlobalSeriesPerUser ≠ 0) :
    current + wouldAdd ≤ limits.maxGlobalSeriesPerUser := by
  rw [checkActiveSeries, if_neg hlim] at h
  split at h
  · cases h
  · omega

variable {tenant : String} {series : List DecodedSeries}

/-- A push that the gate rejects has entered the tracker and nothing else. -/
theorem tracker_of_rejected {error : PushError}
    (h : (config.enforceAndRecordActiveSeries tracker tenant series now).2 = .error error) :
    (config.enforceAndRecordActiveSeries tracker tenant series now).1 =
      config.enter tracker tenant now := by
  rw [DistributorConfig.enforceAndRecordActiveSeries] at h ⊢
  split
  · rfl
  · rename_i hok
    rw [hok] at h
    cases h

theorem capped_activeSeries (h : Capped config tracker.tenants) (tenant : String)
    (series : List DecodedSeries) (now : Nat) :
    Capped config (config.enforceAndRecordActiveSeries tracker tenant series now).1.tenants := by
  have hent := capped_enter h rfl tenant now
  rw [DistributorConfig.enforceAndRecordActiveSeries]
  simp only [getD_enter]
  split
  · exact hent
  · rename_i hok
    exact capped_insert hent fun hlim =>
      (size_touchAll_le ..).trans (le_limit_of_checkActiveSeries hok hlim)

/-! ### The out-of-order gate -/

theorem mem_series_applyUpdate {tracked : TenantSeries} {update : SeriesTimestampUpdate} :
    fingerprint ∈ (applyUpdate now tracked update).series ↔
      update.fingerprint = fingerprint ∨ fingerprint ∈ tracked.series := by
  rw [applyUpdate, ExtTreeMap.mem_insert, Std.compare_eq_iff_eq, TenantSeries.mem_series_touch]
  tauto

theorem mem_series_foldl_applyUpdate {updates : List SeriesTimestampUpdate} :
    ∀ {tracked : TenantSeries},
      fingerprint ∈ (updates.foldl (applyUpdate now) tracked).series ↔
        fingerprint ∈ tracked.series ∨
          fingerprint ∈ updates.map SeriesTimestampUpdate.fingerprint := by
  induction updates with
  | nil => simp
  | cons first rest ih =>
    intro tracked
    rw [List.foldl_cons, ih, mem_series_applyUpdate, List.map_cons, List.mem_cons, eq_comm]
    tauto

variable {tracked : TenantSeries} {windowMs : Int64}

theorem tooOld_eq_none {fp : Nat} {bounds : SampleTimestampBounds} :
    tooOld tracked windowMs fp bounds = none ↔
      ∀ latest ∈ tracked.latest fp, latest - windowMs ≤ bounds.minMs := by
  rw [tooOld]
  cases tracked.latest fp <;> simp

theorem collectUpdates_eq_ok : ∀ {series : List DecodedSeries}
    {updates : List SeriesTimestampUpdate},
    config.collectUpdates tracked windowMs series = .ok updates ↔
      (config.EachKnown tracked series fun latest bounds => latest - windowMs ≤ bounds.minMs) ∧
        updates = config.updates series := by
  intro series
  induction series with
  | nil => simp [DistributorConfig.collectUpdates, DistributorConfig.EachKnown,
      DistributorConfig.updates, eq_comm]
  | cons entry rest ih =>
    intro updates
    rw [DistributorConfig.collectUpdates]
    simp only [DistributorConfig.EachKnown, forall_mem_cons, DistributorConfig.updates,
      filterMap_cons, ← tooOld_eq_none] at ih ⊢
    cases sampleTimestampBounds entry with
    | none => simpa using ih
    | some bounds =>
      simp only [Option.mem_some_iff, forall_eq', Option.map_some]
      cases tooOld tracked windowMs (config.fingerprint entry.labels) bounds with
      | some error => simp
      | none =>
        cases hr : config.collectUpdates tracked windowMs rest with
        | error error =>
          exact iff_of_false nofun fun h => absurd (hr.symm.trans (ih.mpr ⟨h.1.2, rfl⟩)) nofun
        | ok later =>
          obtain ⟨hall, rfl⟩ := ih.mp hr
          exact ⟨fun h => ⟨⟨rfl, hall⟩, (Except.ok.inj h).symm⟩, fun h => congrArg _ h.2.symm⟩

theorem capped_outOfOrder (h : Capped config tracker.tenants)
    (hh : ∀ entry ∈ series, (sampleTimestampBounds entry).isSome →
      Kept tracker tenant (config.fingerprint entry.labels) now) (clockUncertainty : Int) :
    Capped config
      (config.enforceOutOfOrderWindow tracker tenant series clockUncertainty now).1.tenants := by
  have hent := capped_enter h rfl tenant now
  rw [DistributorConfig.enforceOutOfOrderWindow]
  split
  · exact h
  · simp only [getD_enter]
    split
    · exact hent
    · rename_i updates hupd
      refine capped_insert hent fun hlim => ?_
      have hsz : ((updates.foldl (applyUpdate now)
          (config.tracked tracker tenant now)).series).size ≤
            (config.tracked tracker tenant now).series.size :=
        Collections.size_le_of_subset fun fingerprint hmem => by
          rcases mem_series_foldl_applyUpdate.mp hmem with hold | hnew
          · exact hold
          · -- Every touched series is one that the entry still holds.
            obtain ⟨update, hup, rfl⟩ := List.mem_map.mp hnew
            rw [(collectUpdates_eq_ok.mp hupd).2] at hup
            obtain ⟨entry, he, hup⟩ := mem_filterMap.mp hup
            obtain ⟨bounds, hbnd, rfl⟩ := Option.map_eq_some_iff.mp hup
            exact (hh entry he (by rw [hbnd]; rfl)).mem_stamped _
      exact hsz.trans (hent tenant _ (getElem?_enter_tracked ..) hlim)

theorem capped_clockUncertainty (h : Capped config tracker.tenants) (tenant : String)
    (uncertainty : Int) (now : Nat) :
    Capped config (config.recordClockUncertainty tracker tenant uncertainty now).tenants := by
  have hent := capped_enter h rfl tenant now
  rw [DistributorConfig.recordClockUncertainty]
  simp only [getD_enter]
  have hlim := hent tenant _ (getElem?_enter_tracked tracker tenant now)
  exact capped_insert hent hlim

theorem capped_step (h : Capped config s.tracker.tenants) {event : GateEvent}
    (hh : s.StillHeld config event) (hs : s.step config event = some s') :
    Capped config s'.tracker.tenants := by
  cases event with
  | activeSeries push =>
    cases hs
    exact capped_activeSeries h push.tenant push.series push.now
  | outOfOrder index clockUncertainty =>
    obtain ⟨push, hpu, rfl⟩ := Option.map_eq_some_iff.mp hs
    exact capped_outOfOrder h (hh push hpu) clockUncertainty
  | abandon index =>
    obtain ⟨push, hpu, rfl⟩ := Option.map_eq_some_iff.mp hs
    exact h
  | clockUncertainty tenant uncertainty now =>
    cases hs
    exact capped_clockUncertainty h tenant uncertainty now

/-! ### Rejected pushes -/

/-- The tracker holds a series for a tenant. -/
def Holds (tenants : ExtTreeMap String TenantSeries) (name : String) (fingerprint : Nat) : Prop :=
  ∃ tenant : TenantSeries, tenants[name]? = some tenant ∧ fingerprint ∈ tenant.series

/-- Entering the tracker for a tenant takes no series away: no sweep is due or none of the
series is idle, and the tenant fits. -/
structure Undisturbed (config : DistributorConfig) (tracker : SeriesTrackerState)
    (tenant : String) (now : Nat) : Prop where
  kept : ∀ name fingerprint, Holds tracker.tenants name fingerprint →
    Kept tracker name fingerprint now
  fits : (if tenant ∈ tracker.tenants then tracker.tenants.size else tracker.tenants.size + 1) ≤
    config.maxTenants

theorem holds_sweepIfDue (h : Kept tracker name fingerprint now) :
    Holds (sweepIfDue tracker now).tenants name fingerprint :=
  mem_series_stamped.mp (h.mem_stamped 0)

theorem mem_of_mem_sweepIfDue (h : name ∈ (sweepIfDue tracker now).tenants) :
    name ∈ tracker.tenants := by
  rw [sweepIfDue] at h
  split at h
  · rw [ExtTreeMap.mem_iff_isSome_getElem?] at h ⊢
    simp only [getElem?_sweep, Option.isSome_iff_exists, Option.filter_eq_some_iff,
      Option.map_eq_some_iff] at h
    obtain ⟨_, ⟨old, hold, -⟩, -⟩ := h
    rw [hold]
    rfl
  · exact h

theorem Undisturbed.size_le (h : Undisturbed config tracker tenant now) (entry : TenantSeries) :
    ((sweepIfDue tracker now).tenants.insert tenant entry).size ≤ config.maxTenants := by
  have hks : ((sweepIfDue tracker now).tenants.insert tenant entry).size ≤
      (tracker.tenants.insert tenant entry).size := by
    refine Collections.size_le_of_subset fun name hnm => ?_
    rw [ExtTreeMap.mem_insert] at hnm ⊢
    exact hnm.imp_right mem_of_mem_sweepIfDue
  refine hks.trans (le_trans ?_ h.fits)
  rw [ExtTreeMap.size_insert]
  simp only [ExtTreeMap.contains_iff_mem, le_refl]

/-- An undisturbed tracker holds the same series once a tenant was entered. -/
theorem Undisturbed.holds_enter (h : Undisturbed config tracker tenant now) (name : String)
    (fingerprint : Nat) :
    Holds (config.enter tracker tenant now).tenants name fingerprint ↔
      Holds tracker.tenants name fingerprint := by
  constructor
  · rintro ⟨entry, he, hmem⟩
    exact (drops_enter _ _ _ _ _).shrinks name entry he fingerprint hmem
  · intro hh
    have hsw := holds_sweepIfDue (h.kept name fingerprint hh)
    rw [DistributorConfig.enter, SeriesTracker.enter, evictIfOverCap,
      evictLoop_of_le (h.size_le _)]
    by_cases hnm : tenant = name
    · subst hnm
      exact ⟨_, by rw [getElem?_insert_tenant, if_pos rfl], mem_series_stamped.mpr hsw⟩
    · obtain ⟨entry, he, hmem⟩ := hsw
      exact ⟨entry, by rw [getElem?_insert_tenant, if_neg hnm, he], hmem⟩

/-- A process that tracks nothing yet. -/
def Started (s : Distributor) : Prop := s.tracker.tenants = ∅ ∧ s.pending = []

/-- Where every out-of-order gate still finds the series it touches, no tenant exceeds its
limit; and a push that the active-series gate rejects leaves the series of an undisturbed
tracker as they were. -/
theorem active_series_capped
    (h : System.Reachable (step config) Started (StillHeld config) s) :
    Capped config s.tracker.tenants ∧
      ∀ (push : Push) (error : PushError),
        (config.enforceAndRecordActiveSeries s.tracker push.tenant push.series push.now).2 =
          .error error → Undisturbed config s.tracker push.tenant push.now →
        ∀ name fingerprint, Holds (config.enforceAndRecordActiveSeries s.tracker push.tenant
          push.series push.now).1.tenants name fingerprint ↔
            Holds s.tracker.tenants name fingerprint := by
  constructor
  · refine h.invariant (fun s hstarted => ?_)
      fun s event s' hcapped hheld hstep => capped_step hcapped hheld hstep
    rw [hstarted.1]
    intro name tenant htenant
    exact absurd htenant (by simp)
  · intro push error hrejected hundisturbed name fingerprint
    rw [tracker_of_rejected hrejected]
    exact hundisturbed.holds_enter name fingerprint

/-! ### Sample runs -/

/-- One tenant fits, and each may have one series. -/
def sampleConfig : DistributorConfig where
  maxTenants := 1
  limits := fun _ => ⟨1, 1200000000000, 0⟩
  fingerprint := List.length
  millisI64 := Machine.saturate
  millisI64_nonneg _ := Machine.saturate_nonneg

def sampleSeries (fingerprint : Nat) : DecodedSeries :=
  ⟨List.replicate fingerprint ("label", "value"), [1], [], []⟩

def samplePush (tenant : String) (fingerprints : List Nat) (now : Nat) : Push :=
  ⟨tenant, fingerprints.map sampleSeries, now⟩

def stateAfter (events : List GateEvent) : Distributor :=
  (System.run (step sampleConfig) {} events).getD {}

theorem reached_stateAfter {events : List GateEvent}
    (meets : System.Meets (step sampleConfig) (StillHeld sampleConfig) {} events)
    (hsm : (System.run (step sampleConfig) {} events).isSome) :
    System.Reachable (step sampleConfig) Started (StillHeld sampleConfig)
      (stateAfter events) :=
  System.Reachable.getD (.initial ⟨rfl, rfl⟩) meets hsm

def seriesHeld (s : Distributor) (tenant : String) : Option Nat :=
  (s.tracker.tenants[tenant]?).map fun entry => entry.series.size

/-- Both gates of one push, then both of another. -/
def pushedInTurn : List GateEvent :=
  [.activeSeries (samplePush "a" [1] 0), .outOfOrder 0 0, .activeSeries (samplePush "b" [2] 1),
    .outOfOrder 0 0]

theorem active_series_capped_pushedInTurn :
    seriesHeld (stateAfter pushedInTurn) "b" = some 1 ∧
      Capped sampleConfig (stateAfter pushedInTurn).tracker.tenants :=
  ⟨by decide +kernel,
    (active_series_capped (reached_stateAfter (by decide +kernel) (by decide +kernel))).1⟩

/-- Between the two gates of a push its tenant is evicted and another push of the tenant
takes the free place. -/
def evictedBetween : List GateEvent :=
  [.activeSeries (samplePush "a" [1] 0), .activeSeries (samplePush "b" [2] 1),
    .activeSeries (samplePush "a" [3] 2), .outOfOrder 0 0]

/-- A push of two series, which is one too many for its tenant. -/
def rejectedPush : GateEvent := .activeSeries (samplePush "b" [2, 3] 1)

/-- Two series are held where one is allowed; and a rejected push of one tenant evicts
another tenant's series. -/
theorem active_series_exceeded :
    seriesHeld (stateAfter evictedBetween) "a" = some 2 ∧
    ¬ Capped sampleConfig (stateAfter evictedBetween).tracker.tenants ∧
    (stateAfter [.activeSeries (samplePush "a" [1] 0), rejectedPush]).pending.length = 1 ∧
    seriesHeld (stateAfter [.activeSeries (samplePush "a" [1] 0)]) "a" = some 1 ∧
    seriesHeld (stateAfter [.activeSeries (samplePush "a" [1] 0), rejectedPush]) "a" = none := by
  have htwo : seriesHeld (stateAfter evictedBetween) "a" = some 2 := by decide +kernel
  refine ⟨htwo, fun hcapped => ?_, by decide +kernel, by decide +kernel, by decide +kernel⟩
  obtain ⟨entry, hentry, hsize⟩ := Option.map_eq_some_iff.mp htwo
  have hle := hcapped "a" entry hentry (by decide)
  rw [hsize] at hle
  exact absurd hle (by decide)

end Distributor

end KrabkaO11y.Metrics
