import Mathlib.Data.List.MinMax
import KrabkaO11y.Collections.Tree
import KrabkaO11y.Metrics.DecodedSeries

/-!
The series that a distributor process tracks for each tenant
(`crates/metrics/src/distributor/series_tracker.rs`).

Whoever enters the tracker may first sweep the idle series of every tenant, and evicts the
least recently written tenants when a new one does not fit. Apart from the entry of the
tenant, which may be new and empty, entering only takes series away.
-/

open Std (ExtTreeMap)

namespace KrabkaO11y.Metrics

/-- Instants are nanoseconds of the monotonic clock. -/
structure SeriesActivity where
  lastSeen : Nat
  latestSampleMs : Option Int64 := none
deriving DecidableEq, Repr

/-- Fingerprints with their activity. -/
structure TenantSeries where
  series : ExtTreeMap Nat SeriesActivity := ∅
  clockUncertainty : Int := 0
  lastSeen : Nat
  idleTimeoutNs : Int

namespace TenantSeries

/-- Records a write to a series at `now`. -/
def touch (tenant : TenantSeries) (fingerprint : Nat) (now : Nat) : TenantSeries :=
  { tenant with
    series := tenant.series.insert fingerprint
      ((tenant.series[fingerprint]?).elim { lastSeen := now } ({ · with lastSeen := now })) }

/-- The series was written to within the idle timeout; a timeout of zero keeps it. -/
def fresh (tenant : TenantSeries) (now : Nat) (activity : SeriesActivity) : Bool :=
  decide (tenant.idleTimeoutNs ≤ 0) ||
    decide (((now - activity.lastSeen : Nat) : Int) < tenant.idleTimeoutNs)

def sweep (tenant : TenantSeries) (now : Nat) : TenantSeries :=
  { tenant with series := tenant.series.filter fun _ activity => tenant.fresh now activity }

end TenantSeries

structure SeriesTrackerState where
  tenants : ExtTreeMap String TenantSeries := ∅
  nextSweep : Nat := 0

/-- `SERIES_SWEEP_INTERVAL`, one minute. -/
def seriesSweepIntervalNs : Nat := 60000000000

namespace SeriesTracker

/-- Drops the idle series of every tenant, then the tenants left with none. -/
def sweep (tenants : ExtTreeMap String TenantSeries) (now : Nat) :
    ExtTreeMap String TenantSeries :=
  (tenants.map fun _ tenant => tenant.sweep now).filter fun _ tenant => !tenant.series.isEmpty

/-- The least recently written tenant other than `keep`. -/
def oldest (tenants : ExtTreeMap String TenantSeries) (keep : String) : Option String :=
  ((tenants.toList.filter fun entry => entry.1 ≠ keep).argmin fun entry =>
    entry.2.lastSeen).map Prod.fst

/-- The eviction loop. Every pass takes a tenant away, so as many passes as there are
tenants are enough. -/
def evictLoop (maxTenants : Nat) (keep : String) :
    Nat → ExtTreeMap String TenantSeries → ExtTreeMap String TenantSeries
  | 0, tenants => tenants
  | n + 1, tenants =>
    if maxTenants < tenants.size then
      match oldest tenants keep with
      | some name => evictLoop maxTenants keep n (tenants.erase name)
      | none => tenants
    else tenants

def evictIfOverCap (maxTenants : Nat) (tenants : ExtTreeMap String TenantSeries)
    (keep : String) : ExtTreeMap String TenantSeries :=
  evictLoop maxTenants keep tenants.size tenants

/-- The sweep that entering runs when one is due. -/
def sweepIfDue (state : SeriesTrackerState) (now : Nat) : SeriesTrackerState :=
  if state.nextSweep ≤ now then ⟨sweep state.tenants now, now + seriesSweepIntervalNs⟩ else state

/-- The entry that entering stamps, new where the tenant has none. -/
def stamped (tenants : ExtTreeMap String TenantSeries) (tenant : String) (idleTimeoutNs : Int)
    (now : Nat) : TenantSeries :=
  { (tenants[tenant]?).getD { lastSeen := now, idleTimeoutNs := idleTimeoutNs } with
    lastSeen := now
    idleTimeoutNs := idleTimeoutNs }

/-- The tracker once a tenant was entered. The caller edits the tenant's entry. -/
def enter (maxTenants : Nat) (state : SeriesTrackerState) (tenant : String)
    (idleTimeoutNs : Int) (now : Nat) : SeriesTrackerState :=
  let state := sweepIfDue state now
  { state with
    tenants := evictIfOverCap maxTenants
      (state.tenants.insert tenant (stamped state.tenants tenant idleTimeoutNs now)) tenant }

/-! ### What entering does to the series -/

/-- The tenants hold no series that they did not hold before. -/
def Shrinks (before after : ExtTreeMap String TenantSeries) : Prop :=
  ∀ (name : String) (tenant : TenantSeries), after[name]? = some tenant →
    ∀ fingerprint ∈ tenant.series,
      ∃ old : TenantSeries, before[name]? = some old ∧ fingerprint ∈ old.series

variable {before after : ExtTreeMap String TenantSeries}

/-- The activity that is held of a tenant's series. -/
def activityOf (tenants : ExtTreeMap String TenantSeries) (name : String) (fingerprint : Nat) :
    Option SeriesActivity :=
  (tenants[name]?).bind fun tenant => tenant.series[fingerprint]?

/-- Series are dropped, and none is changed. -/
def Drops (before after : ExtTreeMap String TenantSeries) : Prop :=
  ∀ name fingerprint, activityOf after name fingerprint = activityOf before name fingerprint ∨
    activityOf after name fingerprint = none

theorem Drops.refl (tenants : ExtTreeMap String TenantSeries) : Drops tenants tenants :=
  fun _ _ => .inl rfl

theorem Drops.trans {last : ExtTreeMap String TenantSeries} (h : Drops before after)
    (h' : Drops after last) : Drops before last := by
  intro name fingerprint
  rcases h' name fingerprint with heq | hno
  · rw [heq]
    exact h name fingerprint
  · exact .inr hno

theorem Drops.shrinks (h : Drops before after) : Shrinks before after := by
  intro name tenant hten fingerprint hmem
  rw [ExtTreeMap.mem_iff_isSome_getElem?] at hmem
  have haft : activityOf after name fingerprint = tenant.series[fingerprint]? := by
    rw [activityOf, hten, Option.bind_some]
  rw [← haft, (h name fingerprint).resolve_right fun hno => by simp [hno] at hmem] at hmem
  obtain ⟨activity, hac⟩ := Option.isSome_iff_exists.mp hmem
  obtain ⟨old, hold, hin⟩ := Option.bind_eq_some_iff.mp hac
  exact ⟨old, hold, ExtTreeMap.mem_iff_isSome_getElem?.mpr (by rw [hin]; rfl)⟩

theorem getElem?_sweep (tenants : ExtTreeMap String TenantSeries) (now : Nat)
    (name : String) :
    (sweep tenants now)[name]? =
      ((tenants[name]?).map fun tenant : TenantSeries => tenant.sweep now).filter
        fun tenant => !tenant.series.isEmpty := by
  rw [sweep, ExtTreeMap.getElem?_filter', ExtTreeMap.getElem?_map]

variable {fingerprint : Nat} {now : Nat}

theorem mem_series_sweep {tenant : TenantSeries} :
    fingerprint ∈ (tenant.sweep now).series ↔
      ∃ activity, tenant.series[fingerprint]? = some activity ∧
        tenant.fresh now activity = true := by
  rw [TenantSeries.sweep, ExtTreeMap.mem_iff_isSome_getElem?, ExtTreeMap.getElem?_filter']
  cases tenant.series[fingerprint]? <;> simp [Option.filter]

theorem drops_sweepIfDue (state : SeriesTrackerState) (now : Nat) :
    Drops state.tenants (sweepIfDue state now).tenants := by
  rw [sweepIfDue]
  split
  · intro name fingerprint
    rw [activityOf, activityOf, getElem?_sweep]
    cases state.tenants[name]? with
    | none => exact .inr rfl
    | some tenant =>
      rw [Option.map_some, Option.filter_some]
      split
      · simp only [Option.bind_some, TenantSeries.sweep, ExtTreeMap.getElem?_filter']
        cases tenant.series[fingerprint]? with
        | none => exact .inr rfl
        | some activity =>
          rw [Option.filter_some]
          split
          · exact .inl rfl
          · exact .inr rfl
      · exact .inr rfl
  · exact .refl _

@[simp] theorem getElem?_insert_tenant (tenants : ExtTreeMap String TenantSeries)
    (tenant name : String) (entry : TenantSeries) :
    (tenants.insert tenant entry)[name]? =
      if tenant = name then some entry else tenants[name]? := by
  rw [ExtTreeMap.getElem?_insert]
  simp only [Std.compare_eq_iff_eq]

variable {tenants : ExtTreeMap String TenantSeries} {tenant : String}

theorem mem_series_stamped {idleTimeoutNs : Int} :
    fingerprint ∈ (stamped tenants tenant idleTimeoutNs now).series ↔
      ∃ old : TenantSeries, tenants[tenant]? = some old ∧ fingerprint ∈ old.series := by
  rw [stamped]
  cases tenants[tenant]? <;> simp

theorem drops_stamped (tenants : ExtTreeMap String TenantSeries) (tenant : String)
    (idleTimeoutNs : Int) (now : Nat) :
    Drops tenants (tenants.insert tenant (stamped tenants tenant idleTimeoutNs now)) := by
  intro name fingerprint
  rw [activityOf, getElem?_insert_tenant, activityOf]
  split
  · rename_i hnm
    subst hnm
    rw [stamped]
    cases tenants[tenant]? <;> simp
  · exact .inl rfl

theorem oldest_ne {keep name : String} (h : oldest tenants keep = some name) : name ≠ keep := by
  obtain ⟨entry, he, rfl⟩ := Option.map_eq_some_iff.mp h
  have hmem := List.argmin_mem he
  exact of_decide_eq_true (List.mem_filter.mp hmem).2

/-- The loop evicts other tenants and leaves `keep` as it is. -/
theorem evictLoop_spec (maxTenants : Nat) (keep : String) (n : Nat) :
    ∀ tenants : ExtTreeMap String TenantSeries,
      Drops tenants (evictLoop maxTenants keep n tenants) ∧
        (evictLoop maxTenants keep n tenants)[keep]? = tenants[keep]? := by
  induction n with
  | zero => exact fun tenants => ⟨.refl _, rfl⟩
  | succ n ih =>
    intro tenants
    rw [evictLoop]
    split
    · split
      · rename_i name hnm
        obtain ⟨hdr, hkp⟩ := ih (tenants.erase name)
        refine ⟨Drops.trans (fun other fingerprint => ?_) hdr, ?_⟩
        · rw [activityOf, ExtTreeMap.getElem?_erase]
          split
          · exact .inr rfl
          · exact .inl rfl
        · rw [hkp, ExtTreeMap.getElem?_erase, if_neg]
          exact fun heq => oldest_ne hnm (Std.compare_eq_iff_eq.mp heq)
      · exact ⟨.refl _, rfl⟩
    · exact ⟨.refl _, rfl⟩

theorem evictLoop_of_le {maxTenants : Nat} (h : tenants.size ≤ maxTenants) (keep : String)
    (n : Nat) : evictLoop maxTenants keep n tenants = tenants := by
  cases n with
  | zero => rfl
  | succ n => rw [evictLoop, if_neg (by omega)]

section Enter

variable (maxTenants : Nat) (state : SeriesTrackerState) (tenant : String) (idleTimeoutNs : Int)
  (now : Nat)

theorem drops_enter :
    Drops state.tenants (enter maxTenants state tenant idleTimeoutNs now).tenants :=
  ((drops_sweepIfDue state now).trans (drops_stamped _ tenant idleTimeoutNs now)).trans
    (evictLoop_spec maxTenants tenant _ _).1

/-- The entry that the caller gets is there, and holds what the sweep left of it. -/
theorem getElem?_enter :
    (enter maxTenants state tenant idleTimeoutNs now).tenants[tenant]? =
      some (stamped (sweepIfDue state now).tenants tenant idleTimeoutNs now) := by
  rw [enter, evictIfOverCap, (evictLoop_spec maxTenants tenant _ _).2, getElem?_insert_tenant,
    if_pos rfl]

end Enter

/-- A tenant's series survives the sweep that entering runs. -/
def Kept (state : SeriesTrackerState) (tenant : String) (fingerprint : Nat) (now : Nat) :
    Prop :=
  ∃ entry ∈ state.tenants[tenant]?, ∃ activity ∈ entry.series[fingerprint]?,
    now < state.nextSweep ∨ entry.fresh now activity = true
deriving Decidable

theorem Kept.mem_stamped {state : SeriesTrackerState}
    (h : Kept state tenant fingerprint now) (idleTimeoutNs : Int) :
    fingerprint ∈
      (stamped (sweepIfDue state now).tenants tenant idleTimeoutNs now).series := by
  obtain ⟨entry, he, activity, hac, hk⟩ := h
  have hmem : fingerprint ∈ entry.series :=
    ExtTreeMap.mem_iff_isSome_getElem?.mpr (by rw [hac]; rfl)
  rw [mem_series_stamped, sweepIfDue]
  split
  · rename_i hdue
    have hfs := hk.resolve_left (by omega)
    have hsw : fingerprint ∈ (entry.sweep now).series :=
      mem_series_sweep.mpr ⟨activity, hac, hfs⟩
    refine ⟨entry.sweep now, ?_, hsw⟩
    rw [getElem?_sweep, he, Option.map_some, Option.filter_some_pos]
    rw [Bool.not_eq_true', ← Bool.not_eq_true, ExtTreeMap.isEmpty_iff]
    exact fun hem => ExtTreeMap.not_mem_empty (hem ▸ hsw)
  · exact ⟨entry, he, hmem⟩

end SeriesTracker

/-! ### Touching series -/

namespace TenantSeries

theorem mem_series_touch {tenant : TenantSeries} {fingerprint other : Nat} {now : Nat} :
    other ∈ (tenant.touch fingerprint now).series ↔ fingerprint = other ∨
      other ∈ tenant.series := by
  rw [touch, ExtTreeMap.mem_insert, Std.compare_eq_iff_eq]

end TenantSeries

end KrabkaO11y.Metrics
