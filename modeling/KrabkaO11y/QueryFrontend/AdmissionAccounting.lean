import Mathlib.Data.List.TakeWhile
import KrabkaO11y.QueryFrontend.Admission

/-!
Admission accounting: in every reachable state the usage is what the live permits add up
to, and the waiters of a tenant are granted in the order they came.

A waiter goes ahead when it fits and no earlier one is of its tenant or fits. So the first
waiter that fits stops all others behind it, also when it has to wait itself for one of its
own tenant that does not fit.
-/

open Std (ExtTreeMap)

namespace KrabkaO11y.QueryFrontend

open Concurrent Std.ExtTreeMap List

/-! ### What the operations do -/

namespace AdmissionState

variable {state after : AdmissionState} {id : UInt64} {work : Waiting}

/-- The waiters ahead of an id, the first one with it and the ones behind. -/
theorem queue_split (id : UInt64) (queue : List Waiting) :
    (∀ waiting ∈ queue, waiting.id ≠ id) ∨
      ∃ earlier work later, queue = earlier ++ work :: later ∧ work.id = id ∧
        ∀ waiting ∈ earlier, waiting.id ≠ id := by
  induction queue with
  | nil => exact .inl (by simp)
  | cons first rest ih =>
    by_cases hid : first.id = id
    · exact .inr ⟨[], first, rest, rfl, hid, by simp⟩
    · rcases ih with hr | ⟨earlier, work, later, rfl, hwk, hear⟩
      · exact .inl (forall_mem_cons.mpr ⟨hid, hr⟩)
      · exact .inr ⟨first :: earlier, work, later, rfl, hwk,
          forall_mem_cons.mpr ⟨hid, hear⟩⟩

theorem tryAdmit_absent (h : ∀ waiting ∈ state.queue, waiting.id ≠ id) :
    state.tryAdmit id = none := by
  have hpa : ∀ waiting ∈ state.queue, decide (waiting.id ≠ id) = true := by simpa using h
  rw [tryAdmit, dropWhile_eq_nil_iff.mpr hpa]

/-- What `tryAdmit` decides about the first waiter with an id. -/
theorem tryAdmit_first {earlier later : List Waiting}
    (hq : state.queue = earlier ++ work :: later) (hid : work.id = id)
    (ahead : ∀ waiting ∈ earlier, waiting.id ≠ id) :
    state.tryAdmit id = if state.admissible earlier work then
      some (work, state.charge work (earlier ++ later)) else none := by
  have hpa : ∀ waiting ∈ earlier, decide (waiting.id ≠ id) = true := by simpa using ahead
  have hta : ((work :: later).takeWhile fun waiting => decide (waiting.id ≠ id)) = [] :=
    takeWhile_cons_of_neg (by simpa using hid)
  have hdr : ((work :: later).dropWhile fun waiting => decide (waiting.id ≠ id)) =
      work :: later := dropWhile_cons_of_neg (by simpa using hid)
  rw [tryAdmit, hq, takeWhile_append_of_pos hpa, dropWhile_append_of_pos hpa,
    hta, hdr, append_nil]

/-- A waiter is admitted exactly when it fits and no earlier one is of its tenant or
fits. -/
theorem tryAdmit_eq_some (h : state.tryAdmit id = some (work, after)) :
    ∃ earlier later, state.queue = earlier ++ work :: later ∧ work.id = id ∧
      (∀ waiting ∈ earlier, waiting.id ≠ id) ∧ state.admissible earlier work = true ∧
      after = state.charge work (earlier ++ later) := by
  rcases queue_split id state.queue with hab | ⟨earlier, first, later, hq, hid, hah⟩
  · rw [tryAdmit_absent hab] at h
    cases h
  · rw [tryAdmit_first hq hid hah] at h
    split at h
    · rename_i hadm
      obtain ⟨rfl, rfl⟩ := Prod.mk.inj (Option.some.inj h)
      exact ⟨earlier, later, hq, hid, hah, hadm, rfl⟩
    · cases h

/-- A waiter goes if it fits, and nobody ahead fits or is of its tenant. -/
theorem admissible_iff {earlier : List Waiting} :
    state.admissible earlier work = true ↔ state.fits work = true ∧
      ∀ other ∈ earlier, other.tenant ≠ work.tenant ∧ state.fits other = false := by
  simp [admissible]

/-- A request that is queued takes the next id and the last place. -/
theorem enqueue_eq_ok {tenant : String} {subqueries estimatedBytes : UInt64}
    {tenantLimits : AdmissionLimits}
    (h : state.enqueue tenant subqueries estimatedBytes tenantLimits = .ok (id, after)) :
    id = state.nextId ∧ after =
      { state with
        nextId := state.nextId + 1
        queue := state.queue ++
          [⟨state.nextId, tenant, subqueries, estimatedBytes, tenantLimits⟩] } := by
  rw [enqueue] at h
  split at h
  · cases h
  · split at h
    · cases h
    · obtain ⟨hid, ha⟩ := Prod.mk.inj (Except.ok.inj h)
      exact ⟨hid.symm, ha.symm⟩

end AdmissionState

namespace Admission

variable {s s' : Admission} {event : AdmissionEvent}

/-- A step leaves the permits and the usage alone, grants the work of a waiter that may go
ahead, or releases the work of a permit. -/
theorem step_cases (h : s.step event = some s') :
    ((s'.state.active = s.state.active ∧ s'.state.tenants = s.state.tenants ∧
        s'.permits = s.permits ∧ s'.grants = s.grants) ∧
      ((∃ work, s'.state.queue = s.state.queue ++ [work] ∧ s'.arrivals = s.arrivals ++ [work]) ∨
        (s'.state.queue.Sublist s.state.queue ∧ s'.arrivals = s.arrivals))) ∨
    (∃ earlier work later, s.state.queue = earlier ++ work :: later ∧
      s.state.admissible earlier work = true ∧
      s'.state = s.state.charge work (earlier ++ later) ∧ s'.permits = s.permits ++ [work] ∧
      s'.grants = s.grants ++ [work] ∧ s'.arrivals = s.arrivals) ∨
    (∃ n work, s.permits[n]? = some work ∧ s'.state = s.state.release work ∧
      s'.permits = s.permits.eraseIdx n ∧ s'.grants = s.grants ∧ s'.arrivals = s.arrivals) := by
  cases event with
  | acquire tenant subqueries estimatedBytes tenantLimits =>
    rw [step] at h
    split at h
    · cases h
      exact .inl ⟨⟨rfl, rfl, rfl, rfl⟩, .inr ⟨.refl _, rfl⟩⟩
    · rename_i id state hok
      cases h
      obtain ⟨rfl, rfl⟩ := AdmissionState.enqueue_eq_ok hok
      exact .inl ⟨⟨rfl, rfl, rfl, rfl⟩, .inl ⟨_, rfl, rfl⟩⟩
  | listen n =>
    rw [step] at h
    split at h <;> cases h
    exact .inl ⟨⟨rfl, rfl, rfl, rfl⟩, .inr ⟨.refl _, rfl⟩⟩
  | check n =>
    rw [step] at h
    split at h <;> cases h
    rw [check]
    split
    · rename_i work state hgr
      obtain ⟨earlier, later, hq, -, -, hadm, rfl⟩ :=
        AdmissionState.tryAdmit_eq_some hgr
      exact .inr (.inl ⟨earlier, work, later, hq, hadm, rfl, rfl, rfl, rfl⟩)
    · exact .inl ⟨⟨rfl, rfl, rfl, rfl⟩, .inr ⟨.refl _, rfl⟩⟩
  | cancel n =>
    rw [step] at h
    split at h <;> cases h
    exact .inl ⟨⟨rfl, rfl, rfl, rfl⟩, .inr ⟨filter_sublist, rfl⟩⟩
  | dropPermit n =>
    rw [step] at h
    split at h <;> cases h
    rename_i work hwk
    exact .inr (.inr ⟨n, work, hwk, rfl, rfl, rfl, rfl⟩)
  | reload limits =>
    cases h
    exact .inl ⟨⟨rfl, rfl, rfl, rfl⟩, .inr ⟨.refl _, rfl⟩⟩
  | notify =>
    rw [step] at h
    split at h <;> cases h
    exact .inl ⟨⟨rfl, rfl, rfl, rfl⟩, .inr ⟨.refl _, rfl⟩⟩

end Admission

/-! ### Usage -/

/-- The usage counts some work, without overflow. -/
structure Usage.Counts (usage : Usage) (works : List Waiting) : Prop where
  requests : usage.requests.toNat = works.length
  subqueries : usage.subqueries.toNat = (works.map fun work => work.subqueries.toNat).sum
  estimatedBytes :
    usage.estimatedBytes.toNat = (works.map fun work => work.estimatedBytes.toNat).sum

/-- The usage covers some work. -/
structure Usage.Covers (usage : Usage) (work : Waiting) : Prop where
  requests : 1 ≤ usage.requests
  subqueries : work.subqueries ≤ usage.subqueries
  estimatedBytes : work.estimatedBytes ≤ usage.estimatedBytes

namespace Usage.Counts

variable {usage : Usage} {works : List Waiting} {work : Waiting}

theorem perm {works' : List Waiting} (h : usage.Counts works) (hperm : works.Perm works') :
    usage.Counts works' where
  requests := by rw [h.requests, hperm.length_eq]
  subqueries := by rw [h.subqueries, (hperm.map _).sum_eq]
  estimatedBytes := by rw [h.estimatedBytes, (hperm.map _).sum_eq]

theorem empty : ({} : Usage).Counts [] := ⟨rfl, rfl, rfl⟩

/-- A grant within the limits does not overflow. -/
theorem add (h : usage.Counts works) (hrequests : usage.requests.toNat + 1 < 2 ^ 64)
    (hsubqueries : usage.subqueries.toNat + work.subqueries.toNat < 2 ^ 64)
    (bytes : usage.estimatedBytes.toNat + work.estimatedBytes.toNat < 2 ^ 64) :
    (usage.add work).Counts (works ++ [work]) where
  requests := by
    change (usage.requests + 1).toNat = _
    rw [UInt64.toNat_add, Nat.mod_eq_of_lt (by simpa using hrequests), h.requests]
    simp
  subqueries := by
    change (usage.subqueries + work.subqueries).toNat = _
    rw [UInt64.toNat_add, Nat.mod_eq_of_lt hsubqueries, h.subqueries]
    simp
  estimatedBytes := by
    change (usage.estimatedBytes + work.estimatedBytes).toNat = _
    rw [UInt64.toNat_add, Nat.mod_eq_of_lt bytes, h.estimatedBytes]
    simp

/-- Usage is at least that of each permit. -/
theorem covers (h : usage.Counts (work :: works)) : usage.Covers work where
  requests := by
    rw [UInt64.le_iff_toNat_le, h.requests]
    simp
  subqueries := by
    rw [UInt64.le_iff_toNat_le, h.subqueries]
    simp
  estimatedBytes := by
    rw [UInt64.le_iff_toNat_le, h.estimatedBytes]
    simp

/-- Releasing a permit does not underflow. -/
theorem subtract (h : usage.Counts (work :: works)) : (usage.subtract work).Counts works where
  requests := by
    change (usage.requests - 1).toNat = _
    rw [UInt64.toNat_sub_of_le _ _ h.covers.requests, h.requests]
    simp
  subqueries := by
    change (usage.subqueries - work.subqueries).toNat = _
    rw [UInt64.toNat_sub_of_le _ _ h.covers.subqueries, h.subqueries]
    simp
  estimatedBytes := by
    change (usage.estimatedBytes - work.estimatedBytes).toNat = _
    rw [UInt64.toNat_sub_of_le _ _ h.covers.estimatedBytes, h.estimatedBytes]
    simp

/-- No work counts as no usage, and only no work does. -/
theorem eq_empty_iff (h : usage.Counts works) : usage = {} ↔ works = [] := by
  constructor
  · rintro rfl
    exact length_eq_zero_iff.mp h.requests.symm
  · rintro rfl
    have hre := h.requests
    have hsu := h.subqueries
    have hby := h.estimatedBytes
    cases usage
    simp_all [← UInt64.toNat_inj]

end Usage.Counts

/-! ### Exact usage -/

/-- The usage is what the live permits add up to, in all and for each tenant, and only
tenants with a live permit have an entry. -/
structure Admission.Exact (s : Admission) : Prop where
  active : s.state.active.Counts s.permits
  tenants : ∀ tenant, (s.state.usageOf tenant).Counts
    (s.permits.filter fun permit => permit.tenant = tenant)
  idle : ∀ tenant, tenant ∈ s.state.tenants ↔ ∃ permit ∈ s.permits, permit.tenant = tenant

namespace AdmissionState

variable {state : AdmissionState} {work : Waiting} {queue : List Waiting} {tenant : String}

theorem usageOf_charge : (state.charge work queue).usageOf tenant =
    if work.tenant = tenant then (state.usageOf tenant).add work else state.usageOf tenant := by
  simp only [usageOf, charge, getElem?_alter, Std.compare_eq_iff_eq]
  split
  · rename_i h; subst h; rfl
  · rfl

theorem mem_tenants_charge :
    tenant ∈ (state.charge work queue).tenants ↔ work.tenant = tenant ∨ tenant ∈ state.tenants := by
  simp only [mem_iff_isSome_getElem?, charge, getElem?_alter,
    Std.compare_eq_iff_eq]
  split
  · simp [*]
  · simp [*]

/-- What fits is within the limits, and adding it overflows nothing. -/
structure WithinLimits (active tenant : Usage) (work : Waiting) : Prop where
  requests : active.requests.toNat + 1 ≤ work.tenantLimits.maxConcurrentRequests.toNat
  tenantRequests : tenant.requests.toNat + 1 ≤
    work.tenantLimits.maxConcurrentRequestsPerTenant.toNat
  subqueries : active.subqueries.toNat + work.subqueries.toNat ≤
    work.tenantLimits.maxConcurrentSubqueries.toNat
  tenantSubqueries : tenant.subqueries.toNat + work.subqueries.toNat ≤
    work.tenantLimits.maxConcurrentSubqueriesPerTenant.toNat
  estimatedBytes : active.estimatedBytes.toNat + work.estimatedBytes.toNat ≤
    work.tenantLimits.maxEstimatedBytes.toNat
  tenantEstimatedBytes : tenant.estimatedBytes.toNat + work.estimatedBytes.toNat ≤
    work.tenantLimits.maxEstimatedBytesPerTenant.toNat

/-- The check compares as naturals do: the sum does not wrap. -/
theorem fitsLimit_iff {used size limit : UInt64} :
    fitsLimit used size limit = true ↔ used.toNat + size.toNat ≤ limit.toNat := by
  have hlim := limit.toNat_lt
  simp only [fitsLimit, Bool.and_eq_true, decide_eq_true_eq, UInt64.le_iff_toNat_le]
  constructor
  · rintro ⟨hlt, hle⟩
    rwa [UInt64.toNat_add, Nat.mod_eq_of_lt hlt] at hle
  · intro hle
    have hlt : used.toNat + size.toNat < 2 ^ 64 := by omega
    exact ⟨hlt, by rwa [UInt64.toNat_add, Nat.mod_eq_of_lt hlt]⟩

theorem fits_iff : state.fits work = true ↔
    WithinLimits state.active (state.usageOf work.tenant) work := by
  simp only [fits, Bool.and_eq_true, decide_eq_true_eq, fitsLimit_iff, UInt64.lt_iff_toNat_lt]
  constructor
  · rintro ⟨⟨⟨⟨⟨h₁, h₂⟩, h₃⟩, h₄⟩, h₅⟩, h₆⟩
    exact ⟨h₁, h₂, h₃, h₄, h₅, h₆⟩
  · rintro ⟨h₁, h₂, h₃, h₄, h₅, h₆⟩
    exact ⟨⟨⟨⟨⟨h₁, h₂⟩, h₃⟩, h₄⟩, h₅⟩, h₆⟩

end AdmissionState

namespace Admission

variable {s s' : Admission} {event : AdmissionEvent}

theorem exact_new (limits : AdmissionLimits) : (new limits).Exact where
  active := Usage.Counts.empty
  tenants tenant := by simpa [new, AdmissionState.usageOf] using Usage.Counts.empty
  idle tenant := by simp [new]

variable {work : Waiting}

/-- Granting work that fits keeps the usage exact. -/
theorem Exact.grant {queue : List Waiting} (h : s.Exact) (hfits : s.state.fits work = true)
    (hstate : s'.state = s.state.charge work queue) (hpermits : s'.permits = s.permits ++ [work]) :
    s'.Exact := by
  have hw := AdmissionState.fits_iff.mp hfits
  constructor
  case active =>
    rw [hstate, hpermits]
    exact h.active.add
      (lt_of_le_of_lt hw.requests work.tenantLimits.maxConcurrentRequests.toNat_lt)
      (lt_of_le_of_lt hw.subqueries work.tenantLimits.maxConcurrentSubqueries.toNat_lt)
      (lt_of_le_of_lt hw.estimatedBytes work.tenantLimits.maxEstimatedBytes.toNat_lt)
  case tenants =>
    intro tenant
    rw [hstate, hpermits, AdmissionState.usageOf_charge, filter_append]
    split
    · rename_i hten
      subst hten
      rw [filter_cons_of_pos (by simp), filter_nil]
      exact (h.tenants work.tenant).add
        (lt_of_le_of_lt hw.tenantRequests
          work.tenantLimits.maxConcurrentRequestsPerTenant.toNat_lt)
        (lt_of_le_of_lt hw.tenantSubqueries
          work.tenantLimits.maxConcurrentSubqueriesPerTenant.toNat_lt)
        (lt_of_le_of_lt hw.tenantEstimatedBytes
          work.tenantLimits.maxEstimatedBytesPerTenant.toNat_lt)
    · rename_i hten
      simpa [hten] using h.tenants tenant
  case idle =>
    intro tenant
    rw [hstate, hpermits, AdmissionState.mem_tenants_charge, h.idle]
    constructor
    · rintro (hten | ⟨permit, hper, hten⟩)
      · exact ⟨work, by simp, hten⟩
      · exact ⟨permit, mem_append_left _ hper, hten⟩
    · rintro ⟨permit, hper, hten⟩
      rcases mem_append.mp hper with hper | hper
      · exact .inr ⟨permit, hper, hten⟩
      · rw [mem_singleton.mp hper] at hten
        exact .inl hten

/-- The permits of the work that is released, with that work first. -/
theorem permits_perm {n : Nat} (h : s.permits[n]? = some work) :
    s.permits.Perm (work :: s.permits.eraseIdx n) := by
  obtain ⟨hn, rfl⟩ := List.getElem?_eq_some_iff.mp h
  exact (getElem_cons_eraseIdx_perm hn).symm

theorem exists_permit_iff {permits : List Waiting} {tenant : String} :
    (∃ permit ∈ permits, permit.tenant = tenant) ↔
      (permits.filter fun permit => permit.tenant = tenant) ≠ [] := by
  simp [filter_eq_nil_iff]

/-- The usage covers the work of every live permit, in all and of its tenant. -/
theorem Exact.covers (h : s.Exact) (hwork : work ∈ s.permits) :
    s.state.active.Covers work ∧ (s.state.usageOf work.tenant).Covers work := by
  obtain ⟨n, hn⟩ := mem_iff_getElem?.mp hwork
  have hpm := permits_perm hn
  refine ⟨(h.active.perm hpm).covers, ?_⟩
  have hten := (h.tenants work.tenant).perm (hpm.filter _)
  rw [filter_cons_of_pos (by simp)] at hten
  exact hten.covers

/-- Releasing the work of a live permit keeps the usage exact. -/
theorem Exact.release {n : Nat} (h : s.Exact) (hwork : s.permits[n]? = some work)
    (hstate : s'.state = s.state.release work) (hpermits : s'.permits = s.permits.eraseIdx n) :
    s'.Exact := by
  have hpm := permits_perm hwork
  have hten := (h.tenants work.tenant).perm (hpm.filter _)
  rw [filter_cons_of_pos (by simp)] at hten
  have hh : work.tenant ∈ s.state.tenants :=
    (h.idle _).mpr ⟨work, mem_of_getElem? hwork, rfl⟩
  obtain ⟨usage, hus⟩ : ∃ usage, s.state.tenants[work.tenant]? = some usage :=
    Option.isSome_iff_exists.mp (mem_iff_isSome_getElem?.mp hh)
  have hof : s.state.usageOf work.tenant = usage := by
    rw [AdmissionState.usageOf, hus, Option.getD_some]
  rw [hof] at hten
  have he : s'.state.tenants[work.tenant]? =
      if usage.subtract work = {} then none else some (usage.subtract work) := by
    rw [hstate, AdmissionState.release]
    simp [hus]
  have ho : ∀ tenant, work.tenant ≠ tenant →
      s'.state.tenants[tenant]? = s.state.tenants[tenant]? := by
    intro tenant hne
    rw [hstate, AdmissionState.release]
    simp [getElem?_alter, hne]
  have hfil : ∀ tenant, work.tenant ≠ tenant →
      (s.permits.filter fun permit => permit.tenant = tenant).Perm
        (s'.permits.filter fun permit => permit.tenant = tenant) := by
    intro tenant hne
    have := hpm.filter fun permit => decide (permit.tenant = tenant)
    rw [filter_cons_of_neg (by simpa using hne)] at this
    rw [hpermits]
    exact this
  constructor
  case active =>
    rw [hstate, hpermits]
    exact (h.active.perm hpm).subtract
  case tenants =>
    intro tenant
    by_cases heq : work.tenant = tenant
    · subst heq
      have hcts := hten.subtract
      rw [AdmissionState.usageOf, he, hpermits]
      split
      · rename_i hem
        rw [hem] at hcts
        exact hcts
      · exact hcts
    · rw [AdmissionState.usageOf, ho tenant heq]
      exact (h.tenants tenant).perm (hfil tenant heq)
  case idle =>
    intro tenant
    by_cases heq : work.tenant = tenant
    · subst heq
      have hem := hten.subtract.eq_empty_iff
      rw [mem_iff_isSome_getElem?, he, exists_permit_iff, hpermits, Ne, ← hem]
      split <;> simp_all
    · rw [mem_iff_isSome_getElem?, ho tenant heq,
        ← mem_iff_isSome_getElem?, h.idle, exists_permit_iff, exists_permit_iff]
      rw [Ne, Ne, ← length_eq_zero_iff, ← length_eq_zero_iff, (hfil tenant heq).length_eq]

/-- Every step keeps both counts, on each way out of an acquire. -/
theorem Exact.step (h : s.Exact) (hs : s.step event = some s') : s'.Exact := by
  rcases step_cases hs with ⟨⟨hact, hte, hpm, -⟩, -⟩ |
    ⟨earlier, work, later, -, hadm, hst, hpm, -⟩ | ⟨n, work, hwk, hst, hpm, -⟩
  · constructor
    · rw [hact, hpm]
      exact h.active
    · intro tenant
      rw [AdmissionState.usageOf, hte, hpm]
      exact h.tenants tenant
    · intro tenant
      rw [hte, hpm]
      exact h.idle tenant
  · exact h.grant (AdmissionState.admissible_iff.mp hadm).1 hst hpm
  · exact h.release hwk hst hpm

/-! ### Order -/

/-- Of each tenant, the granted waiters and then the queued ones are in the order they
came. -/
def Ordered (s : Admission) : Prop :=
  ∀ tenant, ((s.grants ++ s.state.queue).filter fun work => work.tenant = tenant).Sublist
    (s.arrivals.filter fun work => work.tenant = tenant)

theorem ordered_new (limits : AdmissionLimits) : (new limits).Ordered := fun tenant => by
  simp [new]

/-- Grants and cancellations leave the others in the order they came. -/
theorem Ordered.step (h : s.Ordered) (hs : s.step event = some s') : s'.Ordered := by
  intro tenant
  rcases step_cases hs with ⟨⟨-, -, -, hgr⟩, har⟩ |
    ⟨earlier, work, later, hq, hadm, hst, -, hgr, harr⟩ |
    ⟨n, work, -, hst, -, hgr, harr⟩
  · rcases har with ⟨work, hq, harr⟩ | ⟨hq, harr⟩
    · rw [hgr, hq, harr, ← append_assoc, filter_append (s.grants ++ _),
        filter_append s.arrivals]
      exact (h tenant).append (.refl _)
    · rw [hgr, harr]
      exact ((hq.append_left _).filter _).trans (h tenant)
  · have hf := (AdmissionState.admissible_iff.mp hadm).2
    have hsm : ((s'.grants ++ s'.state.queue).filter fun work => work.tenant = tenant) =
        (s.grants ++ s.state.queue).filter fun work => work.tenant = tenant := by
      rw [hgr, hst, hq]
      simp only [AdmissionState.charge, filter_append, append_assoc]
      by_cases hten : work.tenant = tenant
      · -- no earlier waiter is of this tenant
        have hno : (earlier.filter fun work => work.tenant = tenant) = [] := by
          rw [filter_eq_nil_iff]
          intro other ho
          simpa [← hten] using (hf other ho).1
        rw [hno]
        simp [hten]
      · simp [hten]
    rw [hsm, harr]
    exact h tenant
  · rw [hgr, harr, hst]
    exact h tenant

end Admission

namespace AdmissionState

variable (state : AdmissionState) {earlier : List Waiting} {work : Waiting}

/-- Some waiter of the front of a queue may go ahead. -/
def Advances (front : List Waiting) : Prop :=
  ∃ earlier work later, front = earlier ++ work :: later ∧ state.admissible earlier work = true

/-- A waiter that fits, with none of its tenant ahead of it, is delayed by the ones ahead that
do not fit: neither it nor any of them may go ahead. -/
def Delayed (earlier : List Waiting) (work : Waiting) : Prop :=
  state.fits work = true ∧ (∀ other ∈ earlier, other.tenant ≠ work.tenant) ∧
    ¬ state.Advances (earlier ++ [work])

/-- The first waiter that fits has to wait for one of its own tenant. -/
def FirstFitHeld (front : List Waiting) : Prop :=
  ∃ ahead first behind, front = ahead ++ first :: behind ∧ state.fits first = true ∧
    (∀ other ∈ ahead, state.fits other = false) ∧ ∃ other ∈ ahead, other.tenant = first.tenant

variable {state}

/-- The first waiter of a list that fits. -/
theorem exists_first_fit {front : List Waiting} (fitting : ∃ work ∈ front, state.fits work = true) :
    ∃ ahead first behind, front = ahead ++ first :: behind ∧ state.fits first = true ∧
      ∀ other ∈ ahead, state.fits other = false := by
  induction front with
  | nil => simp at fitting
  | cons head rest ih =>
    cases fits : state.fits head with
    | true => exact ⟨[], head, rest, rfl, fits, by simp⟩
    | false =>
      obtain ⟨ahead, first, behind, rfl, firstFits, unfit⟩ := ih (by simpa [fits] using fitting)
      exact ⟨head :: ahead, first, behind, rfl, firstFits, forall_mem_cons.mpr ⟨fits, unfit⟩⟩

/-- Only the first waiter that fits may go ahead. -/
theorem not_advances_iff {front : List Waiting} (fitting : ∃ work ∈ front, state.fits work = true) :
    ¬ state.Advances front ↔ state.FirstFitHeld front := by
  constructor
  · intro stopped
    obtain ⟨ahead, first, behind, split, firstFits, unfit⟩ := exists_first_fit fitting
    refine ⟨ahead, first, behind, split, firstFits, unfit, ?_⟩
    by_contra alone
    push Not at alone
    exact stopped ⟨ahead, first, behind, split,
      admissible_iff.mpr ⟨firstFits, fun other mem => ⟨alone other mem, unfit other mem⟩⟩⟩
  · rintro ⟨ahead, first, behind, split, firstFits, unfit, other, mem, sameTenant⟩
      ⟨earlier, work, later, split', goes⟩
    obtain ⟨workFits, free⟩ := admissible_iff.mp goes
    rcases append_eq_append_iff.mp (split.symm.trans split') with
      ⟨middle, rfl, rest⟩ | ⟨middle, rfl, rest⟩
    · cases middle with
      | nil =>
        -- the waiter is the first one that fits
        obtain ⟨rfl, -⟩ := List.cons.inj rest
        exact (free other (by simpa using mem)).1 sameTenant
      | cons head tail =>
        -- the first one that fits is ahead of the waiter
        obtain ⟨rfl, -⟩ := List.cons.inj rest
        simpa [firstFits] using (free first (by simp)).2
    · cases middle with
      | nil =>
        obtain ⟨rfl, -⟩ := List.cons.inj rest
        exact (free other (by simpa using mem)).1 sameTenant
      | cons head tail =>
        obtain ⟨rfl, -⟩ := List.cons.inj rest
        simpa [workFits] using unfit work (by simp)

/-- What delays a waiter that fits is the first one that fits, held by its own tenant. -/
theorem delayed_iff : state.Delayed earlier work ↔ state.fits work = true ∧
    (∀ other ∈ earlier, other.tenant ≠ work.tenant) ∧ state.FirstFitHeld (earlier ++ [work]) := by
  refine and_congr_right fun fits => and_congr_right fun _ => ?_
  exact not_advances_iff ⟨work, by simp, fits⟩

end AdmissionState

namespace Admission

/-- In every reachable state the usage is exact and covers every permit, a grant is within
the limits of its request together with all usage, and tenants are served in the order they
came. Waiters that do not fit delay one of another tenant exactly when the first waiter that
fits has one of its own tenant ahead of it. -/
theorem admission_exact_and_fair {s : Admission} (h : Reachable (fun _ _ => True) s) :
    s.Exact ∧
    (∀ work ∈ s.permits,
      s.state.active.Covers work ∧ (s.state.usageOf work.tenant).Covers work) ∧
    (∀ n s' work, s.step (.check n) = some s' → s'.permits = s.permits ++ [work] →
      AdmissionState.WithinLimits s.state.active (s.state.usageOf work.tenant) work) ∧
    s.Ordered ∧
    ∀ earlier work later, s.state.queue = earlier ++ work :: later →
      s.state.fits work = true → (∀ other ∈ earlier, other.tenant ≠ work.tenant) →
      (s.state.Delayed earlier work ↔ s.state.FirstFitHeld (earlier ++ [work])) := by
  have hexact : s.Exact := h.invariant (by rintro _ ⟨limits, rfl⟩; exact exact_new limits)
    fun _ _ _ hs _ hstep => hs.step hstep
  have hordered : s.Ordered := h.invariant (by rintro _ ⟨limits, rfl⟩; exact ordered_new limits)
    fun _ _ _ hs _ hstep => hs.step hstep
  refine ⟨hexact, fun work hwork => hexact.covers hwork, ?_, hordered, ?_⟩
  · intro n s' work hstep hpermits
    rcases step_cases hstep with ⟨⟨-, -, hsame, -⟩, -⟩ |
      ⟨earlier, granted, later, -, hadmissible, -, hgranted, -⟩ | ⟨m, released, hheld, -, hsame, -⟩
    · simp [hsame] at hpermits
    · obtain rfl : granted = work := by simpa [hgranted] using hpermits
      exact AdmissionState.fits_iff.mp (AdmissionState.admissible_iff.mp hadmissible).1
    · have hlen := congrArg List.length (hsame.symm.trans hpermits)
      obtain ⟨hm, -⟩ := List.getElem?_eq_some_iff.mp hheld
      rw [length_eraseIdx_of_lt hm, length_append] at hlen
      simp at hlen
  · intro earlier work later _ fits firstOfTenant
    rw [AdmissionState.delayed_iff]
    exact ⟨fun delayed => delayed.2.2, fun held => ⟨fits, firstOfTenant, held⟩⟩

/-! ### Limits -/

/-- A limit on what some permits add up to. -/
structure Cap where
  counts : Waiting → Bool
  weight : Waiting → ℕ
  limit : AdmissionLimits → UInt64

/-- The limits that `fits` checks. -/
def caps (tenant : String) : List Cap :=
  [⟨fun _ => true, fun _ => 1, (·.maxConcurrentRequests)⟩,
    ⟨fun _ => true, (·.subqueries.toNat), (·.maxConcurrentSubqueries)⟩,
    ⟨fun _ => true, (·.estimatedBytes.toNat), (·.maxEstimatedBytes)⟩,
    ⟨(·.tenant = tenant), fun _ => 1, (·.maxConcurrentRequestsPerTenant)⟩,
    ⟨(·.tenant = tenant), (·.subqueries.toNat), (·.maxConcurrentSubqueriesPerTenant)⟩,
    ⟨(·.tenant = tenant), (·.estimatedBytes.toNat), (·.maxEstimatedBytesPerTenant)⟩]

def Cap.total (cap : Cap) (permits : List Waiting) : ℕ :=
  ((permits.filter cap.counts).map cap.weight).sum

/-- What a limit counts is within that limit of the last such request granted. -/
def Capped (s : Admission) (cap : Cap) : Prop :=
  ∀ last ∈ (s.grants.filter cap.counts).getLast?,
    cap.total s.permits ≤ (cap.limit last.tenantLimits).toNat

variable {s s' : Admission} {event : AdmissionEvent} {tenant : String} {cap : Cap} {work : Waiting}

/-- Work that fits is within each limit that counts it. -/
theorem Exact.total_le (h : s.Exact) (hft : s.state.fits work = true) (hcap : cap ∈ caps tenant)
    (hct : cap.counts work = true) :
    cap.total (s.permits ++ [work]) ≤ (cap.limit work.tenantLimits).toNat := by
  have hw := AdmissionState.fits_iff.mp hft
  have ho := h.tenants work.tenant
  rw [Cap.total, filter_append, filter_cons_of_pos hct]
  simp only [caps, mem_cons, not_mem_nil, or_false] at hcap
  rcases hcap with rfl | rfl | rfl | rfl | rfl | rfl
  · simpa [← h.active.requests] using hw.requests
  · simpa [← h.active.subqueries] using hw.subqueries
  · simpa [← h.active.estimatedBytes] using hw.estimatedBytes
  all_goals obtain rfl := of_decide_eq_true hct
  · simpa [← ho.requests] using hw.tenantRequests
  · simpa [← ho.subqueries] using hw.tenantSubqueries
  · simpa [← ho.estimatedBytes] using hw.tenantEstimatedBytes

/-- A grant is within its limits, and a release lowers the sum. -/
theorem Capped.step (h : s.Capped cap) (hex : s.Exact) (hcap : cap ∈ caps tenant)
    (hs : s.step event = some s') : s'.Capped cap := by
  intro last hl
  rcases step_cases hs with ⟨⟨-, -, hpm, hgr⟩, -⟩ |
    ⟨_, work, _, -, hadm, -, hpm, hgr, -⟩ | ⟨n, work, -, -, hpm, hgr, -⟩ <;> rw [hgr] at hl <;>
    rw [hpm]
  · exact h last hl
  · rw [filter_append] at hl
    by_cases hct : cap.counts work = true
    · obtain rfl : work = last := by simpa [hct] using hl
      exact hex.total_le (AdmissionState.admissible_iff.mp hadm).1 hcap hct
    · simpa [Cap.total, hct] using h last (by simpa [hct] using hl)
  · -- dropping a permit takes its work away
    exact ((((eraseIdx_sublist s.permits n).filter cap.counts).map cap.weight).sum_le_sum
      fun _ _ => Nat.zero_le _).trans (h last hl)

/-- In every reachable state the live permits are within the limits of the last request granted,
and those of a tenant within the limits of its own last one. -/
theorem permits_within_last_limits {s : Admission} (h : Reachable (fun _ _ => True) s)
    (tenant : String) : ∀ cap ∈ caps tenant, s.Capped cap := by
  refine (h.invariant (P := fun s => s.Exact ∧ ∀ cap ∈ caps tenant, s.Capped cap) ?_ ?_).2
  · rintro _ ⟨limits, rfl⟩
    exact ⟨exact_new limits, fun _ _ => by simp [Capped, new]⟩
  · intro _ _ _ hs _ hstep
    exact ⟨hs.1.step hstep, fun cap hcap => (hs.2 cap hcap).step hs.1 hcap hstep⟩

/-! ### A run -/

section Sample

/-- At most two requests at a time. -/
def sampleLimits : AdmissionLimits := ⟨2, 2, 8, 8, 100, 100, 4, 4, 1⟩

def sampleAcquire (tenant : String) (subqueries : UInt64) : AdmissionEvent :=
  .acquire tenant subqueries 10 sampleLimits

/-- Two requests are granted, a third one waits and one permit is dropped. -/
def sampleEvents : List AdmissionEvent :=
  [sampleAcquire "a" 1, .listen 0, .check 0, sampleAcquire "b" 1, .listen 0, .check 0,
    sampleAcquire "c" 1, .listen 0, .check 0, .dropPermit 0]

/-- The state after some events of a new controller. -/
def sampleRun (events : List AdmissionEvent) : Admission :=
  (System.run step (new sampleLimits) events).getD (new sampleLimits)

theorem reachable_sampleRun {condition : Admission → AdmissionEvent → Prop}
    {events : List AdmissionEvent} (meets : System.Meets step condition (new sampleLimits) events)
    (runs : (System.run step (new sampleLimits) events).isSome = true) :
    Reachable condition (sampleRun events) :=
  System.Reachable.getD (.initial ⟨sampleLimits, rfl⟩) meets runs

theorem permits_capped_after_drop :
    (sampleRun sampleEvents).Capped
      ⟨(·.tenant = "b"), (·.subqueries.toNat), (·.maxConcurrentSubqueriesPerTenant)⟩ :=
  permits_within_last_limits
    (reachable_sampleRun (System.meets_of_forall fun _ _ => trivial) (by decide +kernel)) "b" _
    (by simp [caps])

theorem admission_exact_after_drop :
    (sampleRun sampleEvents).state.active.requests = 1 ∧ (sampleRun sampleEvents).Exact :=
  ⟨by decide +kernel, (admission_exact_and_fair
    (reachable_sampleRun (System.meets_of_forall fun _ _ => trivial) (by decide +kernel))).1⟩

/-- A request of five subqueries runs; the next tenant's request for six does not fit, and its
request for one, which does, waits for that one. -/
def sampleHeld : List AdmissionEvent :=
  [sampleAcquire "a" 5, .listen 0, .check 0, sampleAcquire "b" 6, sampleAcquire "b" 1,
    sampleAcquire "c" 1, .listen 0, .check 0, .listen 1, .check 1, .listen 2, .check 2]

/-- The request of a third tenant fits and sleeps: neither it nor any waiter ahead may go. -/
theorem unfit_waiter_delays_other_tenant :
    Reachable (fun _ _ => True) (sampleRun sampleHeld) ∧
      (sampleRun sampleHeld).state.queue =
        [⟨1, "b", 6, 10, sampleLimits⟩, ⟨2, "b", 1, 10, sampleLimits⟩] ++
          ⟨3, "c", 1, 10, sampleLimits⟩ :: [] ∧
      (sampleRun sampleHeld).calls.map WaitingCall.phase = [.asleep, .asleep, .asleep] ∧
      (sampleRun sampleHeld).state.fits ⟨1, "b", 6, 10, sampleLimits⟩ = false ∧
      (sampleRun sampleHeld).state.Delayed
        [⟨1, "b", 6, 10, sampleLimits⟩, ⟨2, "b", 1, 10, sampleLimits⟩]
        ⟨3, "c", 1, 10, sampleLimits⟩ := by
  refine ⟨reachable_sampleRun (System.meets_of_forall fun _ _ => trivial) (by decide +kernel),
    by decide +kernel, by decide +kernel, by decide +kernel, ?_⟩
  exact AdmissionState.delayed_iff.mpr ⟨by decide +kernel, by decide,
    [⟨1, "b", 6, 10, sampleLimits⟩], ⟨2, "b", 1, 10, sampleLimits⟩,
    [⟨3, "c", 1, 10, sampleLimits⟩], rfl, by decide +kernel, by decide +kernel, by decide⟩

end Sample

end Admission

end KrabkaO11y.QueryFrontend
