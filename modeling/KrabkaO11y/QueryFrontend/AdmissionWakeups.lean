import KrabkaO11y.QueryFrontend.AdmissionAccounting

/-!
Wake-ups of queued waiters.

A waiter that is refused because of a waiter ahead of it is not woken when that one is
admitted. Where waiters run `try_admit` in the order of the queue this does no harm
(`quiet_admission_strands_no_waiter`); in another order an admissible waiter can stay
asleep (`quiet_admission_strands_waiter`).
-/

open Std (ExtTreeMap)

namespace KrabkaO11y.QueryFrontend

open Concurrent AdmissionState List

namespace AdmissionState

variable {state : AdmissionState} {work other : Waiting} {queue : List Waiting}

/-- What does not fit does not fit once more work is admitted. -/
theorem fits_of_fits_charge (hwork : state.fits work = true)
    (h : (state.charge work queue).fits other = true) : state.fits other = true := by
  have hli := fits_iff.mp hwork
  have hadd : ∀ used size limit : UInt64, used.toNat + size.toNat ≤ limit.toNat →
      used.toNat ≤ (used + size).toNat := by
    intro used size limit hle
    have := limit.toNat_lt
    rw [UInt64.toNat_add, Nat.mod_eq_of_lt (by omega)]
    omega
  have hact : state.active.requests.toNat ≤ (state.active.add work).requests.toNat ∧
      state.active.subqueries.toNat ≤ (state.active.add work).subqueries.toNat ∧
      state.active.estimatedBytes.toNat ≤ (state.active.add work).estimatedBytes.toNat :=
    ⟨hadd _ 1 _ hli.requests, hadd _ _ _ hli.subqueries, hadd _ _ _ hli.estimatedBytes⟩
  have hten : (state.usageOf other.tenant).requests.toNat ≤
        ((state.charge work queue).usageOf other.tenant).requests.toNat ∧
      (state.usageOf other.tenant).subqueries.toNat ≤
        ((state.charge work queue).usageOf other.tenant).subqueries.toNat ∧
      (state.usageOf other.tenant).estimatedBytes.toNat ≤
        ((state.charge work queue).usageOf other.tenant).estimatedBytes.toNat := by
    rw [usageOf_charge]
    split
    · rename_i heq
      rw [← heq]
      exact ⟨hadd _ 1 _ hli.tenantRequests, hadd _ _ _ hli.tenantSubqueries,
        hadd _ _ _ hli.tenantEstimatedBytes⟩
    · exact ⟨le_rfl, le_rfl, le_rfl⟩
  obtain ⟨h₁, h₂, h₃, h₄, h₅, h₆⟩ := fits_iff.mp h
  exact fits_iff.mpr ⟨le_trans (Nat.succ_le_succ hact.1) h₁,
    le_trans (Nat.succ_le_succ hten.1) h₂, le_trans (Nat.add_le_add_right hact.2.1 _) h₃,
    le_trans (Nat.add_le_add_right hten.2.1 _) h₄,
    le_trans (Nat.add_le_add_right hact.2.2 _) h₅,
    le_trans (Nat.add_le_add_right hten.2.2 _) h₆⟩

end AdmissionState

namespace Admission

/-- A call runs `try_admit` when every call ahead of it has and sleeps, and an id is not
handed out while a queued waiter has it. -/
def InOrder (s : Admission) : AdmissionEvent → Prop
  | .acquire _ _ _ _ => ∀ waiting ∈ s.state.queue, waiting.id ≠ s.state.nextId
  | .check n => ∀ call ∈ s.calls.take n, call.phase = .asleep
  | _ => True

/-- No wake-up is outstanding. -/
def Quiet (s : Admission) : Prop :=
  s.notifications = 0 ∧ ∀ call ∈ s.calls, call.phase = .asleep

/-- The calls are the queued waiters, the ones asleep come first, and unless a
notification is to come each of them has to wait. -/
structure Awake (s : Admission) : Prop where
  ids : s.calls.map WaitingCall.id = s.state.queue.map Waiting.id
  distinct : (s.state.queue.map Waiting.id).Nodup
  asleepFirst : s.calls.Pairwise fun ahead behind => behind.phase = .asleep → ahead.phase = .asleep
  blocked : s.notifications = 0 → ∀ earlier work later, s.state.queue = earlier ++ work :: later →
    ∀ call, s.calls[earlier.length]? = some call → call.phase = .asleep →
    s.state.admissible earlier work = false

variable {s s' : Admission} {call : WaitingCall} {n : Nat}

theorem awake_new (limits : AdmissionLimits) : (new limits).Awake where
  ids := rfl
  distinct := nodup_nil
  asleepFirst := List.Pairwise.nil
  blocked _ earlier work later h := by simp [new] at h

variable {earlier later : List Waiting} {work : Waiting}

/-- The call of a queued waiter is at the waiter's place. -/
theorem Awake.place (h : s.Awake)
    (hc : s.calls[n]? = some call) (hq : s.state.queue = earlier ++ work :: later)
    (hid : work.id = call.id) :
    n = earlier.length := by
  have hlf : (s.state.queue.map Waiting.id)[n]? = some call.id := by
    rw [← h.ids, getElem?_map, hc, Option.map_some]
  have hr : (s.state.queue.map Waiting.id)[earlier.length]? = some call.id := by
    rw [hq, getElem?_map, getElem?_append_right le_rfl]
    simp [hid]
  obtain ⟨hn, hlf⟩ := List.getElem?_eq_some_iff.mp hlf
  obtain ⟨hm, hr⟩ := List.getElem?_eq_some_iff.mp hr
  exact (List.Nodup.getElem_inj_iff h.distinct).mp (hlf.trans hr.symm)

/-- The queued waiter of a call. -/
theorem Awake.exists_waiter (h : s.Awake) (hc : s.calls[n]? = some call) :
    ∃ earlier work later,
      s.state.queue = earlier ++ work :: later ∧ work.id = call.id ∧ earlier.length = n ∧
      ∀ waiting ∈ earlier, waiting.id ≠ call.id := by
  have hmem : call.id ∈ s.state.queue.map Waiting.id := by
    rw [← h.ids]
    exact mem_map_of_mem (mem_of_getElem? hc)
  obtain ⟨found, hfd, hfo⟩ := mem_map.mp hmem
  rcases queue_split call.id s.state.queue with hab |
    ⟨earlier, work, later, hq, hid, hah⟩
  · exact absurd hfo (hab found hfd)
  · exact ⟨earlier, work, later, hq, hid, (h.place hc hq hid).symm, hah⟩

variable {calls : List WaitingCall}

/-- Changing a call that is not asleep keeps the sleeping ones first. -/
theorem asleepFirst_set {call' : WaitingCall}
    (h : calls.Pairwise fun ahead behind => behind.phase = .asleep → ahead.phase = .asleep)
    (hc : calls[n]? = some call) (awake : call.phase ≠ .asleep)
    (hahead : call'.phase = .asleep → ∀ ahead ∈ calls.take n, ahead.phase = .asleep) :
    (calls.set n call').Pairwise fun ahead behind =>
      behind.phase = .asleep → ahead.phase = .asleep := by
  obtain ⟨hn, hget⟩ := List.getElem?_eq_some_iff.mp hc
  have hsp : calls = calls.take n ++ call :: calls.drop (n + 1) := by
    rw [← hget, getElem_cons_drop, take_append_drop]
  rw [set_eq_take_append_cons_drop, if_pos hn]
  rw [hsp, pairwise_append, pairwise_cons] at h
  obtain ⟨hlf, ⟨hmid, hr⟩, hcr⟩ := h
  rw [pairwise_append, pairwise_cons]
  refine ⟨hlf, ⟨fun behind hbeh hasl => ?_, hr⟩, fun ahead hmem behind hbeh => ?_⟩
  · exact absurd (hmid behind hbeh hasl) awake
  · rcases mem_cons.mp hbeh with rfl | hbeh
    · exact fun hasl => hahead hasl ahead hmem
    · exact hcr ahead hmem behind (mem_cons_of_mem _ hbeh)

theorem map_id_set {phase : WaitPhase} (hc : calls[n]? = some call) :
    (calls.set n ⟨call.id, phase⟩).map WaitingCall.id = calls.map WaitingCall.id := by
  refine ext_getElem? fun i => ?_
  rw [map_set, getElem?_set]
  split
  · rename_i heq
    subst heq
    obtain ⟨hn, -⟩ := List.getElem?_eq_some_iff.mp hc
    rw [if_pos (by simpa using hn), getElem?_map, hc, Option.map_some]
  · rfl

/-- A waiter that is refused sleeps for a reason. -/
theorem Awake.refused (h : s.Awake) {notified : Bool} (hc : s.calls[n]? = some call)
    (hphase : call.phase = .checking notified) (hahead : ∀ ahead ∈ s.calls.take n, ahead.phase =
      .asleep)
    (href : s.state.tryAdmit call.id = none) :
    Awake { s with calls := s.calls.set n ⟨call.id, if notified then .ready else .asleep⟩ } where
  ids := (map_id_set hc).trans h.ids
  distinct := h.distinct
  asleepFirst := asleepFirst_set h.asleepFirst hc (by simp [hphase]) fun _ => hahead
  blocked hqt earlier work later hq other ho hasl := by
    rw [getElem?_set] at ho
    split at ho
    · -- the refused waiter itself
      rename_i heq
      subst heq
      obtain ⟨ahead, waiter, behind, hsp, hid, hlen, hids⟩ := h.exists_waiter hc
      obtain ⟨rfl, hr⟩ := append_inj (hq.symm.trans hsp) hlen.symm
      obtain ⟨rfl, -⟩ := List.cons.inj hr
      rw [tryAdmit_first hsp hid hids] at href
      split at href
      · cases href
      · rename_i hnot
        simpa using hnot
    · exact h.blocked hqt earlier work later hq other ho hasl

/-- A waiter within the front of a queue. -/
theorem exists_between {front back ahead behind : List Waiting} {other : Waiting}
    (h : front ++ back = ahead ++ other :: behind) (hlt : ahead.length < front.length) :
    ∃ between, front = ahead ++ other :: between := by
  rcases append_eq_append_iff.mp h with ⟨middle, rfl, -⟩ | ⟨middle, rfl, hr⟩
  · rw [length_append] at hlt
    omega
  · cases middle with
    | nil => simp at hlt
    | cons first between =>
      obtain ⟨rfl, -⟩ := List.cons.inj hr
      exact ⟨between, rfl⟩

/-- A waiter leaves the queue, and its call goes. -/
theorem Awake.ids_erase (h : s.Awake)
    (hq : s.state.queue = earlier ++ work :: later) :
    (s.calls.eraseIdx earlier.length).map WaitingCall.id = (earlier ++ later).map Waiting.id ∧
      ((earlier ++ later).map Waiting.id).Nodup := by
  have hids := h.ids
  have hdis := h.distinct
  rw [hq, map_append, map_cons] at hdis hids
  rw [← eraseIdx_map, hids, eraseIdx_append_of_length_le (by simp), map_append]
  exact ⟨by simp, hdis.sublist ((sublist_cons_self _ _).append_left _)⟩

/-- An admission frees no waiter that sleeps: those are ahead of the admitted one and do
not fit. -/
theorem Awake.admitted (h : s.Awake) {notified : Bool} (hc : s.calls[n]? = some call)
    (hphase : call.phase = .checking notified) {after : AdmissionState}
    (granted : s.state.tryAdmit call.id = some (work, after)) (permits grants : List Waiting) :
    Awake { s with state := after, calls := s.calls.eraseIdx n, permits := permits,
                   grants := grants } := by
  obtain ⟨earlier, later, hq, hid, -, hadm, rfl⟩ :=
    tryAdmit_eq_some granted
  obtain rfl := h.place hc hq hid
  obtain ⟨hft, hf⟩ := admissible_iff.mp hadm
  constructor
  case ids => exact (h.ids_erase hq).1
  case distinct => exact (h.ids_erase hq).2
  case asleepFirst => exact h.asleepFirst.sublist (eraseIdx_sublist _ _)
  case blocked =>
    intro hqt ahead other behind hsp found hfd hasl
    change earlier ++ later = ahead ++ other :: behind at hsp
    change (s.calls.eraseIdx earlier.length)[ahead.length]? = some found at hfd
    rw [getElem?_eraseIdx] at hfd
    split at hfd
    · rename_i hlt
      -- the sleeping waiter is ahead of the admitted one
      obtain ⟨between, hear⟩ := exists_between hsp hlt
      have hmem : other ∈ earlier := by simp [hear]
      have hnot : (s.state.charge work (earlier ++ later)).fits other = false := by
        by_contra hfit
        rw [Bool.not_eq_false] at hfit
        have := fits_of_fits_charge hft hfit
        rw [(hf other hmem).2] at this
        cases this
      simp [admissible, hnot]
    · -- no waiter behind the admitted one sleeps
      rename_i hge
      have hpa := pairwise_iff_getElem.mp h.asleepFirst earlier.length (ahead.length + 1)
      obtain ⟨hn, hget⟩ := List.getElem?_eq_some_iff.mp hc
      obtain ⟨hm, hgetF⟩ := List.getElem?_eq_some_iff.mp hfd
      have hsl := hpa hn hm (by omega) (by rw [hgetF]; exact hasl)
      rw [hget, hphase] at hsl
      cases hsl

theorem Awake.cancelled (h : s.Awake) (hc : s.calls[n]? = some call) :
    Awake { s with
      state := s.state.removeWaiter call.id
      calls := s.calls.eraseIdx n
      notifications := s.notifications + 1 } := by
  obtain ⟨earlier, work, later, hq, hid, rfl, hah⟩ := h.exists_waiter hc
  have hdis := h.distinct
  rw [hq, map_append, map_cons] at hdis
  have hbeh : ∀ waiting ∈ later, waiting.id ≠ call.id := by
    intro waiting hmem heq
    have hcn := (nodup_append.mp hdis).2.1
    exact (nodup_cons.mp hcn).1 (mem_map.mpr ⟨waiting, hmem, heq.trans hid.symm⟩)
  have hre : (s.state.removeWaiter call.id).queue = earlier ++ later := by
    rw [removeWaiter, hq]
    simp only [filter_append]
    rw [filter_eq_self.mpr (by simpa using hah), filter_cons_of_neg (by simpa using hid),
      filter_eq_self.mpr (by simpa using hbeh)]
  exact ⟨hre ▸ (h.ids_erase hq).1, hre ▸ (h.ids_erase hq).2,
    h.asleepFirst.sublist (eraseIdx_sublist _ _), nofun⟩

theorem Awake.notified (h : s.Awake) (n : Nat) :
    Awake { s with calls := s.calls.map fun call => ⟨call.id, call.phase.notify⟩,
                   notifications := n } := by
  have haw : ∀ call ∈ s.calls.map fun call => (⟨call.id, call.phase.notify⟩ : WaitingCall),
      call.phase ≠ .asleep := by
    intro call hc
    obtain ⟨before, -, rfl⟩ := mem_map.mp hc
    cases hph : before.phase <;> simp [WaitPhase.notify]
  constructor
  case ids =>
    rw [← h.ids, map_map]
    rfl
  case distinct => exact h.distinct
  case asleepFirst =>
    refine pairwise_iff_forall_sublist.mpr fun {ahead behind} hsub hasl => ?_
    exact absurd hasl (haw behind (hsub.subset (by simp)))
  case blocked =>
    intro _ earlier work later _ call hc hasl
    exact absurd hasl (haw call (mem_of_getElem? hc))

theorem Awake.queued (h : s.Awake) (work : Waiting)
    (fresh : ∀ waiting ∈ s.state.queue, waiting.id ≠ work.id) (nextId : UInt64)
    (arrivals : List Waiting) :
    Awake { s with
      state := { s.state with nextId := nextId, queue := s.state.queue ++ [work] }
      calls := s.calls ++ [⟨work.id, .ready⟩]
      arrivals := arrivals } := by
  have hlen : s.calls.length = s.state.queue.length := by
    simpa using congrArg List.length h.ids
  constructor
  case ids => simp [h.ids]
  case distinct =>
    change ((s.state.queue ++ [work]).map Waiting.id).Nodup
    rw [map_append, nodup_append]
    refine ⟨h.distinct, by simp, ?_⟩
    rintro id hid _ hwk rfl
    obtain ⟨waiting, hwa, rfl⟩ := mem_map.mp hid
    exact fresh waiting hwa (by simpa using hwk)
  case asleepFirst =>
    rw [pairwise_append]
    refine ⟨h.asleepFirst, by simp, ?_⟩
    intro ahead _ behind hbeh hasl
    rw [mem_singleton.mp hbeh] at hasl
    cases hasl
  case blocked =>
    intro hqt earlier waiter later hq call hc hasl
    change s.state.queue ++ [work] = earlier ++ waiter :: later at hq
    change (s.calls ++ [(⟨work.id, .ready⟩ : WaitingCall)])[earlier.length]? = some call at hc
    -- the new call is not asleep, so the sleeping one was there before
    have hlt : earlier.length < s.calls.length := by
      by_contra hge
      rw [getElem?_append_right (Nat.not_lt.mp hge)] at hc
      rw [mem_singleton.mp (mem_of_getElem? hc)] at hasl
      cases hasl
    rw [getElem?_append_left hlt] at hc
    obtain ⟨between, hbe⟩ := exists_between hq (hlen ▸ hlt)
    exact h.blocked hqt earlier waiter between hbe call hc hasl

theorem Awake.step (h : s.Awake) {event : AdmissionEvent} (order : s.InOrder event)
    (hs : s.step event = some s') : s'.Awake := by
  cases event with
  | acquire tenant subqueries estimatedBytes tenantLimits =>
    rw [Admission.step] at hs
    split at hs
    · cases hs
      exact h
    · rename_i id state hok
      cases hs
      obtain ⟨rfl, rfl⟩ := enqueue_eq_ok hok
      exact h.queued ⟨_, tenant, subqueries, estimatedBytes, tenantLimits⟩ order _ _
  | listen n =>
    rw [Admission.step] at hs
    split at hs <;> cases hs
    rename_i id hc
    constructor
    case ids => exact (map_id_set hc).trans h.ids
    case distinct => exact h.distinct
    case asleepFirst =>
      exact asleepFirst_set h.asleepFirst hc (by simp) fun hasl => by cases hasl
    case blocked =>
      intro hqt earlier work later hq call hfd hasl
      rw [getElem?_set] at hfd
      split at hfd
      · split at hfd <;> cases hfd
        cases hasl
      · exact h.blocked hqt earlier work later hq call hfd hasl
  | check n =>
    rw [Admission.step] at hs
    split at hs <;> cases hs
    rename_i id notified hc
    rw [check]
    split
    · rename_i work state hgr
      exact h.admitted hc rfl hgr _ _
    · rename_i href
      exact h.refused hc rfl order href
  | cancel n =>
    rw [Admission.step] at hs
    split at hs <;> cases hs
    rename_i call hc
    exact h.cancelled hc
  | dropPermit n =>
    rw [Admission.step] at hs
    split at hs <;> cases hs
    exact { h with blocked := fun hqt => by cases hqt }
  | reload limits =>
    cases hs
    exact { h with blocked := fun hqt => by cases hqt }
  | notify =>
    rw [Admission.step] at hs
    split at hs <;> cases hs
    exact h.notified _

/-- Where calls run `try_admit` in the order of the queue, no admissible waiter is left
asleep when no wake-up is outstanding. -/
theorem quiet_admission_strands_no_waiter {s : Admission} (h : Reachable InOrder s)
    (hquiet : s.Quiet) : ∀ waiting ∈ s.state.queue, s.state.tryAdmit waiting.id = none := by
  have hawake : s.Awake := h.invariant (by rintro _ ⟨limits, rfl⟩; exact awake_new limits)
    fun _ _ _ hs horder hstep => hs.step horder hstep
  intro waiting hwaiting
  rcases queue_split waiting.id s.state.queue with habsent |
    ⟨earlier, work, later, hqueue, hid, hahead⟩
  · exact absurd rfl (habsent waiting hwaiting)
  · have hlen : earlier.length < s.calls.length := by
      have := congrArg List.length hawake.ids
      rw [length_map, length_map, hqueue, length_append, length_cons] at this
      omega
    have hcall := getElem?_eq_getElem hlen
    have hblocked := hawake.blocked hquiet.1 earlier work later hqueue _ hcall
      (hquiet.2 _ (getElem_mem hlen))
    rw [tryAdmit_first hqueue hid hahead, hblocked]
    rfl

/-! ### Two waiters, woken together -/

section Sample

/-- Two waiters of different tenants sleep behind two permits; both permits are dropped
and everyone is woken. -/
def sampleWoken : List AdmissionEvent :=
  [sampleAcquire "a" 1, .listen 0, .check 0, sampleAcquire "b" 1, .listen 0, .check 0,
    sampleAcquire "c" 1, .listen 0, .check 0, sampleAcquire "d" 1, .listen 1, .check 1,
    .dropPermit 0, .dropPermit 0, .notify, .notify]

/-- The second waiter checks first and sleeps, for the first one fits; the first one is
then admitted, and nothing wakes the second one, which fits too. -/
theorem quiet_admission_strands_waiter :
    ∃ s : Admission, Reachable (fun _ _ => True) s ∧ s.Quiet ∧
      ∃ waiting ∈ s.state.queue, (s.state.tryAdmit waiting.id).isSome = true := by
  refine ⟨sampleRun (sampleWoken ++ [.listen 1, .check 1, .listen 0, .check 0]),
    reachable_sampleRun (System.meets_of_forall fun _ _ => trivial) (by decide +kernel), ?_, ?_⟩
  · rw [Quiet]
    decide +kernel
  · decide +kernel

instance (s : Admission) : (event : AdmissionEvent) → Decidable (s.InOrder event)
  | .acquire _ _ _ _ => inferInstanceAs (Decidable (∀ waiting ∈ s.state.queue, _))
  | .check n => inferInstanceAs (Decidable (∀ call ∈ s.calls.take n, _))
  | .listen _ | .cancel _ | .dropPermit _ | .reload _ | .notify => .isTrue trivial

/-- Two requests that check in the order of the queue both go ahead, and the third one, which
does not fit, is left asleep. -/
theorem quiet_admission_in_order :
    (sampleRun (sampleWoken.take 9)).state.queue.length = 1 ∧
      ∀ waiting ∈ (sampleRun (sampleWoken.take 9)).state.queue,
        (sampleRun (sampleWoken.take 9)).state.tryAdmit waiting.id = none := by
  constructor
  · decide +kernel
  · exact quiet_admission_strands_no_waiter
      (reachable_sampleRun (by decide +kernel) (by decide +kernel))
      (by rw [Quiet]; decide +kernel)

end Sample

end Admission

end KrabkaO11y.QueryFrontend
