import KrabkaO11y.Concurrent.System
import KrabkaO11y.Metrics.HaTracker

/-!
Runs of the replica election in one process: requests, writes of committed records to the
topic, and the late replay of the process's own records.

While no replayed record is older than the one held, replaying changes nothing, and a
replica takes over only from a lease that ran out. An older record sets the lease back, and
another replica takes over from one that is still writing. The other way to accept two
replicas is one request that carries both: only its first series is looked at.
-/

namespace KrabkaO11y.Metrics

open List

open Machine (saturatingSub saturatingSub_mono saturatingSub_anti saturatingSub_self)
open Concurrent (System.Reachable System.run System.Meets)

/-- A series of a replica that was let through. -/
structure Acceptance where
  identity : HaElectionIdentity
  replica : String
  atMs : Int64
deriving DecidableEq, Repr

/-- A distributor process and its HA topic. -/
structure HaProcess where
  tracker : HaTracker
  clockMs : Int64
  /-- Committed records whose write to the topic is outstanding. -/
  pending : List HaElectionRecord := []
  topic : List HaElectionRecord := []
  /-- How many records of the topic were replayed. -/
  replayed : Nat := 0
  accepted : List Acceptance := []

inductive HaEvent where
  | push (tenant : String) (series : List DecodedSeries) (nowMs : Int64)
  | persist (index : Nat)
  | replay
deriving DecidableEq, Repr

/-- The series of a request that are of a replica. -/
def acceptances (tenant : String) (series : List DecodedSeries) (nowMs : Int64) :
    List Acceptance :=
  series.filterMap fun entry => entry.replica.map fun replica =>
    ⟨⟨tenant, entry.cluster⟩, replica, nowMs⟩

/-- One of two acceptances lies at least the timeout after the other. -/
def Acceptance.Apart (timeout : FailoverTimeout) (a b : Acceptance) : Prop :=
  timeout.extent ≤ timeout.fromMillis (saturatingSub a.atMs b.atMs) ∨
    timeout.extent ≤ timeout.fromMillis (saturatingSub b.atMs a.atMs)
deriving Decidable

namespace HaProcess

/-- A request that the election lets through or drops, the write of some outstanding
record, or the replay of the next record of the topic. The clock never goes back. -/
def step (failoverTimeout : FailoverTimeout) (s : HaProcess) : HaEvent → Option HaProcess
  | .push tenant series nowMs =>
    if nowMs < s.clockMs then none
    else
      let outcome := s.tracker.elect tenant series nowMs failoverTimeout
      some { s with
        tracker := outcome.1
        clockMs := nowMs
        pending := s.pending ++ outcome.2.committed.toList
        accepted := s.accepted ++
          if outcome.2 = .drop then [] else acceptances tenant series nowMs }
  | .persist index =>
    s.pending[index]?.map fun record => { s with
      pending := s.pending.eraseIdx index
      topic := s.topic ++ [record] }
  | .replay =>
    s.topic[s.replayed]?.map fun record => { s with
      tracker := (replayHaElectionRecords s.tracker "ha"
        [record.written "ha" 0 s.replayed]).1
      replayed := s.replayed + 1 }

/-- A process that has accepted and written nothing yet. What it restored is not newer
than its clock. -/
structure Started (s : HaProcess) : Prop where
  pending : s.pending = []
  topic : s.topic = []
  accepted : s.accepted = []
  held : ∀ identity held, s.tracker.elected identity = some held →
    held.identity = identity ∧ held.leaseTimestampMs.toInt ≤ s.clockMs.toInt

/-- Different replicas of one cluster are accepted at least the failover timeout apart. A
replica accepted more recently than that has not been silent for it. -/
def OneAtATime (failoverTimeout : FailoverTimeout) (s : HaProcess) : Prop :=
  ∀ a ∈ s.accepted, ∀ b ∈ s.accepted, a.identity = b.identity → a.replica ≠ b.replica →
    a.Apart failoverTimeout b
deriving Decidable

/-- Every series of the request that names a replica is of the first one's cluster and
replica. -/
def OneReplica : List DecodedSeries → Prop
  | [] => True
  | first :: rest => ∀ other ∈ rest, other.replica = none ∨
      (other.replica = first.replica ∧ other.cluster = first.cluster)

instance decidableOneReplica : (series : List DecodedSeries) → Decidable (OneReplica series)
  | [] => .isTrue trivial
  | _ :: rest => inferInstanceAs (Decidable (∀ other ∈ rest, _ ∨ _))

/-- The record that a replay would deliver is not older than the one held. -/
def ReplaysNewest (s : HaProcess) : Prop :=
  ∀ record ∈ s.topic[s.replayed]?, ∀ held ∈ s.tracker.elected record.identity,
    held.leaseTimestampMs ≤ record.leaseTimestampMs
deriving Decidable

/-- Requests are of one replica, and no replay sets a lease back. -/
def Orderly (s : HaProcess) : HaEvent → Prop
  | .push _ series _ => OneReplica series
  | .persist _ => True
  | .replay => s.ReplaysNewest

instance decidableOrderly (s : HaProcess) : (event : HaEvent) → Decidable (s.Orderly event)
  | .push _ series _ => inferInstanceAs (Decidable (OneReplica series))
  | .persist _ => .isTrue trivial
  | .replay => inferInstanceAs (Decidable s.ReplaysNewest)

/-! ### What a run keeps -/

/-- The lease held covers an acceptance: it is of the replica, or of one that took over
after the failover timeout. -/
def Covers (failoverTimeout : FailoverTimeout) (held : HaElectionRecord) (a : Acceptance) : Prop :=
  a.atMs.toInt ≤ held.leaseTimestampMs.toInt ∧
    (a.replica = held.replica ∨
      failoverTimeout.Passed (saturatingSub held.leaseTimestampMs a.atMs))

structure Valid (failoverTimeout : FailoverTimeout) (s : HaProcess) : Prop where
  held : ∀ identity held, s.tracker.elected identity = some held →
    held.identity = identity ∧ held.leaseTimestampMs.toInt ≤ s.clockMs.toInt
  covered : ∀ a ∈ s.accepted, ∃ held, s.tracker.elected a.identity = some held ∧
    Covers failoverTimeout held a
  -- The newest of the process's own records of an identity is the one held.
  own : ∀ record ∈ s.pending ++ s.topic, ∃ held,
    s.tracker.elected record.identity = some held ∧
      record.leaseTimestampMs.toInt ≤ held.leaseTimestampMs.toInt ∧
      (record.leaseTimestampMs = held.leaseTimestampMs → record = held)
  oneAtATime : s.OneAtATime failoverTimeout

variable {failoverTimeout : FailoverTimeout} {s s' : HaProcess}

/-- The invariant holds before anything is accepted. -/
theorem valid_of_started (h : s.Started) : s.Valid failoverTimeout where
  held := h.held
  covered := by simp [h.accepted]
  own := by simp [h.pending, h.topic]
  oneAtATime := by simp [OneAtATime, h.accepted]

variable {a : Acceptance}

/-- A lease that is renewed or taken over covers what the one before it covered. -/
theorem Covers.renew {held record : HaElectionRecord} (h : Covers failoverTimeout held a)
    (hl : held.leaseTimestampMs.toInt ≤ record.leaseTimestampMs.toInt)
    (same : held.replica = record.replica ∨ failoverTimeout.Passed
      (saturatingSub record.leaseTimestampMs held.leaseTimestampMs)) :
    Covers failoverTimeout record a := by
  obtain ⟨hle, hrep⟩ := h
  refine ⟨hle.trans hl, ?_⟩
  rcases hrep with heq | earlier
  · rcases same with hh | passed
    · exact .inl (heq.trans hh)
    · exact .inr (passed.mono (saturatingSub_anti _ (Int64.le_iff_toInt_le.mpr hle)))
  · exact .inr (earlier.mono (saturatingSub_mono (Int64.le_iff_toInt_le.mpr hl) _))

variable {series : List DecodedSeries} {nowMs : Int64}

variable {tenant : String}

/-- An acceptance is of a series of the request, at its time. -/
theorem mem_acceptances (h : a ∈ acceptances tenant series nowMs) :
    ∃ entry ∈ series, entry.replica = some a.replica ∧ a.identity = ⟨tenant, entry.cluster⟩ ∧
      a.atMs = nowMs := by
  obtain ⟨entry, he, hmap⟩ := mem_filterMap.mp h
  obtain ⟨replica, hrep, rfl⟩ := Option.map_eq_some_iff.mp hmap
  exact ⟨entry, he, hrep, rfl, rfl⟩

variable {elected : HaElectionIdentity → Option HaElectionRecord}

/-- A request of one replica is accepted with the record it commits. -/
theorem committed_of_accepted
    (hone : OneReplica series)
    (hdcs : decideElection elected tenant series nowMs failoverTimeout ≠ .drop)
    (ha : a ∈ acceptances tenant series nowMs) :
    (decideElection elected tenant series nowMs failoverTimeout).committed =
      some ⟨a.identity.tenant, a.identity.cluster, a.replica, nowMs⟩ := by
  obtain ⟨entry, he, hrep, hidentity, -⟩ := mem_acceptances ha
  cases series with
  | nil => cases he
  | cons first rest =>
    have hf : first.replica = some a.replica ∧ entry.cluster = first.cluster := by
      rcases mem_cons.mp he with rfl | hr
      · exact ⟨hrep, rfl⟩
      · rcases hone entry hr with hnone | ⟨same, hcluster⟩
        · exact absurd (hnone.symm.trans hrep) nofun
        · exact ⟨same.symm.trans hrep, hcluster⟩
    rw [hidentity, hf.2]
    rw [decideElection, hf.1] at hdcs ⊢
    simp only at hdcs ⊢
    split
    · rename_i held hh
      rw [hh] at hdcs
      simp only at hdcs
      split
      · rfl
      · rename_i ho
        rw [if_neg ho] at hdcs
        split
        · rfl
        · rename_i fresh
          exact absurd (if_neg fresh) hdcs
    · rfl

/-- The acceptances of a request that commits nothing are none. -/
theorem acceptances_eq_nil
    (hone : OneReplica series)
    (hnone : (decideElection elected tenant series nowMs failoverTimeout).committed = none)
    (hdcs : decideElection elected tenant series nowMs failoverTimeout ≠ .drop) :
    acceptances tenant series nowMs = [] := by
  refine eq_nil_iff_forall_not_mem.mpr fun a ha => ?_
  exact absurd (hnone.symm.trans (committed_of_accepted hone hdcs ha)) nofun

theorem apart_symm {b : Acceptance} (h : a.Apart failoverTimeout b) :
    b.Apart failoverTimeout a :=
  h.symm

/-- Acceptances that one lease covers lie apart where their replicas differ, if one of them
is at the time of the lease and of its replica. -/
theorem Covers.apart {held : HaElectionRecord} {b : Acceptance} (ha : Covers failoverTimeout held a)
    (hrep : b.replica = held.replica) (ht : b.atMs = held.leaseTimestampMs)
    (hne : a.replica ≠ b.replica) :
    a.Apart failoverTimeout b := by
  obtain ⟨-, heq | ⟨-, hlt⟩⟩ := ha
  · exact absurd (heq.trans hrep.symm) hne
  · rw [Acceptance.Apart, ht]
    exact .inr hlt.le

section Push

variable {record : HaElectionRecord} (h : s.Valid failoverTimeout)
  (hl : s.clockMs.toInt ≤ record.leaseTimestampMs.toInt)
  (hh : ∀ held, s.tracker.elected record.identity = some held →
    held.replica = record.replica ∨ failoverTimeout.Passed
      (saturatingSub record.leaseTimestampMs held.leaseTimestampMs))
include h hl hh

/-- A record as new as the one committed is the one held before, which this one renews. -/
theorem Valid.eq_of_renewed {own : HaElectionRecord} (hown : own ∈ s.pending ++ s.topic)
    (hidentity : own.identity = record.identity) :
    own.leaseTimestampMs.toInt ≤ record.leaseTimestampMs.toInt ∧
      (own.leaseTimestampMs = record.leaseTimestampMs → own = record) := by
  obtain ⟨held, helected, hle, heq⟩ := h.own own hown
  rw [hidentity] at helected
  obtain ⟨hide, clock⟩ := h.held _ held helected
  refine ⟨hle.trans (clock.trans hl), fun hlea => ?_⟩
  have both : own.leaseTimestampMs = held.leaseTimestampMs :=
    Int64.toInt_inj.mp (by rw [hlea] at hle ⊢; omega)
  obtain rfl := heq both
  rcases hh own helected with hrep | passed
  · cases own
    cases record
    simp_all [HaElectionRecord.identity]
  · rw [hlea, saturatingSub_self] at passed
    exact absurd passed failoverTimeout.not_passed_zero

variable {new : List Acceptance} (hnew : ∀ a ∈ new, a.identity = record.identity ∧
  a.replica = record.replica ∧ a.atMs = record.leaseTimestampMs)
include hnew

/-- What was accepted stays covered, under the renewed lease or the one held. -/
theorem Valid.covered_commit : ∀ a ∈ s.accepted ++ new, ∃ held,
    (s.tracker.persistElected record).elected a.identity = some held ∧
      Covers failoverTimeout held a := by
  intro a ha
  rcases mem_append.mp ha with hold | hin
  · obtain ⟨held, helected, hcov⟩ := h.covered a hold
    by_cases hidentity : a.identity = record.identity
    · rw [hidentity] at helected ⊢
      refine ⟨record, persistElected_self .., hcov.renew ?_ (hh held helected)⟩
      exact ((h.held _ held helected).2).trans hl
    · exact ⟨held, (persistElected_of_ne _ hidentity).trans helected, hcov⟩
  · obtain ⟨hidentity, hrep, ht⟩ := hnew a hin
    exact ⟨record, hidentity ▸ persistElected_self .., by rw [ht], .inl hrep⟩

/-- What committing a record keeps. -/
theorem Valid.commit : Valid failoverTimeout { s with
    tracker := s.tracker.persistElected record
    clockMs := record.leaseTimestampMs
    pending := s.pending ++ [record]
    accepted := s.accepted ++ new } := by
  have hcvd := h.covered_commit hl hh hnew
  -- An acceptance of this request lies apart from every earlier one of another replica.
  have hapart : ∀ a ∈ s.accepted ++ new, ∀ b ∈ new, a.identity = b.identity →
      a.replica ≠ b.replica → a.Apart failoverTimeout b := by
    intro a ha b hb hidentity hne
    obtain ⟨identity', hrep, ht⟩ := hnew b hb
    obtain ⟨held, helected, hcov⟩ := hcvd a ha
    rw [hidentity, identity', persistElected_self] at helected
    cases helected
    exact hcov.apart hrep ht hne
  refine ⟨?_, hcvd, ?_, ?_⟩
  · intro identity held helected
    by_cases hidentity : identity = record.identity
    · subst hidentity
      rw [persistElected_self] at helected
      cases helected
      exact ⟨rfl, le_rfl⟩
    · rw [persistElected_of_ne _ hidentity] at helected
      obtain ⟨heq, hle⟩ := h.held identity held helected
      exact ⟨heq, hle.trans hl⟩
  · intro own hown
    have hown : own ∈ s.pending ++ s.topic ∨ own = record := by
      simp only [mem_append, mem_singleton] at hown ⊢
      tauto
    by_cases hidentity : own.identity = record.identity
    · refine ⟨record, hidentity ▸ persistElected_self .., ?_⟩
      rcases hown with hold | rfl
      · exact h.eq_of_renewed hl hh hold hidentity
      · exact ⟨le_rfl, fun _ => rfl⟩
    · rcases hown with hold | rfl
      · obtain ⟨held, helected, hr⟩ := h.own own hold
        exact ⟨held, (persistElected_of_ne _ hidentity).trans helected, hr⟩
      · exact absurd rfl hidentity
  · intro a ha b hb hidentity hne
    rcases mem_append.mp hb with hold | hin
    · rcases mem_append.mp ha with hold' | hin'
      · exact h.oneAtATime a hold' b hold hidentity hne
      · exact apart_symm (hapart b hb a hin' hidentity.symm hne.symm)
    · exact hapart a ha b hin hidentity hne

end Push

section

variable (h : s.Valid failoverTimeout)
include h

/-- The clock may go on by itself. -/
theorem Valid.later (hl : s.clockMs.toInt ≤ nowMs.toInt) :
    Valid failoverTimeout { s with clockMs := nowMs } where
  held identity held hel :=
    ⟨(h.held identity held hel).1, (h.held identity held hel).2.trans hl⟩
  covered := h.covered
  own := h.own
  oneAtATime := h.oneAtATime

/-- A request of one replica keeps the invariant, elected or refused. -/
theorem Valid.push (hone : OneReplica series)
    (hs : s.step failoverTimeout (.push tenant series nowMs) = some s') :
    s'.Valid failoverTimeout := by
  rw [step] at hs
  split at hs
  · cases hs
  · rename_i clock
    have hl : s.clockMs.toInt ≤ nowMs.toInt := by
      rw [Int64.lt_iff_toInt_lt] at clock
      omega
    simp only [elect_eq] at hs
    cases hcom :
        (decideElection s.tracker.elected tenant series nowMs failoverTimeout).committed with
    | none =>
      rw [hcom] at hs
      have hnil : (if decideElection s.tracker.elected tenant series nowMs failoverTimeout =
          .drop then [] else acceptances tenant series nowMs) = [] := by
        split
        · rfl
        · exact acceptances_eq_nil hone hcom ‹_›
      rw [hnil] at hs
      cases hs
      simpa using h.later hl
    | some record =>
      rw [hcom] at hs
      obtain ⟨⟨first, rest, rfl, hrep, hrecord⟩, hh⟩ :=
        decideElection_committed hcom
      have ht : record.leaseTimestampMs = nowMs := by rw [hrecord]
      subst ht
      cases hs
      refine h.commit hl hh fun a ha => ?_
      split at ha
      · cases ha
      · have heq := hcom.symm.trans (committed_of_accepted hone ‹_› ha)
        obtain ⟨-, -, -, -, ht⟩ := mem_acceptances ha
        have hrec := Option.some.inj heq
        exact ⟨by rw [hrec]; rfl, by rw [hrec], ht⟩

/-- A record that reaches the topic is still one of the process's own. -/
theorem Valid.persist {index : Nat}
    (hs : s.step failoverTimeout (.persist index) = some s') : s'.Valid failoverTimeout := by
  obtain ⟨record, hrec, rfl⟩ := Option.map_eq_some_iff.mp hs
  refine ⟨h.held, h.covered, fun own hown => h.own own ?_, h.oneAtATime⟩
  simp only [mem_append, mem_singleton] at hown ⊢
  rcases hown with pending | topic | rfl
  · exact .inl (mem_of_mem_eraseIdx pending)
  · exact .inr topic
  · exact .inl (mem_of_getElem? hrec)

/-- The record of a replay that sets no lease back is the one held. -/
theorem Valid.replay (hnew : s.ReplaysNewest)
    (hs : s.step failoverTimeout .replay = some s') : s'.Valid failoverTimeout := by
  obtain ⟨record, hrec, rfl⟩ := Option.map_eq_some_iff.mp hs
  obtain ⟨held, elected, hle, heq⟩ :=
    h.own record (mem_append_right _ (mem_of_getElem? hrec))
  have hge := Int64.le_iff_toInt_le.mp (hnew record hrec held elected)
  obtain rfl := heq (Int64.toInt_inj.mp (le_antisymm hle hge))
  have same : s.tracker.persistElected record = s.tracker := by
    rw [HaTracker.persistElected, ← elected, Function.update_eq_self]
  rw [replay_written, same]
  exact ⟨h.held, h.covered, h.own, h.oneAtATime⟩

end

/-- In every run whose requests are of one replica each and whose replays set no lease
back, different replicas of a cluster are accepted at least the failover timeout apart. -/
theorem replicas_accepted_apart
    (h : System.Reachable (step failoverTimeout) Started Orderly s) :
    s.OneAtATime failoverTimeout := by
  refine (h.invariant (fun s => valid_of_started) ?_ : s.Valid failoverTimeout).oneAtATime
  intro s event s' hvalid horderly hstep
  cases event with
  | push tenant series nowMs => exact hvalid.push horderly hstep
  | persist index => exact hvalid.persist hstep
  | replay => exact hvalid.replay horderly hstep

/-! ### Sample runs -/

def sampleSeries (replica : String) : DecodedSeries :=
  ⟨[("__name__", "up"), ("__replica__", replica), ("cluster", "c1")], [1], [], []⟩

/-- Thirty seconds, in nanoseconds. -/
def sampleTimeout : FailoverTimeout where
  extent := 30000000000
  fromMillis millis := millis.toInt * 1000000
  monotone a b h := by
    rw [Int64.le_iff_toInt_le] at h
    omega
  zero := rfl

def sampleStarted : HaProcess where
  tracker := {}
  clockMs := 0

theorem started_sampleStarted : sampleStarted.Started := ⟨rfl, rfl, rfl, nofun⟩

def stateAfter (events : List HaEvent) : HaProcess :=
  (System.run (step sampleTimeout) sampleStarted events).getD sampleStarted

theorem reached_stateAfter {events : List HaEvent}
    (meets : System.Meets (step sampleTimeout) Orderly sampleStarted events)
    (hsm : (System.run (step sampleTimeout) sampleStarted events).isSome) :
    System.Reachable (step sampleTimeout) Started Orderly (stateAfter events) :=
  System.Reachable.getD (.initial started_sampleStarted) meets hsm

/-- `r1` writes, its record is replayed, and `r2` takes over after the timeout. -/
def failedOver : List HaEvent :=
  [.push "tenant" [sampleSeries "r1"] 0, .persist 0, .replay,
    .push "tenant" [sampleSeries "r2"] 20000, .push "tenant" [sampleSeries "r2"] 30001]

/-- The takeover is accepted, and the replicas lie the timeout apart. -/
theorem replicas_accepted_apart_failedOver :
    (stateAfter failedOver).accepted.map Acceptance.replica = ["r1", "r2"] ∧
      (stateAfter failedOver).OneAtATime sampleTimeout :=
  ⟨by decide +kernel, replicas_accepted_apart (reached_stateAfter (by decide +kernel)
    (by decide +kernel))⟩

/-- The first record of `r1` is replayed after a later request of it. -/
def replayedLate : List HaEvent :=
  [.push "tenant" [sampleSeries "r1"] 0, .persist 0, .push "tenant" [sampleSeries "r1"] 60000,
    .replay, .push "tenant" [sampleSeries "r2"] 60001]

/-- One request with series of two replicas. -/
def pushedTogether : List HaEvent :=
  [.push "tenant" [sampleSeries "r1", sampleSeries "r2"] 0]

/-- `r1` and `r2` are accepted one millisecond apart, and in one request. -/
theorem replicas_accepted_together :
    (stateAfter replayedLate).accepted.map (fun a => (a.replica, a.atMs)) =
      [("r1", 0), ("r1", 60000), ("r2", 60001)] ∧
    ¬ (stateAfter replayedLate).OneAtATime sampleTimeout ∧
    (stateAfter pushedTogether).accepted.map (fun a => (a.replica, a.atMs)) =
      [("r1", 0), ("r2", 0)] ∧
    ¬ (stateAfter pushedTogether).OneAtATime sampleTimeout := by
  decide +kernel

end HaProcess

end KrabkaO11y.Metrics
