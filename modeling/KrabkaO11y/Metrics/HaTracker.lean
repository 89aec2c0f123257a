import KrabkaO11y.Machine.Saturating
import KrabkaO11y.Metrics.DecodedSeries

/-!
The election of one replica of each cluster (`crates/metrics/src/distributor/ha.rs`,
`ha_election_consumer.rs`).

An accepted request renews the lease of its replica at the current time. Another replica
takes over once the lease is older than the failover timeout. A record that the consumer
replays replaces what is held.
-/

open Std (ExtTreeMap)

namespace KrabkaO11y.Metrics

open Machine (saturatingSub)

structure HaElectionIdentity where
  tenant : String
  cluster : String
deriving DecidableEq, Repr

structure HaElectionRecord where
  tenant : String
  cluster : String
  replica : String
  leaseTimestampMs : Int64
deriving DecidableEq, Repr

def HaElectionRecord.identity (record : HaElectionRecord) : HaElectionIdentity :=
  ⟨record.tenant, record.cluster⟩

inductive HaElection where
  | accept
  | drop
  | elect (record : HaElectionRecord)
  | update (record : HaElectionRecord)
deriving DecidableEq, Repr

structure HaTracker where
  elected : HaElectionIdentity → Option HaElectionRecord := fun _ => none

/-! ### The election -/

/-- The failover timeout, and the units' reading of milliseconds as an extent of time. -/
structure FailoverTimeout where
  extent : Int
  fromMillis : Int64 → Int
  monotone : ∀ a b, a ≤ b → fromMillis a ≤ fromMillis b
  zero : fromMillis 0 = 0

/-- A lease of this age has run out. Under a negative timeout none does. -/
def FailoverTimeout.Passed (timeout : FailoverTimeout) (ageMs : Int64) : Prop :=
  0 ≤ timeout.extent ∧ timeout.extent < timeout.fromMillis ageMs
deriving Decidable

/-- A lease that has run out stays so as it grows older. -/
theorem FailoverTimeout.Passed.mono {timeout : FailoverTimeout} {ageMs ageMs' : Int64}
    (h : timeout.Passed ageMs) (older : ageMs ≤ ageMs') : timeout.Passed ageMs' :=
  ⟨h.1, h.2.trans_le (timeout.monotone _ _ older)⟩

/-- A lease that is as new as the request has not run out. -/
theorem FailoverTimeout.not_passed_zero (timeout : FailoverTimeout) : ¬ timeout.Passed 0 := by
  rintro ⟨nonneg, hlt⟩
  rw [timeout.zero] at hlt
  omega

/-- Only the first series of a request says which replica it is from. -/
def decideElection (elected : HaElectionIdentity → Option HaElectionRecord) (tenant : String)
    (series : List DecodedSeries) (leaseTimestampMs : Int64) (failoverTimeout : FailoverTimeout) :
    HaElection :=
  match series with
  | [] => .accept
  | first :: _ =>
    match first.replica with
    | none => .accept
    | some replica =>
      match elected ⟨tenant, first.cluster⟩ with
      | some held =>
        if held.replica = replica then
          .update ⟨tenant, first.cluster, replica, leaseTimestampMs⟩
        else if failoverTimeout.Passed
            (saturatingSub leaseTimestampMs held.leaseTimestampMs) then
          .elect ⟨tenant, first.cluster, replica, leaseTimestampMs⟩
        else .drop
      | none => .elect ⟨tenant, first.cluster, replica, leaseTimestampMs⟩

namespace HaTracker

def persistElected (tracker : HaTracker) (record : HaElectionRecord) : HaTracker :=
  ⟨Function.update tracker.elected record.identity (some record)⟩

/-- Decides and commits in one critical section. -/
def elect (tracker : HaTracker) (tenant : String) (series : List DecodedSeries)
    (leaseTimestampMs : Int64) (failoverTimeout : FailoverTimeout) : HaTracker × HaElection :=
  match decideElection tracker.elected tenant series leaseTimestampMs failoverTimeout with
  | .elect record => (tracker.persistElected record, .elect record)
  | .update record => (tracker.persistElected record, .update record)
  | decision => (tracker, decision)

end HaTracker

/-! ### The consumer of the topic -/

/-- A polled record; bytes that do not decode are an error. -/
structure HaElectionConsumerRecord where
  topic : String
  partition : Nat
  offset : Int
  value : Option (Except String HaElectionRecord)

inductive HaElectionReplayError where
  | missingValue (partition : Nat) (offset : Int)
  | decode (message : String)
deriving DecidableEq, Repr

structure HaElectionReplayResult where
  polledRecords : Nat
  replayedRecords : Nat
  committedOffsets : ExtTreeMap Nat Int

def commitOffset (committed : ExtTreeMap Nat Int) (partition : Nat) (offset : Int) :
    ExtTreeMap Nat Int :=
  committed.insert partition ((committed[partition]?).elim (offset + 1) (max · (offset + 1)))

/-- The loop over the polled records. Records before one that fails stay applied. -/
def replayLoop (haTopic : String) (polled : Nat) : List HaElectionConsumerRecord → HaTracker →
    Nat → ExtTreeMap Nat Int →
    HaTracker × Except HaElectionReplayError HaElectionReplayResult
  | [], tracker, replayed, committed => (tracker, .ok ⟨polled, replayed, committed⟩)
  | record :: rest, tracker, replayed, committed =>
    if record.topic ≠ haTopic then replayLoop haTopic polled rest tracker replayed committed
    else
      match record.value with
      | none => (tracker, .error (.missingValue record.partition record.offset))
      | some (.error message) => (tracker, .error (.decode message))
      | some (.ok election) =>
        replayLoop haTopic polled rest (tracker.persistElected election) (replayed + 1)
          (commitOffset committed record.partition record.offset)

variable (tracker : HaTracker)

def replayHaElectionRecords (haTopic : String)
    (records : List HaElectionConsumerRecord) :
    HaTracker × Except HaElectionReplayError HaElectionReplayResult :=
  replayLoop haTopic records.length records tracker 0 ∅

/-- A record as the sink writes it to a partition of the topic. -/
def HaElectionRecord.written (haTopic : String) (partition : Nat) (offset : Int)
    (record : HaElectionRecord) : HaElectionConsumerRecord :=
  ⟨haTopic, partition, offset, some (.ok record)⟩

/-- The replay of one written record puts it in place of what is held, and commits past it. -/
theorem replay_written (haTopic : String) (partition : Nat) (offset : Int)
    (record : HaElectionRecord) :
    replayHaElectionRecords tracker haTopic [record.written haTopic partition offset] =
      (tracker.persistElected record, .ok ⟨1, 1, commitOffset ∅ partition offset⟩) := by
  simp [replayHaElectionRecords, replayLoop, HaElectionRecord.written]

/-! ### One request -/

theorem persistElected_self (record : HaElectionRecord) :
    (tracker.persistElected record).elected record.identity = some record :=
  Function.update_self ..

variable {record : HaElectionRecord}

theorem persistElected_of_ne
    {identity : HaElectionIdentity} (h : identity ≠ record.identity) :
    (tracker.persistElected record).elected identity = tracker.elected identity :=
  Function.update_of_ne h ..

/-- The record that an election commits. -/
def HaElection.committed : HaElection → Option HaElectionRecord
  | .elect record => some record
  | .update record => some record
  | _ => none

/-- An accepted request of a replica commits a record of that replica and time; before it
the identity held nothing, or the replica, or a lease older than the failover timeout. -/
theorem decideElection_committed {elected : HaElectionIdentity → Option HaElectionRecord}
    {tenant : String} {series : List DecodedSeries} {nowMs : Int64}
    {failoverTimeout : FailoverTimeout}
    (h : (decideElection elected tenant series nowMs failoverTimeout).committed = some record) :
    (∃ first rest, series = first :: rest ∧ first.replica = some record.replica ∧
      record = ⟨tenant, first.cluster, record.replica, nowMs⟩) ∧
    ∀ held, elected record.identity = some held →
      held.replica = record.replica ∨
        failoverTimeout.Passed (saturatingSub nowMs held.leaseTimestampMs) := by
  cases series with
  | nil => cases h
  | cons first rest =>
    rw [decideElection] at h
    split at h
    · cases h
    · rename_i replica hrep
      split at h
      · rename_i held hh
        split at h
        · rename_i same
          cases h
          refine ⟨⟨first, rest, rfl, hrep, rfl⟩, fun other ho => ?_⟩
          cases hh.symm.trans ho
          exact .inl same
        · split at h <;> cases h
          rename_i stale
          refine ⟨⟨first, rest, rfl, hrep, rfl⟩, fun other ho => ?_⟩
          cases hh.symm.trans ho
          exact .inr stale
      · rename_i hh
        cases h
        exact ⟨⟨first, rest, rfl, hrep, rfl⟩, fun other ho =>
          absurd (hh.symm.trans ho) nofun⟩

/-- An election is its decision, with the record that it commits put in place. -/
theorem elect_eq (tenant : String) (series : List DecodedSeries)
    (nowMs : Int64) (failoverTimeout : FailoverTimeout) :
    tracker.elect tenant series nowMs failoverTimeout =
      (((decideElection tracker.elected tenant series nowMs failoverTimeout).committed.elim
        tracker tracker.persistElected),
        decideElection tracker.elected tenant series nowMs failoverTimeout) := by
  rw [HaTracker.elect]
  cases decideElection tracker.elected tenant series nowMs failoverTimeout <;> rfl

end KrabkaO11y.Metrics
