import KrabkaO11y.Concurrent.System
import KrabkaO11y.Traces.FlushWindows

/-!
The trace block builder as a group of members over one WAL
(`crates/traces/src/blockbuilder/run.rs`, `flush.rs`,
`crates/observability/src/wal_group_assignment/wal_rebalance_listener.rs`).

A member polls, fences what was revoked, buffers what it read, and now and then writes its buffer
as blocks, saves the trace index and commits its positions. A rebalance happens within a poll. The
partitions it gives back to a member that also lost them are rewound to the committed position.
Blocks are written one at a time, other members move between any two steps, and a member may stop
at each of them: a failure of any call ends the role and looks like a crash.

`committed_spans_in_saved_blocks` is the result: below a committed position every span is in a
block that the saved index names. Nothing is asked of the assignment. Two members may own a
partition at once and commit over each other, since each knows of its own position that everything
below it is saved or in its own buffer (`MemberInvariant`).

The saved index is the set of object keys that the newest snapshot names. A save merges the keys
added since the last one into it. The log keeps its records, so its start is offset 0.
-/

namespace KrabkaO11y.Traces.Builder

open Concurrent.System List

variable {n : Nat} {α μ : Type}

/-! ### The consumer -/

structure WalRebalanceListener (n : Nat) where
  revoked : Finset (Fin n) := ∅
  rewind : Finset (Fin n) := ∅
deriving DecidableEq

structure Consumer (n : Nat) where
  owned : Finset (Fin n) := ∅
  position : Fin n → Nat := fun _ => 0
  listener : WalRebalanceListener n := {}

/-- What a poll does to the assignment first; `none` when the assignment callback does not run. -/
structure Rebalance (n : Nat) where
  revoked : Finset (Fin n)
  assigned : Option (Finset (Fin n))
deriving DecidableEq

variable (committed : Fin n → Option Nat)

/-- Where reading starts: the committed position, or the start of the log. -/
def startOffset (p : Fin n) : Nat := (committed p).getD 0

def WalRebalanceListener.onPartitionsRevoked (listener : WalRebalanceListener n)
    (partitions : Finset (Fin n)) : WalRebalanceListener n where
  revoked := listener.revoked ∪ partitions
  rewind := listener.rewind ∪ partitions

namespace Consumer

variable (consumer : Consumer n)

def onPartitionsAssigned
    (partitions : Finset (Fin n)) : Consumer n :=
  { consumer with
    position := fun p =>
      if p ∈ partitions ∩ consumer.listener.rewind then startOffset committed p
      else consumer.position p
    -- the callback clears what it had read, which is the whole set
    listener := { consumer.listener with rewind := ∅ } }

def revoke (partitions : Finset (Fin n)) : Consumer n :=
  { consumer with
    owned := consumer.owned \ partitions
    listener := consumer.listener.onPartitionsRevoked partitions }

/-- `before` is what was owned before the rebalance: the client keeps the position of a partition
that comes back, and starts any other at its committed position. -/
def assign (before : Finset (Fin n)) (consumer : Consumer n)
    (partitions : Finset (Fin n)) : Consumer n :=
  onPartitionsAssigned committed
    { consumer with
      owned := consumer.owned ∪ partitions
      position := fun p =>
        if p ∈ partitions ∧ p ∉ before then startOffset committed p else consumer.position p }
    partitions

/-- The assignment of a poll: left alone, changed by revocations only, or given anew. -/
def rebalance :
    Option (Rebalance n) → Consumer n
  | none => consumer
  | some ⟨revoked, none⟩ => consumer.revoke revoked
  | some ⟨revoked, some assigned⟩ =>
    assign committed consumer.owned (consumer.revoke revoked) assigned

def fetchNext (logs : Fin n → List (WalValue α)) (consumer : Consumer n) (p : Fin n) :
    Option (ConsumerRecord n α) :=
  if p ∈ consumer.owned then
    (logs p)[consumer.position p]?.map fun value => ⟨p, consumer.position p, value⟩
  else none

def advance (p : Fin n) : Consumer n :=
  { consumer with position := Function.update consumer.position p (consumer.position p + 1) }

/-- The records of a poll, one partition after the other in any order. -/
def fetch (logs : Fin n → List (WalValue α)) :
    Consumer n → List (Fin n) → List (ConsumerRecord n α) × Consumer n
  | consumer, [] => ([], consumer)
  | consumer, p :: order =>
    match consumer.fetchNext logs p with
    | none => fetch logs consumer order
    | some record =>
      let fetched := fetch logs (consumer.advance p) order
      (record :: fetched.1, fetched.2)

def takeRevokedPartitions : Finset (Fin n) × Consumer n :=
  (consumer.listener.revoked,
    { consumer with listener := { consumer.listener with revoked := ∅ } })

end Consumer

/-! ### Members -/

/-- Where a member stands: before a poll, with blocks still to write, or before the commit. -/
inductive Phase (n : Nat) (α : Type) where
  | polling
  | flushing (blocks : List (Block n α))
  | saved

/-- `pending` are the blocks added to the trace index since it was last saved. -/
structure Member (n : Nat) (α : Type) where
  consumer : Consumer n := {}
  accumulator : FlushAccumulator n α := {}
  pending : List (ObjectKey n) := []
  phase : Phase n α := .polling
  draining : Bool := false

namespace Member

/-- A flush drains the accumulator first. -/
def beginFlush (member : Member n α) : Member n α :=
  { member with
    accumulator := {}
    phase := .flushing (flushPartitionWindows member.accumulator.windows) }

/-- One round of the loop; `none` is the exit of the role on a record it cannot read. -/
def poll (config : BlockBuilderConfig) (logs : Fin n → List (WalValue α))
    (committed : Fin n → Option Nat) (member : Member n α) (change : Option (Rebalance n))
    (order : List (Fin n)) (mergedAt checkedAt : Nat) : Option (Member n α) :=
  let polled := (member.consumer.rebalance committed change).fetch logs order
  let revoked := polled.2.takeRevokedPartitions
  (decodeConsumerRecords polled.1).map fun windows =>
    let accumulator := (member.accumulator.removePartitions revoked.1).merge windows mergedAt
    let next := { member with consumer := revoked.2, accumulator := accumulator }
    if accumulator.shouldFlush config checkedAt then next.beginFlush else next

/-- After a commit the loop goes on, or the drained role ends. -/
def afterCommit (member : Member n α) : Option (Member n α) :=
  if member.draining then none else some { member with phase := .polling }

end Member

/-! ### The group -/

structure State (n : Nat) (μ α : Type) where
  logs : Fin n → List (WalValue α) := fun _ => []
  committed : Fin n → Option Nat := fun _ => none
  blocks : ObjectKey n → Option (List (Span α)) := fun _ => none
  saved : List (ObjectKey n) := []
  members : μ → Option (Member n α) := fun _ => none

inductive Event (n : Nat) (μ α : Type) where
  | append (p : Fin n) (value : WalValue α)
  | start (m : μ)
  | poll (m : μ) (change : Option (Rebalance n)) (order : List (Fin n)) (mergedAt checkedAt : Nat)
  | shutdown (m : μ)
  | writeBlock (m : μ)
  | saveIndex (m : μ)
  | commit (m : μ)
  | crash (m : μ)

section Step

variable [DecidableEq μ]

def State.setMember (s : State n μ α) (m : μ) (member : Option (Member n α)) : State n μ α :=
  { s with members := Function.update s.members m member }

def pollStep (config : BlockBuilderConfig) (s : State n μ α) (m : μ) (member : Member n α)
    (change : Option (Rebalance n)) (order : List (Fin n)) (mergedAt checkedAt : Nat) :
    Option (State n μ α) :=
  match member.phase with
  | .polling =>
    some (s.setMember m (member.poll config s.logs s.committed change order mergedAt checkedAt))
  | _ => none

/-- The loop ends; what is still buffered is flushed first. -/
def shutdownStep (s : State n μ α) (m : μ) (member : Member n α) : Option (State n μ α) :=
  match member.phase with
  | .polling =>
    if member.accumulator.isEmpty then some (s.setMember m none)
    else some (s.setMember m (some { member with draining := true }.beginFlush))
  | _ => none

def writeStep (s : State n μ α) (m : μ) (member : Member n α) : Option (State n μ α) :=
  match member.phase with
  | .flushing (block :: rest) =>
    some ({ s with blocks := Function.update s.blocks block.objectKey (some block.rows) }.setMember
      m (some { member with
        pending := member.pending ++ [block.objectKey]
        phase := .flushing rest }))
  | _ => none

def saveStep (s : State n μ α) (m : μ) (member : Member n α) : Option (State n μ α) :=
  match member.phase with
  | .flushing [] =>
    some ({ s with saved := s.saved ++ member.pending }.setMember m
      (some { member with pending := [], phase := .saved }))
  | _ => none

def commitStep (s : State n μ α) (m : μ) (member : Member n α) : Option (State n μ α) :=
  match member.phase with
  | .saved =>
    some ({ s with
      committed := fun p =>
        if p ∈ member.consumer.owned then some (member.consumer.position p)
        else s.committed p }.setMember m member.afterCommit)
  | _ => none

def step (config : μ → BlockBuilderConfig) (s : State n μ α) :
    Event n μ α → Option (State n μ α)
  | .append p value => some { s with logs := Function.update s.logs p (s.logs p ++ [value]) }
  | .start m => if (s.members m).isSome then none else some (s.setMember m (some {}))
  | .poll m change order mergedAt checkedAt =>
    (s.members m).bind fun member =>
      pollStep (config m) s m member change order mergedAt checkedAt
  | .shutdown m => (s.members m).bind (shutdownStep s m)
  | .writeBlock m => (s.members m).bind (writeStep s m)
  | .saveIndex m => (s.members m).bind (saveStep s m)
  | .commit m => (s.members m).bind (commitStep s m)
  | .crash m => some (s.setMember m none)

end Step

/-- Nothing is stored and nobody runs; the log may hold records already. -/
def initial (s : State n μ α) : Prop :=
  (∀ p, s.committed p = none) ∧ (∀ key, s.blocks key = none) ∧ s.saved = [] ∧
    ∀ m, s.members m = none

/-! ### What a poll reads -/

/-- What was fetched since `start` is in the windows. -/
structure Fetched (logs : Fin n → List (WalValue α)) (start : Fin n → Nat) (consumer : Consumer n)
    (windows : Windows n α) : Prop where
  within : ∀ p ∈ consumer.owned, consumer.position p ≤ (logs p).length
  since : ∀ p, start p ≤ consumer.position p
  holds : ∀ p, Holds (logs p) (start p) (consumer.position p) (windows p)
  unowned : ∀ p ∉ consumer.owned, windows p = none

namespace Fetched

variable {logs : Fin n → List (WalValue α)} {start : Fin n → Nat} {consumer : Consumer n}
  {windows windows' : Windows n α} {record : ConsumerRecord n α} {p : Fin n}

theorem next (h : Fetched logs start consumer windows)
    (hn : consumer.fetchNext logs p = some record)
    (hdec : decodeRecord windows record = some windows') :
    Fetched logs start (consumer.advance p) windows' := by
  unfold Consumer.fetchNext at hn
  split at hn
  next how =>
    obtain ⟨value, hval, rfl⟩ := Option.map_eq_some_iff.mp hn
    have hlt : consumer.position p < (logs p).length := (List.getElem?_eq_some_iff.mp hval).1
    obtain ⟨window, hwin, rfl⟩ := decodeRecord_holds hdec hval
    refine ⟨fun q hq => ?_, fun q => ?_, fun q => ?_, fun q hq => ?_⟩
    · rcases eq_or_ne q p with rfl | hne
      · simpa [Consumer.advance] using hlt
      · simpa [Consumer.advance, hne] using h.within q hq
    · rcases eq_or_ne q p with rfl | hne
      · simpa [Consumer.advance] using (h.since q).trans (Nat.le_succ _)
      · simpa [Consumer.advance, hne] using h.since q
    · rcases eq_or_ne q p with rfl | hne
      · simpa [Consumer.advance] using
          (h.holds q).combine (h.since q) (Nat.le_succ _) hwin
      · simpa [Consumer.advance, hne] using h.holds q
    · have hne : q ≠ p := fun heq => hq (heq ▸ how)
      simpa [hne] using h.unowned q hq
  next => simp at hn

/-- A whole poll, record by record. -/
theorem fetch {order : List (Fin n)} : ∀ {consumer : Consumer n} {windows : Windows n α},
    Fetched logs start consumer windows →
      (consumer.fetch logs order).1.foldlM decodeRecord windows = some windows' →
        Fetched logs start (consumer.fetch logs order).2 windows' := by
  induction order with
  | nil =>
    intro consumer windows h hdec
    cases hdec
    exact h
  | cons p order ih =>
    intro consumer windows h hdec
    cases hn : consumer.fetchNext logs p with
    | none =>
      simp only [Consumer.fetch, hn] at hdec ⊢
      exact ih h hdec
    | some record =>
      simp only [Consumer.fetch, hn, foldlM_cons] at hdec ⊢
      obtain ⟨between, hbe, hr⟩ := Option.bind_eq_some_iff.mp hdec
      exact ih (h.next hn hbe) hr

end Fetched

section FetchFrame

variable {logs : Fin n → List (WalValue α)}

/-- A fetch moves positions only. -/
theorem Consumer.fetch_frame {order : List (Fin n)} : ∀ {consumer : Consumer n},
    (consumer.fetch logs order).2.owned = consumer.owned ∧
      (consumer.fetch logs order).2.listener = consumer.listener := by
  induction order with
  | nil => exact ⟨rfl, rfl⟩
  | cons p order ih =>
    intro consumer
    cases hn : consumer.fetchNext logs p with
    | none => simpa only [Consumer.fetch, hn] using ih
    | some record =>
      simp only [Consumer.fetch, hn]
      exact @ih (consumer.advance p)

end FetchFrame

/-! ### The invariant -/

/-- Every span of a partition below an offset has its block among the keys. -/
def Below (logs : Fin n → List (WalValue α)) (keys : List (ObjectKey n)) (p : Fin n) (hi : Nat) :
    Prop :=
  ∀ o < hi, ∀ record, (logs p)[o]? = some (.span record) → ∃ key ∈ keys, Covers key p o record

/-- Below its position a consumer has everything saved or in its windows. -/
def Held (logs : Fin n → List (WalValue α)) (saved : List (ObjectKey n)) (consumer : Consumer n)
    (windows : Windows n α) : Prop :=
  ∀ p ∈ consumer.owned, ∃ lo ≤ consumer.position p,
    Below logs saved p lo ∧ Holds (logs p) lo (consumer.position p) (windows p)

/-- A consumer and the buffer it has filled. -/
structure Buffered (logs : Fin n → List (WalValue α)) (saved : List (ObjectKey n))
    (consumer : Consumer n) (windows : Windows n α) : Prop where
  rewound : ∀ p ∈ consumer.owned, p ∉ consumer.listener.rewind
  within : ∀ p ∈ consumer.owned, consumer.position p ≤ (logs p).length
  unowned : ∀ p ∉ consumer.owned, windows p = none
  held : Held logs saved consumer windows

/-- The spans that a member has read and not saved, by where it stands. -/
def Unsaved (logs : Fin n → List (WalValue α)) (saved : List (ObjectKey n)) (member : Member n α) :
    Phase n α → Prop
  | .polling => Held logs saved member.consumer member.accumulator.windows
  | .flushing blocks => (∀ block ∈ blocks, Stretch logs block) ∧
      (∀ p, member.accumulator.windows p = none) ∧
      ∀ p ∈ member.consumer.owned,
        Below logs (saved ++ member.pending ++ blocks.map Block.objectKey) p
          (member.consumer.position p)
  | .saved => (∀ p, member.accumulator.windows p = none) ∧
      ∀ p ∈ member.consumer.owned, Below logs saved p (member.consumer.position p)

structure MemberInvariant (s : State n μ α) (member : Member n α) : Prop where
  drained : member.consumer.listener.revoked = ∅
  rewound : ∀ p ∈ member.consumer.owned, p ∉ member.consumer.listener.rewind
  within : ∀ p ∈ member.consumer.owned, member.consumer.position p ≤ (s.logs p).length
  unowned : ∀ p ∉ member.consumer.owned, member.accumulator.windows p = none
  written : ∀ key ∈ member.pending, (s.blocks key).isSome
  unsaved : Unsaved s.logs s.saved member member.phase

structure Invariant (s : State n μ α) : Prop where
  stretches : ∀ key rows, s.blocks key = some rows → Stretch s.logs ⟨key, rows⟩
  stored : ∀ key ∈ s.saved, (s.blocks key).isSome
  committed : ∀ p c, s.committed p = some c → c ≤ (s.logs p).length ∧ Below s.logs s.saved p c
  members : ∀ m member, s.members m = some member → MemberInvariant s member

/-- What every step leaves in place. -/
structure Grows (s s' : State n μ α) : Prop where
  logs : ∀ p, s.logs p <+: s'.logs p
  blocks : ∀ key, (s.blocks key).isSome → (s'.blocks key).isSome
  saved : ∀ key ∈ s.saved, key ∈ s'.saved

section Growth

variable {logs logs' : Fin n → List (WalValue α)} {keys keys' : List (ObjectKey n)} {p : Fin n}
  {hi : Nat} {s s' : State n μ α} {member : Member n α}

theorem below_zero : Below logs keys p 0 := fun _ h => absurd h (Nat.not_lt_zero _)

theorem Below.grow (hlogs : ∀ p, logs p <+: logs' p) (hkeys : ∀ key ∈ keys, key ∈ keys')
    (hhi : hi ≤ (logs p).length) (h : Below logs keys p hi) : Below logs' keys' p hi := by
  intro o ho record hsp
  obtain ⟨rest, hr⟩ := hlogs p
  rw [← hr, getElem?_append_left (lt_of_lt_of_le ho hhi)] at hsp
  obtain ⟨key, hkey, hcov⟩ := h o ho record hsp
  exact ⟨key, hkeys key hkey, hcov⟩

theorem Unsaved.grow (hg : Grows s s') {phase : Phase n α}
    (hw : ∀ p ∈ member.consumer.owned, member.consumer.position p ≤ (s.logs p).length)
    (h : Unsaved s.logs s.saved member phase) : Unsaved s'.logs s'.saved member phase := by
  cases phase with
  | polling =>
    intro p hp
    obtain ⟨lo, hlo, hbl, hh⟩ := h p hp
    have hlen := hw p hp
    refine ⟨lo, hlo, hbl.grow hg.logs hg.saved (hlo.trans hlen), ?_⟩
    obtain ⟨rest, hr⟩ := hg.logs p
    rw [← hr]
    exact hh.extend hlen
  | flushing blocks =>
    obtain ⟨hstr, hem, hbl⟩ := h
    refine ⟨fun block hb => (hstr block hb).extend hg.logs, hem,
      fun p hp => (hbl p hp).grow hg.logs (fun key hkey => ?_) (hw p hp)⟩
    simp only [mem_append] at hkey ⊢
    exact hkey.imp (Or.imp (hg.saved key) id) id
  | saved =>
    exact ⟨h.1, fun p hp => (h.2 p hp).grow hg.logs hg.saved (hw p hp)⟩

theorem MemberInvariant.grow (hg : Grows s s') (h : MemberInvariant s member) :
    MemberInvariant s' member :=
  { h with
    within := fun p hp => (h.within p hp).trans (hg.logs p).length_le
    written := fun key hkey => hg.blocks key (h.written key hkey)
    unsaved := h.unsaved.grow hg h.within }

/-- The part of a step that other members and old commits see. -/
theorem Invariant.grow (h : Invariant s) (hg : Grows s s')
    (hstretches : ∀ key rows, s'.blocks key = some rows → Stretch s'.logs ⟨key, rows⟩)
    (hsto : ∀ key ∈ s'.saved, (s'.blocks key).isSome)
    (hcom : ∀ p c, s'.committed p = some c → s.committed p = some c ∨
      (c ≤ (s'.logs p).length ∧ Below s'.logs s'.saved p c))
    (hmembers : ∀ m member, s'.members m = some member → s.members m = some member ∨
      MemberInvariant s' member) : Invariant s' where
  stretches := hstretches
  stored := hsto
  committed p c hc := by
    rcases hcom p c hc with hold | hnew
    · obtain ⟨hlen, hbl⟩ := h.committed p c hold
      exact ⟨hlen.trans (hg.logs p).length_le,
        hbl.grow hg.logs hg.saved hlen⟩
    · exact hnew
  members m member hm := by
    rcases hmembers m member hm with hold | hnew
    · exact (h.members m member hold).grow hg
    · exact hnew

end Growth

/-! ### The steps of a member -/

section Poll

variable {logs : Fin n → List (WalValue α)} {saved : List (ObjectKey n)}
  {committed : Fin n → Option Nat} {consumer : Consumer n} {windows incoming : Windows n α}

variable (hcom : ∀ p c, committed p = some c → c ≤ (logs p).length ∧ Below logs saved p c)

include hcom in
/-- Reading starts where everything before is saved. -/
theorem startOffset_spec (p : Fin n) : startOffset committed p ≤ (logs p).length ∧
      Below logs saved p (startOffset committed p) := by
  unfold startOffset
  cases hc : committed p with
  | none => exact ⟨Nat.zero_le _, below_zero⟩
  | some c => exact hcom p c hc

theorem Consumer.revoked_revoke (hdr : consumer.listener.revoked = ∅)
    (partitions : Finset (Fin n)) : (consumer.revoke partitions).listener.revoked = partitions := by
  simp [Consumer.revoke, WalRebalanceListener.onPartitionsRevoked, hdr]

variable (h : Buffered logs saved consumer windows) (hdr : consumer.listener.revoked = ∅)

include h hdr in
theorem Buffered.revoke (partitions : Finset (Fin n)) :
    Buffered logs saved (consumer.revoke partitions) fun p =>
      if p ∈ (consumer.revoke partitions).listener.revoked then none else windows p := by
  have hk : ∀ {p}, p ∈ (consumer.revoke partitions).owned → p ∈ consumer.owned ∧
      p ∉ partitions := fun hp => Finset.mem_sdiff.mp hp
  have hre := Consumer.revoked_revoke hdr partitions
  refine ⟨fun p hp => ?_, fun p hp => h.within p (hk hp).1, fun p hp => ?_, fun p hp => ?_⟩
  · simp only [Consumer.revoke, WalRebalanceListener.onPartitionsRevoked, Finset.mem_union, not_or]
    exact ⟨h.rewound p (hk hp).1, (hk hp).2⟩
  · rw [hre]
    split
    next => rfl
    next hp' => exact h.unowned p fun how => hp (Finset.mem_sdiff.mpr ⟨how, hp'⟩)
  · rw [hre, if_neg (hk hp).2]
    exact h.held p (hk hp).1

include hcom h hdr in
/-- The partitions that come back start again from what is committed, and their windows are
fenced. -/
theorem Buffered.assign (revoked assigned : Finset (Fin n)) :
    Buffered logs saved (Consumer.assign committed consumer.owned (consumer.revoke revoked)
      assigned)
      fun p => if p ∈ revoked then none else windows p := by
  have hrevo := h.revoke hdr revoked
  rw [Consumer.revoked_revoke hdr] at hrevo
  -- a partition keeps its position and its window, or starts afresh with none
  have hca : ∀ p ∈ (consumer.owned \ revoked) ∪ assigned,
      (p ∈ consumer.owned \ revoked ∧
        (Consumer.assign committed consumer.owned (consumer.revoke revoked) assigned).position p =
          consumer.position p) ∨
      ((Consumer.assign committed consumer.owned (consumer.revoke revoked) assigned).position p =
          startOffset committed p ∧ (if p ∈ revoked then none else windows p) = none) := by
    intro p hp
    by_cases hrev : p ∈ revoked
    · have has : p ∈ assigned := by simpa [hrev] using hp
      refine .inr ⟨?_, if_pos hrev⟩
      simp [Consumer.assign, Consumer.onPartitionsAssigned, Consumer.revoke,
        WalRebalanceListener.onPartitionsRevoked, has, hrev]
    · by_cases how : p ∈ consumer.owned
      · refine .inl ⟨Finset.mem_sdiff.mpr ⟨how, hrev⟩, ?_⟩
        simp [Consumer.assign, Consumer.onPartitionsAssigned, Consumer.revoke,
          WalRebalanceListener.onPartitionsRevoked, how, hrev, h.rewound p how]
      · have has : p ∈ assigned := by simpa [how] using hp
        refine .inr ⟨?_, by rw [if_neg hrev, h.unowned p how]⟩
        simp [Consumer.assign, Consumer.onPartitionsAssigned, Consumer.revoke, has, how]
  refine ⟨fun p _ => Finset.notMem_empty p, fun p hp => ?_, fun p hp => ?_, fun p hp => ?_⟩
  · rcases hca p hp with ⟨hk, hpos⟩ | ⟨hpos, -⟩
    · rw [hpos]
      exact hrevo.within p hk
    · rw [hpos]
      exact (startOffset_spec hcom p).1
  · exact hrevo.unowned p fun hk => hp (Finset.mem_union_left _ hk)
  · rcases hca p hp with ⟨hk, hpos⟩ | ⟨hpos, hno⟩
    · rw [hpos]
      exact hrevo.held p hk
    · rw [hpos, hno]
      exact ⟨_, le_rfl, (startOffset_spec hcom p).2, Holds.empty⟩

include hcom h hdr in
theorem Buffered.rebalance : (change : Option (Rebalance n)) →
    Buffered logs saved (consumer.rebalance committed change)
      fun p => if p ∈ (consumer.rebalance committed change).listener.revoked then none
        else windows p
  | none => by simpa [Consumer.rebalance, hdr] using h
  | some ⟨revoked, none⟩ => h.revoke hdr revoked
  | some ⟨revoked, some assigned⟩ => by
    have hrevoked : (consumer.rebalance committed (some ⟨revoked, some assigned⟩)).listener.revoked
        = revoked := Consumer.revoked_revoke hdr revoked
    rw [hrevoked]
    exact h.assign hcom hdr revoked assigned

include h in
theorem Buffered.fetch {order : List (Fin n)}
    (hdec : decodeConsumerRecords (consumer.fetch logs order).1 = some incoming) :
    Buffered logs saved (consumer.fetch logs order).2
      fun p => combine (windows p) (nonEmpty (incoming p)) := by
  have hfet : Fetched logs consumer.position (consumer.fetch logs order).2 incoming :=
    Fetched.fetch ⟨h.within, fun _ => le_rfl, fun _ => Holds.empty, fun _ _ => rfl⟩ hdec
  have hfm := @Consumer.fetch_frame n α logs order consumer
  refine ⟨fun p hp => ?_, hfet.within, fun p hp => ?_, fun p hp => ?_⟩
  · rw [hfm.2]
    exact h.rewound p (hfm.1 ▸ hp)
  · rw [hfet.unowned p hp, h.unowned p (hfm.1 ▸ hp)]
    rfl
  · obtain ⟨lo, hlo, hbl, hh⟩ := h.held p (hfm.1 ▸ hp)
    exact ⟨lo, hlo.trans (hfet.since p), hbl,
      hh.combine hlo (hfet.since p) (hfet.holds p).nonEmpty⟩

end Poll

section Members

variable {s : State n μ α} {member next : Member n α}

/-- A member that polls, from its buffer. -/
theorem MemberInvariant.buffered (h : MemberInvariant s member) (hphase : member.phase = .polling) :
    Buffered s.logs s.saved member.consumer member.accumulator.windows := by
  have hh := h.unsaved
  rw [hphase] at hh
  exact ⟨h.rewound, h.within, h.unowned, hh⟩

theorem Buffered.memberInvariant
    (h : Buffered s.logs s.saved member.consumer member.accumulator.windows)
    (drained : member.consumer.listener.revoked = ∅)
    (written : ∀ key ∈ member.pending, (s.blocks key).isSome)
    (hphase : member.phase = .polling) : MemberInvariant s member := by
  refine ⟨drained, h.rewound, h.within, h.unowned, written, ?_⟩
  rw [hphase]
  exact h.held

/-- The blocks of a flush cover what was buffered. -/
theorem MemberInvariant.beginFlush (h : MemberInvariant s member)
    (hphase : member.phase = .polling) : MemberInvariant s member.beginFlush := by
  have hbu := h.buffered hphase
  choose! lo hlo hbl hh using hbu.held
  -- outside the assignment the windows are empty
  have hall : ∀ p, ∃ from_ upto, Holds (s.logs p) from_ upto (member.accumulator.windows p) ∧
      ∀ window, member.accumulator.windows p = some window → upto ≤ (s.logs p).length := by
    intro p
    by_cases hp : p ∈ member.consumer.owned
    · exact ⟨_, _, hh p hp, fun _ _ => h.within p hp⟩
    · rw [h.unowned p hp]
      exact ⟨0, 0, Holds.empty, fun _ hno => nomatch hno⟩
  choose from_ upto hfr hup using hall
  refine ⟨h.drained, h.rewound, h.within, fun _ _ => rfl, h.written,
    fun block hb => stretch_of_mem hfr hup hb, fun _ => rfl, ?_⟩
  intro p hp o ho record hsp
  rcases lt_or_ge o (lo p) with hlt | hge
  · obtain ⟨key, hkey, hcov⟩ := hbl p hp o hlt record hsp
    exact ⟨key, by simp [hkey], hcov⟩
  · obtain ⟨block, hb, hcov⟩ := covers_of_holds (hh p hp) hge ho hsp
    exact ⟨block.objectKey, mem_append_right _ (mem_map_of_mem hb), hcov⟩

theorem MemberInvariant.poll {config : BlockBuilderConfig} {change : Option (Rebalance n)}
    {order : List (Fin n)} {mergedAt checkedAt : Nat} (hs : Invariant s)
    (h : MemberInvariant s member) (hphase : member.phase = .polling)
    (hpoll : member.poll config s.logs s.committed change order mergedAt checkedAt = some next) :
    MemberInvariant s next := by
  obtain ⟨incoming, hdec, rfl⟩ := Option.map_eq_some_iff.mp hpoll
  have hfe := ((h.buffered hphase).rebalance hs.committed h.drained change).fetch hdec
  -- a fetch keeps the listener, so what is fenced is what the rebalance revoked
  rw [← (@Consumer.fetch_frame n α s.logs order
    (member.consumer.rebalance s.committed change)).2] at hfe
  have hmrg : MemberInvariant s { member with
      consumer := ((member.consumer.rebalance s.committed change).fetch s.logs
        order).2.takeRevokedPartitions.2
      accumulator := (member.accumulator.removePartitions
        ((member.consumer.rebalance s.committed change).fetch s.logs
          order).2.takeRevokedPartitions.1).merge incoming mergedAt } :=
    Buffered.memberInvariant ⟨hfe.rewound, hfe.within, hfe.unowned, hfe.held⟩ rfl
      h.written hphase
  simp only
  split
  next => exact hmrg.beginFlush hphase
  next => exact hmrg

theorem MemberInvariant.start : MemberInvariant s ({} : Member n α) := by
  have hno {P : Fin n → Prop} : ∀ p ∈ (∅ : Finset (Fin n)), P p := fun p hp =>
    absurd hp (Finset.notMem_empty p)
  exact Buffered.memberInvariant ⟨hno, hno, fun _ _ => rfl, hno⟩ rfl nofun rfl

end Members

/-! ### Every step -/

section Steps

variable [DecidableEq μ] {s s' : State n μ α} {m : μ} {member : Member n α}
  {next : Option (Member n α)}

theorem grows_setMember : Grows s (s.setMember m next) :=
  ⟨fun _ => prefix_refl _, fun _ => id, fun _ => id⟩

theorem Invariant.setMember (h : Invariant s)
    (hn : ∀ member, next = some member → MemberInvariant s member) :
    Invariant (s.setMember m next) := by
  refine h.grow grows_setMember h.stretches h.stored (fun p c hc => .inl hc)
    fun other member hm => ?_
  rcases eq_or_ne other m with rfl | hne
  · have hm : next = some member := by simpa [State.setMember] using hm
    exact .inr ((hn member hm).grow grows_setMember)
  · exact .inl (by simpa [State.setMember, hne] using hm)

theorem Invariant.putMember (h : Invariant s) (hn : MemberInvariant s member) :
    Invariant (s.setMember m (some member)) :=
  h.setMember fun _ hs => Option.some.inj hs ▸ hn

omit [DecidableEq μ] in
theorem Invariant.append (h : Invariant s) (p : Fin n) (value : WalValue α) :
    Invariant { s with logs := Function.update s.logs p (s.logs p ++ [value]) } := by
  have hlo : ∀ q, s.logs q <+: Function.update s.logs p (s.logs p ++ [value]) q := by
    intro q
    rcases eq_or_ne q p with rfl | hne
    · simp
    · simp [hne]
  exact h.grow ⟨hlo, fun _ => id, fun _ => id⟩
    (fun key rows hrs => (h.stretches key rows hrs).extend hlo) h.stored
    (fun p c hc => .inl hc) fun m member hm => .inl hm

theorem Invariant.poll {config : BlockBuilderConfig} {change : Option (Rebalance n)}
    {order : List (Fin n)} {mergedAt checkedAt : Nat} (h : Invariant s)
    (hm : s.members m = some member)
    (hs : pollStep config s m member change order mergedAt checkedAt = some s') :
    Invariant s' := by
  unfold pollStep at hs
  split at hs
  next hph =>
    cases hs
    exact h.setMember fun next hn => (h.members m member hm).poll h hph hn
  next => cases hs

theorem Invariant.shutdown (h : Invariant s) (hm : s.members m = some member)
    (hs : shutdownStep s m member = some s') : Invariant s' := by
  have hinv := h.members m member hm
  unfold shutdownStep at hs
  split at hs
  next hph =>
    split at hs
    next =>
      cases hs
      exact h.setMember fun _ hno => nomatch hno
    next =>
      cases hs
      have hdr : MemberInvariant s { member with draining := true } := { hinv with }
      exact h.putMember (hdr.beginFlush hph)
  next => cases hs

omit [DecidableEq μ] in
theorem isSome_putBlock {block : Block n α} {key : ObjectKey n} (h : (s.blocks key).isSome) :
    (Function.update s.blocks block.objectKey (some block.rows) key).isSome := by
  rcases eq_or_ne key block.objectKey with rfl | hne
  · simp
  · simpa [hne] using h

omit [DecidableEq μ] in
/-- A block that is written again holds the same rows, since the key says which they are. -/
theorem Invariant.putBlock (h : Invariant s) {block : Block n α} (hstr : Stretch s.logs block) :
    Invariant { s with blocks := Function.update s.blocks block.objectKey (some block.rows) } := by
  refine h.grow ⟨fun _ => prefix_refl _, fun _ => isSome_putBlock, fun _ => id⟩
    (fun key rows hrs => ?_) (fun key hkey => isSome_putBlock (h.stored key hkey))
    (fun p c hc => .inl hc) fun m member hm => .inl hm
  rcases eq_or_ne key block.objectKey with rfl | hne
  · obtain rfl : block.rows = rows := by simpa using hrs
    exact hstr
  · exact h.stretches key rows (by simpa [hne] using hrs)

theorem Invariant.write (h : Invariant s) (hm : s.members m = some member)
    (hs : writeStep s m member = some s') : Invariant s' := by
  have hinv := h.members m member hm
  unfold writeStep at hs
  split at hs
  next block rest hph =>
    cases hs
    obtain ⟨hstr, hem, hbl⟩ := hph ▸ hinv.unsaved
    refine (h.putBlock (hstr block mem_cons_self)).putMember { hinv with
      written := fun key hkey => ?_
      unsaved := ⟨fun other ho => hstr other (mem_cons_of_mem _ ho), hem, fun p hp => ?_⟩ }
    · rcases mem_append.mp hkey with hold | hnew
      · exact isSome_putBlock (hinv.written key hold)
      · obtain rfl := mem_singleton.mp hnew
        simp
    · simpa using hbl p hp
  next => cases hs

theorem Invariant.save (h : Invariant s) (hm : s.members m = some member)
    (hs : saveStep s m member = some s') : Invariant s' := by
  have hinv := h.members m member hm
  unfold saveStep at hs
  split at hs
  next hph =>
    cases hs
    obtain ⟨-, hem, hbl⟩ := hph ▸ hinv.unsaved
    have hsv : Invariant { s with saved := s.saved ++ member.pending } := by
      refine h.grow ⟨fun _ => prefix_refl _, fun _ => id, fun _ => mem_append_left _⟩
        h.stretches (fun key hkey => ?_) (fun p c hc => .inl hc) fun m member hm => .inl hm
      rcases mem_append.mp hkey with hold | hnew
      · exact h.stored key hold
      · exact hinv.written key hnew
    exact hsv.putMember { hinv with
      written := nofun
      unsaved := ⟨hem, fun p hp => by simpa using hbl p hp⟩ }
  next => cases hs

theorem Invariant.commit (h : Invariant s) (hm : s.members m = some member)
    (hs : commitStep s m member = some s') : Invariant s' := by
  have hinv := h.members m member hm
  unfold commitStep at hs
  split at hs
  next hph =>
    cases hs
    obtain ⟨hem, hbl⟩ := hph ▸ hinv.unsaved
    have hcom : Invariant { s with
        committed := fun p =>
          if p ∈ member.consumer.owned then some (member.consumer.position p)
          else s.committed p } := by
      refine h.grow ⟨fun _ => prefix_refl _, fun _ => id, fun _ => id⟩ h.stretches h.stored
        (fun p c hc => ?_) fun m member hm => .inl hm
      by_cases hp : p ∈ member.consumer.owned
      · obtain rfl : member.consumer.position p = c := by simpa [hp] using hc
        exact .inr ⟨hinv.within p hp, hbl p hp⟩
      · exact .inl (by simpa [hp] using hc)
    refine hcom.setMember fun next hn => ?_
    unfold Member.afterCommit at hn
    split at hn
    next => cases hn
    next =>
      cases hn
      refine { hinv with unsaved := fun p hp => ⟨_, le_rfl, hbl p hp, ?_⟩ }
      rw [show member.accumulator.windows p = none from hem p]
      exact Holds.empty
  next => cases hs

theorem Invariant.step {config : μ → BlockBuilderConfig} {event : Event n μ α} (h : Invariant s)
    (hs : step config s event = some s') : Invariant s' := by
  cases event with
  | append p value =>
    cases hs
    exact h.append p value
  | start m =>
    simp only [Builder.step] at hs
    split at hs
    next => cases hs
    next =>
      cases hs
      exact h.putMember .start
  | poll m change order mergedAt checkedAt =>
    obtain ⟨member, hm, hpo⟩ := Option.bind_eq_some_iff.mp hs
    exact h.poll hm hpo
  | shutdown m =>
    obtain ⟨member, hm, hsh⟩ := Option.bind_eq_some_iff.mp hs
    exact h.shutdown hm hsh
  | writeBlock m =>
    obtain ⟨member, hm, hw⟩ := Option.bind_eq_some_iff.mp hs
    exact h.write hm hw
  | saveIndex m =>
    obtain ⟨member, hm, hsa⟩ := Option.bind_eq_some_iff.mp hs
    exact h.save hm hsa
  | commit m =>
    obtain ⟨member, hm, hco⟩ := Option.bind_eq_some_iff.mp hs
    exact h.commit hm hco
  | crash m =>
    cases hs
    exact h.setMember fun _ hno => nomatch hno

omit [DecidableEq μ] in
theorem invariant_of_initial (h : initial s) : Invariant s := by
  obtain ⟨hcom, hbs, hsv, hme⟩ := h
  refine ⟨fun key rows hrs => ?_, fun key hkey => ?_, fun p c hc => ?_, fun m member hm => ?_⟩
  · rw [hbs key] at hrs
    cases hrs
  · rw [hsv] at hkey
    cases hkey
  · rw [hcom p] at hc
    cases hc
  · rw [hme m] at hm
    cases hm

end Steps

/-! ### Runs -/

/-- In every run, with any rebalances, failures and restarts of any members, a span below the
committed position of its partition is in a stored block that the saved index names. -/
theorem committed_spans_in_saved_blocks [DecidableEq μ] {config : μ → BlockBuilderConfig}
    {s : State n μ α} (h : Reachable (step config) initial (fun _ _ => True) s) {p : Fin n}
    {c o : Nat} {record : SpanRecord α} (hcommitted : s.committed p = some c) (ho : o < c)
    (hspan : (s.logs p)[o]? = some (.span record)) :
    ∃ key ∈ s.saved, Covers key p o record ∧
      ∃ rows, s.blocks key = some rows ∧ record.span ∈ rows := by
  have hinvariant : Invariant s :=
    h.invariant (fun _ => invariant_of_initial) fun _ _ _ hs _ hstep => hs.step hstep
  obtain ⟨key, hkey, hcovers⟩ := (hinvariant.committed p c hcommitted).2 o ho record hspan
  obtain ⟨rows, hrows⟩ := Option.isSome_iff_exists.mp (hinvariant.stored key hkey)
  have hstretch := hinvariant.stretches key rows hrows
  exact ⟨key, hkey, hcovers, rows, hrows, hstretch.mem_rows hcovers hspan⟩

/-- A log with two spans of one trace. -/
def twoSpans : State 1 Unit Unit where
  logs _ := [.span ⟨"a", ⟨1, 2, 5, ()⟩⟩, .tombstone, .span ⟨"a", ⟨1, 1, 3, ()⟩⟩]

/-- The member buffers the first span, loses the partition and gets it back, reads again, and
flushes both. -/
def rebalancedRun : List (Event 1 Unit Unit) :=
  [.start (), .poll () (some ⟨∅, some {0}⟩) [0] 0 0,
    .poll () (some ⟨{0}, some {0}⟩) [0, 0, 0] 1 1, .writeBlock (), .saveIndex (), .commit ()]

theorem committed_spans_in_saved_blocks_rebalanced :
    ∃ s, run (step fun _ => ⟨2, 100⟩) twoSpans rebalancedRun = some s ∧ s.committed 0 = some 3 ∧
      ∃ key ∈ s.saved, Covers key 0 2 (⟨"a", ⟨1, 1, 3, ()⟩⟩ : SpanRecord Unit) ∧
        ∃ rows, s.blocks key = some rows ∧ ⟨1, 1, 3, ()⟩ ∈ rows := by
  obtain ⟨s, hrun⟩ : ∃ s, run (step fun _ => ⟨2, 100⟩) twoSpans rebalancedRun = some s := ⟨_, rfl⟩
  have hread : (run (step fun _ => ⟨2, 100⟩) twoSpans rebalancedRun).map
      (fun s => (s.committed 0, s.logs 0)) = some (some 3, twoSpans.logs 0) := by decide +kernel
  rw [hrun] at hread
  have hread := Prod.mk.inj (Option.some.inj hread)
  refine ⟨s, hrun, hread.1, ?_⟩
  have hinitial : initial twoSpans := ⟨fun _ => rfl, fun _ => rfl, rfl, fun _ => rfl⟩
  have hreachable := Reachable.run (.initial hinitial) (meets_of_forall fun _ _ => trivial) hrun
  exact committed_spans_in_saved_blocks hreachable hread.1 (by decide) (by rw [hread.2]; rfl)

end KrabkaO11y.Traces.Builder
