import KrabkaO11y.Observability.Frontier
import KrabkaO11y.Concurrent.ObjectStore
import KrabkaO11y.Concurrent.System

/-!
The log compactors (`crates/observability/src/compactor/runtime.rs`): processes that read
partitions of one WAL and share one object store.

A process loads the frontier at its start. It then polls a batch, writes and publishes a
block for each chunk of it, commits its offsets, and for each block advances its frontier
and puts it over the one in the store. Every store call and every commit is one step, and
a process can crash between any two of them.
-/

namespace KrabkaO11y.Observability

open ObjectStore (Outcome)

/-! ### The WAL -/

/-- The record is on another partition or before the position. -/
def WalLogRecord.precedes (record : WalLogRecord) (position : WalPosition) : Bool :=
  record.position.all fun other =>
    other.partition != position.partition || decide (other.offset < position.offset)

/-- The records of a partition past the offset that a consumer read last. -/
def unread (wal : List WalLogRecord) (partition : Nat) (consumed : Option Int) :
    List WalLogRecord :=
  wal.filter fun record => record.position.any fun position =>
    position.partition == partition && consumed.all fun offset => decide (offset < position.offset)

def WalLogRecord.onPartition (partition : Nat) (record : WalLogRecord) : Bool :=
  record.position.any fun position => position.partition == partition

/-- A poll returns records of assigned partitions, those of each in order and from the one
that the consumer reads next. The partitions may be mixed in any way. -/
def polled (wal : List WalLogRecord) (consumed : Nat → Option (Option Int))
    (batch : List WalLogRecord) : Bool :=
  batch.all fun record => record.position.any fun position =>
    (consumed position.partition).any fun offset =>
      (batch.filter (WalLogRecord.onPartition position.partition)).isPrefixOf
        (unread wal position.partition offset)

/-- The consumer's positions after a record. -/
def consumeRecord (consumed : Nat → Option (Option Int)) (record : WalLogRecord) :
    Nat → Option (Option Int) :=
  match record.position with
  | some position => Function.update consumed position.partition (some (some position.offset))
  | none => consumed

/-- The consumer's positions after a batch. -/
def consume (consumed : Nat → Option (Option Int)) (batch : List WalLogRecord) :
    Nat → Option (Option Int) :=
  batch.foldl consumeRecord consumed

/-! ### Processes -/

/-- What a process does next. -/
inductive Stage where
  | polling
  /-- The chunks left of a batch, whether the block of the first is written, and the blocks
  published. -/
  | compacting (batch : List WalLogRecord) (chunks : List (List WalLogRecord)) (written : Bool)
      (descriptors : List BlockKey)
  | committing (descriptors : List BlockKey)
  /-- `advance_and_persist_compaction_frontier` of a block, before or after the advance. -/
  | persisting (descriptor : BlockKey) (descriptors : List BlockKey) (advanced : Bool)

/-- The next pass of the loop over the blocks of a batch. -/
def Stage.persist : List BlockKey → Stage
  | [] => .polling
  | descriptor :: descriptors => .persisting descriptor descriptors false

/-- The next pass of the loop over the chunks of a batch. -/
def Stage.compact (batch : List WalLogRecord) (descriptors : List BlockKey) :
    List (List WalLogRecord) → Stage
  | [] => .committing descriptors
  | chunk :: chunks => .compacting batch (chunk :: chunks) false descriptors

structure Compactor where
  frontier : SharedFrontierState
  /-- The assigned partitions, each with the last offset read. -/
  consumed : Nat → Option (Option Int)
  stage : Stage

/-- `load_existing_compaction_frontier` on the frontier of a process that starts. -/
def loadExistingCompactionFrontier (stored : Option CompactionFrontier) : SharedFrontierState :=
  stored.elim .initial SharedFrontierState.initial.replace

structure Compaction where
  /-- The acknowledged records. -/
  wal : List WalLogRecord
  /-- The last offset that the group committed on each partition. -/
  committed : Nat → Option Int
  /-- The rows of the block objects. -/
  objects : BlockKey → List WalLogRecord
  /-- The blocks in the index shards. -/
  published : List BlockKey
  /-- The frontier object. -/
  frontier : Option CompactionFrontier
  compactors : Nat → Option Compactor
  /-- Another process has put the frontier object since this one last loaded or put it. -/
  behind : Nat → Bool

namespace Compaction

def new : Compaction where
  wal := []
  committed _ := none
  objects _ := []
  published := []
  frontier := none
  compactors _ := none
  behind _ := false

variable (s : Compaction)

/-- The offset stored for a partition in the frontier object. -/
def storedOffset (partition : Nat) : Option Int :=
  s.frontier.bind fun frontier => frontier.partitionOffsets[partition]?

inductive Event where
  /-- The WAL acknowledges a record. -/
  | produce (record : WalLogRecord)
  | start (id : Nat)
  | assign (id partition : Nat)
  | revoke (id partition : Nat)
  | poll (id : Nat) (batch : List WalLogRecord)
  | writeBlock (id : Nat)
  /-- The block enters its index shard; the process may see the call fail all the same. -/
  | publishBlock (id : Nat) (reported : Bool)
  /-- A store call of the batch fails, and the process starts the batch again. -/
  | retry (id : Nat)
  | commit (id : Nat)
  | advance (id : Nat)
  | putFrontier (id : Nat) (outcome : Outcome)
  | crash (id : Nat)

variable (id : Nat)

def setCompactor (compactor : Option Compactor) : Compaction :=
  { s with compactors := Function.update s.compactors id compactor }

variable (compactor : Compactor)

def setStage (stage : Stage) : Compaction :=
  s.setCompactor id (some { compactor with stage })

def produce (record : WalLogRecord) : Option Compaction :=
  record.position.bind fun position =>
    if s.wal.all fun other => other.precedes position then
      some { s with wal := s.wal ++ [record] }
    else none

def start : Option Compaction :=
  match s.compactors id with
  | some _ => none
  | none =>
    some { s.setCompactor id (some ⟨loadExistingCompactionFrontier s.frontier,
        fun _ => none, .polling⟩) with
      behind := Function.update s.behind id false }

def poll (batch : List WalLogRecord) :
    Option Compaction :=
  match compactor.stage with
  | .polling =>
    if polled s.wal compactor.consumed batch then
      some (s.setCompactor id (some { compactor with
        consumed := consume compactor.consumed batch
        stage := .compact batch [] (walCompactionChunks batch) }))
    else none
  | _ => none

def writeBlock : Option Compaction :=
  match compactor.stage with
  | .compacting batch (chunk :: chunks) false descriptors =>
    match compactionKey chunk with
    | .ok key =>
      some { s.setStage id compactor (.compacting batch (chunk :: chunks) true descriptors) with
        objects := Function.update s.objects key chunk }
    | .error _ => none
  | _ => none

def publishBlock (reported : Bool) :
    Option Compaction :=
  match compactor.stage with
  | .compacting batch (chunk :: chunks) true descriptors =>
    match compactionKey chunk with
    | .ok key =>
      some { s.setStage id compactor (if reported then .compact batch (descriptors ++ [key]) chunks
          else .compact batch [] (walCompactionChunks batch)) with
        published := if key ∈ s.published then s.published else s.published ++ [key] }
    | .error _ => none
  | _ => none

def retry : Option Compaction :=
  match compactor.stage with
  | .compacting batch _ _ _ =>
    some (s.setStage id compactor (.compact batch [] (walCompactionChunks batch)))
  | _ => none

/-- `commit_sync` commits every assigned partition at the consumer's position. -/
def commit : Option Compaction :=
  match compactor.stage with
  | .committing descriptors =>
    some { s.setStage id compactor (.persist descriptors) with
      committed := fun partition =>
        ((compactor.consumed partition).bind fun offset => offset).or (s.committed partition) }
  | _ => none

def advance : Option Compaction :=
  match compactor.stage with
  | .persisting descriptor descriptors false =>
    some (s.setCompactor id (some { compactor with
      frontier := compactor.frontier.advancePartitionOffset
        ⟨descriptor.partition, descriptor.lastOffset⟩
      stage := .persisting descriptor descriptors true }))
  | _ => none

/-- The frontier object after a put of a process. -/
def storeFrontier (frontier : CompactionFrontier) : Compaction :=
  { s with
    frontier := some frontier
    behind := fun other => decide (other ≠ id) }

/-- A put that fails is tried again, from the advance on. -/
def putFrontier (outcome : Outcome) :
    Option Compaction :=
  match compactor.stage with
  | .persisting descriptor descriptors true =>
    match outcome with
    | .ok => some ((s.setStage id compactor (.persist descriptors)).storeFrontier id
        compactor.frontier.frontier)
    | .lost => some ((s.setStage id compactor
      (.persisting descriptor descriptors false)).storeFrontier
        id compactor.frontier.frontier)
    | .refused => some (s.setStage id compactor (.persisting descriptor descriptors false))
  | _ => none

def step : Event → Option Compaction
  | .produce record => s.produce record
  | .start id => s.start id
  | .assign id partition => (s.compactors id).map fun compactor =>
    s.setCompactor id (some { compactor with
      consumed := Function.update compactor.consumed partition (some (s.committed partition)) })
  | .revoke id partition => (s.compactors id).map fun compactor =>
    s.setCompactor id (some { compactor with
      consumed := Function.update compactor.consumed partition none })
  | .poll id batch => (s.compactors id).bind fun compactor => s.poll id compactor batch
  | .writeBlock id => (s.compactors id).bind fun compactor => s.writeBlock id compactor
  | .publishBlock id reported =>
    (s.compactors id).bind fun compactor => s.publishBlock id compactor reported
  | .retry id => (s.compactors id).bind fun compactor => s.retry id compactor
  | .commit id => (s.compactors id).bind fun compactor => s.commit id compactor
  | .advance id => (s.compactors id).bind fun compactor => s.advance id compactor
  | .putFrontier id outcome =>
    (s.compactors id).bind fun compactor => s.putFrontier id compactor outcome
  | .crash id => some (s.setCompactor id none)

end Compaction

end KrabkaO11y.Observability
