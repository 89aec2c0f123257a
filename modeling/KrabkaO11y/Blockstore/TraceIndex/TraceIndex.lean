import KrabkaO11y.Blockstore.Snapshot.Programs
import KrabkaO11y.Blockstore.TraceIndex.TraceShard

/-!
The trace index (`crates/blockstore/src/trace_index/trace_index_type.rs`): its edits
and the merge of one tenant into the published shards.

The fingerprint of a record (`trace_block_fingerprint`) is the standard library's hash of
every field of the record; it is a parameter. A tenant's blocks carry the proof that no
object key is held twice.
-/

open Std (ExtTreeMap ExtTreeSet)

namespace KrabkaO11y.Blockstore

open List

/-- Width of one trace-index shard, in nanoseconds. -/
def traceIndexShardWidth : Int64 := 24 * 60 * 60 * 1000000000

def TraceBlockStats.orderKey (block : TraceBlockStats) : BlockOrderKey :=
  blockOrderKey block.minTs block.maxTs block.objectKey

/-- By start, then by end, then by object key. -/
def sortTraceBlocks (blocks : List TraceBlockStats) : List TraceBlockStats :=
  blocks.mergeSort fun a b => decide (a.orderKey ≤ b.orderKey)

/-- The blocks of one tenant. -/
structure TenantTraceIndex where
  blocks : List TraceBlockStats
  distinct : (blocks.map TraceBlockStats.objectKey).Nodup
deriving DecidableEq

namespace TenantTraceIndex

def empty : TenantTraceIndex := ⟨[], nodup_nil⟩

/-- Keeps the blocks under some keys. -/
def retain (index : TenantTraceIndex) (keep : String → Bool) : TenantTraceIndex where
  blocks := index.blocks.filter fun block => keep block.objectKey
  distinct := index.distinct.sublist (filter_sublist.map _)

/-- Adds a block in place of the ones under its key. -/
def push (index : TenantTraceIndex) (block : TraceBlockStats) : TenantTraceIndex where
  blocks := (index.retain fun key => key ≠ block.objectKey).blocks ++ [block]
  distinct := by
    rw [map_append, nodup_append]
    refine ⟨(index.retain _).distinct, by simp, ?_⟩
    simp only [retain, mem_map, mem_filter, map_cons, map_nil,
      mem_singleton, decide_eq_true_eq]
    rintro _ ⟨held, ⟨-, hne⟩, rfl⟩ _ rfl
    exact hne

end TenantTraceIndex

structure TraceIndex where
  tenants : ExtTreeMap String TenantTraceIndex := ∅
  pendingRemovals : PendingBlockRemovals := ∅
  pendingAdditions : PendingBlockAdditions := ∅
deriving DecidableEq

/-- The hash of a record, over everything the record says. -/
abbrev TraceFingerprint := TraceBlockStats → UInt64

namespace TraceIndex

def traceBlocks (index : TraceIndex) (tenant : String) : List TraceBlockStats :=
  ((index.tenants[tenant]?).map TenantTraceIndex.blocks).getD []

/-- Edits one tenant's blocks, starting from none. -/
def alterTenant (index : TraceIndex) (tenant : String)
    (edit : TenantTraceIndex → TenantTraceIndex) : TraceIndex :=
  { index with
    tenants := index.tenants.alter tenant fun held => some (edit (held.getD .empty)) }

def addTraceBlock (index : TraceIndex) (tenant : String) (stats : TraceBlockStats) : TraceIndex :=
  let index :=
    { index with
      pendingRemovals := index.pendingRemovals.forget tenant stats.objectKey
      pendingAdditions := index.pendingAdditions.record stats.objectKey }
  index.alterTenant tenant fun held => held.push stats

end TraceIndex

/-! ### Merging into the published shards -/

/-- The touched shards' records, by range. -/
abbrev TraceShards := ExtTreeMap IndexShardRange (List TraceBlockStats)

namespace TraceShards

/-- Adds some records to one shard. -/
def extend (shards : TraceShards) (range : IndexShardRange) (blocks : List TraceBlockStats) :
    TraceShards :=
  shards.alter range fun held => some (held.getD [] ++ blocks)

/-- Keeps some records of every shard. -/
def retain (shards : TraceShards) (keep : TraceBlockStats → Bool) : TraceShards :=
  shards.map fun _ blocks => blocks.filter keep

/-- Every record, shard by shard. -/
def records (shards : TraceShards) : List TraceBlockStats := shards.toList.flatMap Prod.snd

/-- Whether the first record under a key is the one a removal pinned. -/
def isUnchanged (fingerprint : TraceFingerprint) (shards : TraceShards) (objectKey : String)
    (removal : PendingRemoval) : Bool :=
  (shards.records.find? fun block => block.objectKey = objectKey).any fun block =>
    fingerprint block = removal.fingerprint

def removalChanged (objectKey : String) : BlockStoreError :=
  .invalidBlock ("trace compaction input `" ++ objectKey ++
    "` changed before its replacement was published")

def checkRemovals (fingerprint : TraceFingerprint) (shards : TraceShards) :
    List (String × PendingRemoval) → Except BlockStoreError Unit
  | [] => .ok ()
  | (objectKey, removal) :: rest =>
    if shards.isUnchanged fingerprint objectKey removal then
      checkRemovals fingerprint shards rest
    else .error (removalChanged objectKey)

/-- Drops the records the removals pinned. -/
def applyRemovals (fingerprint : TraceFingerprint) (shards : TraceShards)
    (removals : List (String × PendingRemoval)) : TraceShards :=
  removals.foldl
    (fun shards (objectKey, removal) => shards.retain fun block =>
      block.objectKey ≠ objectKey || fingerprint block ≠ removal.fingerprint)
    shards

/-- Puts one contributed record in place of the ones under its key. -/
def contribute (shards : TraceShards) (block : TraceBlockStats) : TraceShards :=
  (shardRangesForSpan block.minTs block.maxTs traceIndexShardWidth).foldl
    (fun shards range => shards.extend range [block])
    (shards.retain fun held => held.objectKey ≠ block.objectKey)

/-- The payloads of the shards that still have records. -/
def encode (tenant : String) (shards : TraceShards) : List (IndexShardRange × List UInt8) :=
  (shards.toList.filter fun entry => !entry.2.isEmpty).map fun (range, blocks) =>
    (range, encodeTraceShard tenant (sortTraceBlocks blocks))

end TraceShards

namespace TraceIndex

/-- The blocks a save contributes to one tenant. -/
def contributed (index : TraceIndex) (merge : TenantShardMerge) : List TraceBlockStats :=
  (index.traceBlocks merge.tenant).filter fun block => merge.contributes block.objectKey

/-- The removals a save owes one tenant. -/
def removals (merge : TenantShardMerge) : List (String × PendingRemoval) :=
  (merge.removed.getD ∅).toList

def touched (index : TraceIndex) (merge : TenantShardMerge) : List IndexShardRange :=
  touchedShardRanges ((index.contributed merge).map fun block => ⟨block.minTs, block.maxTs⟩)
    merge.removed traceIndexShardWidth

def foldShard (shards : TraceShards) (range : IndexShardRange) (objectKey : String)
    (bytes : List UInt8) : Except BlockStoreError TraceShards := do
  let blocks ← decodeTraceShard objectKey bytes
  pure (shards.extend range blocks)

/-- The shards after the removals and the contributions of a save. -/
def mergeShards (fingerprint : TraceFingerprint) (index : TraceIndex) (merge : TenantShardMerge)
    (shards : TraceShards) : Except BlockStoreError (List (IndexShardRange × List UInt8)) := do
  shards.checkRemovals fingerprint (removals merge)
  let shards := shards.applyRemovals fingerprint (removals merge)
  let shards := (index.contributed merge).foldl TraceShards.contribute shards
  pure (shards.encode merge.tenant)

end TraceIndex

/-- The trace index as an index type of the snapshot protocol. -/
def traceSnapshotKind (fingerprint : TraceFingerprint) : SnapshotKind TraceIndex where
  Shards := TraceShards
  noShards := ∅
  touched := TraceIndex.touched
  foldShard _ := TraceIndex.foldShard
  mergeShards := TraceIndex.mergeShards fingerprint

end KrabkaO11y.Blockstore
