import KrabkaO11y.Blockstore.Snapshot.Manifest

/-!
The programs that merge a tenant into the published shards (`index_snapshot.rs`,
`index_snapshot/tenant_shard_merge.rs` and `snapshot_persistence_methods.rs`).

`SnapshotKind` is what the persistence macro asks of an index type. Every store call of
the source is one call here, in the source's order; the texts of object-store errors
belong to the store and are not modelled.
-/

open Std (ExtTreeMap ExtTreeSet)

namespace KrabkaO11y.Blockstore

open Concurrent Concurrent.Prog
open ObjectStore (ObjectMeta)

/-- One call of the store; a failure ends the program. -/
def storeOp (op : ObjectStore.Op SnapshotPath SnapshotObject) :
    SnapshotProg (ObjectStore.Answer SnapshotPath SnapshotObject op) :=
  .call (.store op) fun (result : ObjectStore.Result SnapshotPath SnapshotObject op) =>
    match result with
    | .ok answer => .done (.ok answer)
    | .error _ => .done (.error (.objectStore "object store failure"))

def shardPayloadContentHash (bytes : List UInt8) : SnapshotProg String :=
  Prog.op (SnapshotOp.contentHash bytes)

/-! ### Listing and reading snapshots -/

def SnapshotPath.render (key : String) : SnapshotPath → String
  | .snapshot generation => snapshotKeyForGeneration key generation
  | .shardPayload tenant range content => shardPayloadObjectKey key tenant range content

def oversizedObjectError (label name : String) (size maxBytes : Nat) : BlockStoreError :=
  .invalidBlock (label ++ " `" ++ name ++ "` is " ++ toString size ++ " bytes, exceeds cap of " ++
    toString maxBytes ++ " bytes")

def payloadBytes : SnapshotObject → Except BlockStoreError (List UInt8)
  | .payload bytes => .ok bytes
  | .manifest _ => .error (.invalidBlock "is not a payload")

/-- A capped read of a payload; one that is not there is an error. -/
def readShardPayload (key : String) (maxBytes : UInt64) (path : SnapshotPath) :
    SnapshotProg (List UInt8) := do
  match ← storeOp (.get path) with
  | some (object, info) =>
    if maxBytes.toNat < info.size then
      fail (oversizedObjectError "index shard payload" (path.render key) info.size
        maxBytes.toNat)
    else ofExcept (payloadBytes object)
  | none =>
    let _ ← storeOp (.head path)
    fail (.objectStore "object not found")

/-! ### Merging one tenant -/

/-- What the merge of one tenant reads. The counters of the source only feed a trace
span. -/
structure TenantShardMerge where
  key : String
  base : SnapshotManifest
  tenant : String
  removed : Option (ExtTreeMap String PendingRemoval)
  contributeAll : Bool
  additions : PendingBlockAdditions
  maxBytes : UInt64

namespace TenantShardMerge

def contributes (merge : TenantShardMerge) (objectKey : String) : Bool :=
  merge.contributeAll || merge.additions.contains objectKey

def payloadPath (merge : TenantShardMerge) (shard : ManifestShard) : SnapshotPath :=
  .shardPayload merge.tenant shard.range shard.content

/-- Whether the merge has to read a shard. -/
def isTouched (touched : List IndexShardRange) (shard : ManifestShard) : Bool :=
  touched.any fun touched => shard.range.overlaps touched.start touched.stop

/-- Folds the payloads of the touched shards, and keeps the names of the others. -/
def readTouchedFrom {σ : Type} (merge : TenantShardMerge) (touched : List IndexShardRange)
    (fold : σ → IndexShardRange → String → List UInt8 → Except BlockStoreError σ) :
    List ManifestShard → σ → ExtTreeMap IndexShardRange String →
      SnapshotProg (σ × ExtTreeMap IndexShardRange String)
  | [], folded, carried => pure (folded, carried)
  | shard :: rest, folded, carried =>
    if isTouched touched shard then do
      let bytes ← readShardPayload merge.key merge.maxBytes (merge.payloadPath shard)
      let folded ← ofExcept (fold folded shard.range ((merge.payloadPath shard).render merge.key)
        bytes)
      readTouchedFrom merge touched fold rest folded carried
    else
      readTouchedFrom merge touched fold rest folded (carried.insert shard.range shard.content)

def readTouched {σ : Type} (merge : TenantShardMerge) (touched : List IndexShardRange)
    (fold : σ → IndexShardRange → String → List UInt8 → Except BlockStoreError σ) (init : σ) :
    SnapshotProg (σ × ExtTreeMap IndexShardRange String) :=
  merge.readTouchedFrom touched fold (merge.base.shardsOf merge.tenant) init ∅

/-- Names the shards the contribution did not touch. -/
def carry (merge : TenantShardMerge) (manifest : SnapshotManifest)
    (carried : ExtTreeMap IndexShardRange String) : SnapshotManifest :=
  carried.toList.foldl (fun manifest (range, content) => manifest.insert merge.tenant range content)
    manifest

/-- Whether the base already names these bytes for this range. -/
def isPublished (merge : TenantShardMerge) (range : IndexShardRange) (content : String) : Bool :=
  (merge.base.shardsOf merge.tenant).any fun shard =>
    shard.range = range && shard.content = content

/-- A `Vec` of the source holds at most `isize::MAX` bytes: encoding more panics. -/
def maxVecLen : Nat := 2 ^ 63 - 1

/-- Writes one shard, unless the base already names its bytes, and names it. -/
def publish (merge : TenantShardMerge) (manifest : SnapshotManifest) (range : IndexShardRange)
    (bytes : List UInt8) : SnapshotProg SnapshotManifest := do
  if maxVecLen < bytes.length then fail (.objectStore "capacity overflow")
  else
    let content ← shardPayloadContentHash bytes
    if merge.isPublished range content then pure (manifest.insert merge.tenant range content)
    else
      let _ ← storeOp (.put (.shardPayload merge.tenant range content) (.payload bytes))
      pure (manifest.insert merge.tenant range content)

def publishAll (merge : TenantShardMerge) :
    List (IndexShardRange × List UInt8) → SnapshotManifest → SnapshotProg SnapshotManifest
  | [], manifest => pure manifest
  | (range, bytes) :: rest, manifest => do
    let manifest ← merge.publish manifest range bytes
    merge.publishAll rest manifest

end TenantShardMerge

/-- The shards that the spans of the contributed blocks and of the removals reach. -/
def touchedShardRanges (contributed : List IndexShardRange)
    (removed : Option (ExtTreeMap String PendingRemoval)) (width : Int64) : List IndexShardRange :=
  let removed := (removed.getD ∅).toList.map fun (_, removal) =>
    (⟨removal.minTs, removal.maxTs⟩ : IndexShardRange)
  (contributed ++ removed).flatMap fun span => shardRangesForSpan span.start span.stop width

/-! ### Index types -/

/-- What `snapshot_persistence_methods!` asks of an index type. The merge of one tenant
reads the touched shards into `Shards`, works out what to publish, and publishes it. -/
structure SnapshotKind (ι : Type) where
  /-- The touched shards, decoded. -/
  Shards : Type
  noShards : Shards
  touched : ι → TenantShardMerge → List IndexShardRange
  foldShard : TenantShardMerge → Shards → IndexShardRange → String → List UInt8 →
    Except BlockStoreError Shards
  /-- The shards to publish, by ascending range. -/
  mergeShards : ι → TenantShardMerge → Shards →
    Except BlockStoreError (List (IndexShardRange × List UInt8))

namespace SnapshotKind

variable {ι : Type} (kind : SnapshotKind ι)

def mergeTenantShards (index : ι) (merge : TenantShardMerge) (manifest : SnapshotManifest) :
    SnapshotProg SnapshotManifest := do
  let (shards, carried) ← merge.readTouched (kind.touched index merge) (kind.foldShard merge)
    kind.noShards
  let published ← ofExcept (kind.mergeShards index merge shards)
  merge.publishAll published (merge.carry manifest carried)

end SnapshotKind

end KrabkaO11y.Blockstore
