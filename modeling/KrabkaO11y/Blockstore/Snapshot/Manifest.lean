import KrabkaO11y.Collections.Tree
import KrabkaO11y.Concurrent.ObjectStore
import KrabkaO11y.Blockstore.ObjectKeys
import KrabkaO11y.Blockstore.Index.ByteReader

/-!
What an index snapshot stores and what a writer owes it: manifests
(`index_snapshot/snapshot_manifest.rs`), the pending additions and removals of a writer
(`pending_block_additions.rs`, `pending_block_removals.rs`) and the store the programs
of the snapshot protocol call.

A stored manifest is kept as its value, not as its JSON bytes; its size is a parameter.
-/

open Std (ExtTreeMap ExtTreeSet)

namespace KrabkaO11y.Blockstore

/-! ### Manifests -/

structure ManifestShard where
  start : Int64
  stop : Int64
  content : String
deriving DecidableEq, Repr

def ManifestShard.range (shard : ManifestShard) : IndexShardRange := ⟨shard.start, shard.stop⟩

/-- Version of the snapshot-manifest encoding this build writes and accepts. -/
def snapshotManifestVersion : UInt32 := 1

/-- The shards each tenant's index is made of. -/
structure SnapshotManifest where
  version : UInt32 := 0
  tenants : ExtTreeMap String (List ManifestShard) := ∅
deriving DecidableEq

/-- The objects under one index key. -/
inductive SnapshotPath where
  | snapshot (generation : UInt64)
  | shardPayload (tenant : String) (range : IndexShardRange) (content : String)
deriving DecidableEq, Repr

namespace SnapshotManifest

def new : SnapshotManifest := { version := snapshotManifestVersion }

def insert (manifest : SnapshotManifest) (tenant : String) (range : IndexShardRange)
    (content : String) : SnapshotManifest :=
  { manifest with
    tenants := manifest.tenants.alter tenant fun shards =>
      some (shards.getD [] ++ [⟨range.start, range.stop, content⟩]) }

def shardsOf (manifest : SnapshotManifest) (tenant : String) : List ManifestShard :=
  (manifest.tenants[tenant]?).getD []

section Shards

variable {manifest : SnapshotManifest} {tenant other : String} {range : IndexShardRange}
  {content : String}

@[simp] theorem shardsOf_new : SnapshotManifest.new.shardsOf tenant = [] := by
  simp [shardsOf, new]

theorem shardsOf_insert : (manifest.insert tenant range content).shardsOf other =
    if other = tenant then manifest.shardsOf tenant ++ [⟨range.start, range.stop, content⟩]
    else manifest.shardsOf other := by
  simp only [shardsOf, insert, ExtTreeMap.getElem?_alter, Std.compare_eq_iff_eq]
  split
  · rename_i h; subst h; simp
  · rename_i h; rw [if_neg (Ne.symm h)]

@[simp] theorem version_insert : (manifest.insert tenant range content).version =
    manifest.version := rfl

end Shards

end SnapshotManifest

/-! ### What a writer owes -/

/-- A block a writer dropped, and enough to find it again in a published index. -/
structure PendingRemoval where
  fingerprint : UInt64
  minTs : Int64
  maxTs : Int64
deriving DecidableEq, Repr

/-- The removals of each tenant, by object key. -/
abbrev PendingBlockRemovals := ExtTreeMap String (ExtTreeMap String PendingRemoval)

namespace PendingBlockRemovals

/-- Keeps a tenant only while it has removals. -/
def settle (blocks : ExtTreeMap String PendingRemoval) :
    Option (ExtTreeMap String PendingRemoval) :=
  if blocks.isEmpty then none else some blocks

def forget (pending : PendingBlockRemovals) (tenant key : String) : PendingBlockRemovals :=
  pending.alter tenant fun held => held.bind fun blocks => settle (blocks.erase key)

end PendingBlockRemovals

/-- The keys a writer registered since it last published. -/
abbrev PendingBlockAdditions := ExtTreeSet String

namespace PendingBlockAdditions

def record (pending : PendingBlockAdditions) (key : String) : PendingBlockAdditions :=
  pending.insert key

end PendingBlockAdditions

/-! ### The store -/

inductive SnapshotObject where
  | manifest (manifest : SnapshotManifest)
  | payload (bytes : List UInt8)
deriving DecidableEq

abbrev SnapshotStore := ObjectStore.Store SnapshotPath SnapshotObject

/-- What a snapshot program asks of the outside: an operation of the store, or the hash
that names a payload. -/
inductive SnapshotOp where
  | store (op : ObjectStore.Op SnapshotPath SnapshotObject)
  | contentHash (bytes : List UInt8)

def SnapshotOp.Result : SnapshotOp → Type
  | .store op => ObjectStore.Result SnapshotPath SnapshotObject op
  | .contentHash _ => String

abbrev SnapshotProg := Concurrent.Prog SnapshotOp SnapshotOp.Result BlockStoreError

/-- The parts of the outside that are not modelled: the payload hash
(`shard_payload_content_hash`) and the length of a manifest's JSON. -/
structure SnapshotEnv where
  contentHash : List UInt8 → String
  manifestSize : SnapshotManifest → Nat

namespace SnapshotEnv

def objectSize (env : SnapshotEnv) : SnapshotObject → Nat
  | .manifest manifest => env.manifestSize manifest
  | .payload bytes => bytes.length

def answer (env : SnapshotEnv) (outcome : ObjectStore.Outcome) :
    (op : SnapshotOp) → SnapshotStore → op.Result × SnapshotStore
  | .store op, s => s.answer env.objectSize outcome op
  | .contentHash bytes, s => (env.contentHash bytes, s)

/-- What a program does when it runs alone and no operation fails. -/
def run {α : Type} (env : SnapshotEnv) (p : SnapshotProg α) (s : SnapshotStore) :
    Except BlockStoreError α × SnapshotStore :=
  p.eval (env.answer .ok) s

end SnapshotEnv

end KrabkaO11y.Blockstore
