import KrabkaO11y.Blockstore.Snapshot.Programs
import KrabkaO11y.Blockstore.ProfileIndex.ProfileShard

/-!
The profile index (`crates/blockstore/src/profile_index/profile_index_type.rs`) and what
the merge of one tenant does to a shard.

The profile-type postings are derived from the series and no modelled function reads
them; they are left out.
-/

open Std (ExtTreeMap ExtTreeSet)

namespace KrabkaO11y.Blockstore

structure ProfileIndex where
  series : Index := {}
  blockPartitions : BlockPartitions := ∅
  pendingRemovals : PendingBlockRemovals := ∅
  pendingAdditions : PendingBlockAdditions := ∅
  valid : series.Valid := by exact Index.valid_empty

namespace ProfileIndex

def stacktracePartitions (index : ProfileIndex) (objectKey : String) : List UInt64 :=
  index.blockPartitions[objectKey]?.getD []

end ProfileIndex

/-! ### Shards -/

namespace ProfileShard

/-- Folds a decoded shard in. -/
def absorb (shard : ProfileShard) (decoded : DecodedProfileShard) : ProfileShard where
  index := shard.index.mergeFrom decoded.index
  partitions := shard.partitions.insertMany decoded.partitions.toList
  valid := shard.valid.mergeFrom decoded.index

def dropBlock (tenant objectKey : String) (shard : ProfileShard) : ProfileShard where
  index := shard.index.replaceBlocks tenant [objectKey] []
  partitions := shard.partitions.erase objectKey
  valid := shard.valid.replaceBlocks tenant [objectKey] []

def addSeries (tenant : String) (shard : ProfileShard) (fp : SeriesFingerprint) (labels : Labels) :
    ProfileShard where
  index := shard.index.addSeries tenant fp labels
  partitions := shard.partitions
  valid := shard.valid.addSeries fp labels

/-- Adds a block with the labels its writer knows of its series. -/
def addBlock (index : ProfileIndex) (tenant : String) (block : BlockMeta) (shard : ProfileShard) :
    ProfileShard :=
  let shard := block.fingerprints.foldl
    (fun shard fp => match index.series.seriesLabels tenant fp with
      | some labels => shard.addSeries tenant fp labels
      | none => shard)
    shard
  { index := shard.index.addBlock block
    partitions := shard.partitions.insert block.objectKey
      (index.stacktracePartitions block.objectKey)
    valid := shard.valid.addBlock block }

/-- The payload of a shard. One of `2^32` blocks is a panic in the source. -/
def encode (tenant : String) (shard : ProfileShard) : Except BlockStoreError (List UInt8) :=
  if shard.blockTotal tenant < 2 ^ 32 then .ok (encodeProfileShard tenant shard)
  else .error (.invalidBlock "a shard holds fewer blocks than the tenant")

end ProfileShard

end KrabkaO11y.Blockstore
