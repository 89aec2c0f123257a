import KrabkaO11y.Blockstore.Index.IndexShard

/-!
One slot of a profile index and its bytes (`profile_index.rs`): the shared index's own
shard encoding, embedded whole, and the stacktrace partitions of its blocks.
-/

open Std (ExtTreeMap ExtTreeSet)

namespace KrabkaO11y.Blockstore

/-- The stacktrace partitions of some blocks, by object key. -/
abbrev BlockPartitions := ExtTreeMap String (List UInt64)

/-- One slot of a profile index. -/
structure ProfileShard where
  index : Index := {}
  partitions : BlockPartitions := ∅
  valid : index.Valid := by exact Index.valid_empty

/-! ### Writing -/

def profileShardMagic : List UInt8 := [75, 66, 80, 83]

def profileShardFormatVersion : UInt8 := 1

def pushPartitionValues (values : List UInt64) : List UInt8 :=
  Wire.writeMany (fun (_ : Unit) value => pushUvarint value) (fun _ _ => ()) values ()

def pushBlockPartitions (entry : String × List UInt64) : List UInt8 :=
  pushString entry.1 ++ pushLen entry.2.length ++ pushPartitionValues entry.2

def pushPartitions (partitions : List (String × List UInt64)) : List UInt8 :=
  Wire.writeMany (fun (_ : Unit) entry => pushBlockPartitions entry) (fun _ _ => ()) partitions ()

def encodeProfileShard (tenant : String) (shard : ProfileShard) : List UInt8 :=
  profileShardMagic ++ [profileShardFormatVersion] ++
    pushLen (shard.index.encodeTenantAsShard tenant).length ++
      shard.index.encodeTenantAsShard tenant ++
    pushLen shard.partitions.toList.length ++ pushPartitions shard.partitions.toList

/-! ### Reading -/

open ByteReader

def readPartitionValues (n : Nat) : ByteReader (List UInt64) :=
  Wire.readMany (fun (_ : Unit) => do
    let value ← uvarint "a stacktrace partition"
    pure (value, ())) n ()

def readBlockPartitions : ByteReader (String × List UInt64) := do
  let key ← string "a partitioned block object key"
  let valueCount ← count "stacktrace partitions of a block"
  let values ← readPartitionValues valueCount
  pure (key, values)

def readPartitions (n : Nat) : ByteReader (List (String × List UInt64)) :=
  Wire.readMany (fun (_ : Unit) => do
    let entry ← readBlockPartitions
    pure (entry, ())) n ()

/-- What a profile shard decodes to, before it is merged into an index. -/
structure DecodedProfileShard where
  index : Index
  partitions : BlockPartitions

def readProfileShard (objectKey : String) : ByteReader DecodedProfileShard := do
  let found ← take profileShardMagic.length "the magic"
  if found ≠ profileShardMagic then throw (.invalidBlock "is not a profile index shard")
  let version ← u8 "the format version"
  if version ≠ profileShardFormatVersion then
    throw (.invalidBlock ("is format version " ++ toString version ++ ", expected " ++
      toString profileShardFormatVersion))
  let innerLen ← count "the embedded index shard"
  let inner ← take innerLen "the embedded index shard"
  let index ← MonadExcept.ofExcept (decodeIndexShard objectKey inner)
  if index.tenants.isEmpty then throw (.invalidBlock "embeds an index shard with no tenant")
  let partitionCount ← count "stacktrace partition entries"
  let partitions ← readPartitions partitionCount
  pure ⟨index, ExtTreeMap.ofList partitions⟩

/-- The text before and after the first occurrence of `separator`. -/
def splitAtFirst (separator : List Char) : List Char → Option (List Char × List Char)
  | [] => if separator.isEmpty then some ([], []) else none
  | c :: rest =>
    if separator.isPrefixOf (c :: rest) then some ([], (c :: rest).drop separator.length)
    else (splitAtFirst separator rest).map fun (before, after) => (c :: before, after)

/-- Whether a text holds another. -/
def containsText (text part : String) : Bool := (splitAtFirst part.toList text.toList).isSome

/-- Names the object in an error that does not name it yet. -/
def nameProfileShard (objectKey : String) : BlockStoreError → BlockStoreError
  | .invalidBlock message =>
    if containsText message objectKey then .invalidBlock message
    else .invalidBlock ("profile index shard `" ++ objectKey ++ "`: " ++ message)
  | other => other

def decodeProfileShard (objectKey : String) (bytes : List UInt8) :
    Except BlockStoreError DecodedProfileShard :=
  match (readProfileShard objectKey).run bytes with
  | .ok (shard, []) => .ok shard
  | .ok (_, _ :: _) =>
    .error (nameProfileShard objectKey (.invalidBlock "has bytes after the end of the shard"))
  | .error error => .error (nameProfileShard objectKey error)

/-! ### What is encoded is decoded -/

section RoundTrip

open Wire

theorem length_le_pushPartitionValues (values : List UInt64) :
    values.length ≤ (pushPartitionValues values).length :=
  length_le_writeMany (fun _ value => pushUvarint_length_pos value) values ()

theorem decodes_partitionValues {values : List UInt64}
    (h : (pushPartitionValues values).length < 2 ^ 64) :
    Decodes (readPartitionValues values.length) (pushPartitionValues values) values :=
  decodes_readMany (fun _ => True)
    (fun _ value _ _ => by
      simpa using (decodes_uvarint value "a stacktrace partition").map fun value => (value, ()))
    values () (fun _ _ => trivial) h

theorem pushBlockPartitions_length_pos (entry : String × List UInt64) :
    0 < (pushBlockPartitions entry).length := by
  have := pushString_length_pos entry.1
  simp only [pushBlockPartitions, List.length_append]
  omega

theorem decodes_blockPartitions {entry : String × List UInt64}
    (h : (pushBlockPartitions entry).length < 2 ^ 64) :
    Decodes readBlockPartitions (pushBlockPartitions entry) entry := by
  have hle := length_le_pushPartitionValues entry.2
  simp only [pushBlockPartitions, List.length_append] at h
  have hva : Decodes (readPartitionValues entry.2.length) _ _ :=
    decodes_partitionValues (by omega)
  simp only [pushBlockPartitions, List.append_assoc, readBlockPartitions]
  apply (decodes_string "a partitioned block object key" (by omega)).bind
  apply decodes_count "stacktrace partitions of a block" hle (by omega)
  simpa using hva.map fun values => (entry.1, values)

theorem length_le_pushPartitions (partitions : List (String × List UInt64)) :
    partitions.length ≤ (pushPartitions partitions).length :=
  length_le_writeMany (fun _ entry => pushBlockPartitions_length_pos entry) partitions ()

theorem decodes_partitions {partitions : List (String × List UInt64)}
    (h : (pushPartitions partitions).length < 2 ^ 64) :
    Decodes (readPartitions partitions.length) (pushPartitions partitions) partitions :=
  decodes_readMany (fun _ => True)
    (fun _ _ _ hlen => by simpa using (decodes_blockPartitions hlen).map fun entry => (entry, ()))
    partitions () (fun _ _ => trivial) h

/-- The number of blocks a tenant's shard is written with. -/
def ProfileShard.blockTotal (shard : ProfileShard) (tenant : String) : Nat :=
  ((shard.index.tenantOf tenant).wholeShard tenant).blocks.entries.length

/-- What a slot decodes to. -/
def ProfileShard.decoded (shard : ProfileShard) (tenant : String) : DecodedProfileShard where
  index := .single tenant ((shard.index.tenantOf tenant).wholeShard tenant).decoded
  partitions := shard.partitions

theorem decodes_profileShard {tenant : String} {shard : ProfileShard} (objectKey : String)
    (hcount : shard.blockTotal tenant < 2 ^ 32)
    (h : (encodeProfileShard tenant shard).length < 2 ^ 64) :
    Decodes (readProfileShard objectKey) (encodeProfileShard tenant shard)
      (shard.decoded tenant) := by
  have hps := length_le_pushPartitions shard.partitions.toList
  simp only [encodeProfileShard, List.length_append] at h
  have hin : Decodes (MonadExcept.ofExcept (decodeIndexShard objectKey
      (shard.index.encodeTenantAsShard tenant)) : ByteReader Index) []
      (shard.decoded tenant).index := by
    rw [decodeIndexShard_encodeTenantAsShard objectKey (shard.valid.tenantOf tenant).blocks.ordered
      hcount
      (by omega)]
    exact Decodes.pure _
  have hten : (shard.decoded tenant).index.tenants.isEmpty = false := by
    simp [ProfileShard.decoded, Index.single]
  simp only [encodeProfileShard, List.append_assoc, readProfileShard]
  apply (decodes_take profileShardMagic "the magic").bind
  rw [if_neg (not_not_intro rfl)]
  apply (decodes_u8 profileShardFormatVersion "the format version").bind
  rw [if_neg (not_not_intro rfl)]
  apply decodes_count "the embedded index shard" (by simp) (by omega)
  apply (decodes_take _ "the embedded index shard").bind
  rw [← List.nil_append (pushLen shard.partitions.toList.length ++ _)]
  apply hin.bind
  rw [if_neg (by simp [hten])]
  apply decodes_count "stacktrace partition entries" hps (by omega)
  have hrd : Decodes (readPartitions shard.partitions.toList.length) _ _ :=
    decodes_partitions (by omega)
  have hend := hrd.map fun partitions =>
    (⟨(shard.decoded tenant).index, ExtTreeMap.ofList partitions⟩ : DecodedProfileShard)
  rw [Collections.ofList_toList_map] at hend
  simpa [ProfileShard.decoded] using hend

end RoundTrip

/-- A slot comes back as it was encoded. -/
theorem decodeProfileShard_encodeProfileShard {tenant : String} {shard : ProfileShard}
    (objectKey : String) (hcount : shard.blockTotal tenant < 2 ^ 32)
    (h : (encodeProfileShard tenant shard).length < 2 ^ 64) :
    decodeProfileShard objectKey (encodeProfileShard tenant shard) =
      .ok (shard.decoded tenant) := by
  rw [decodeProfileShard, (decodes_profileShard objectKey hcount h).run]

end KrabkaO11y.Blockstore
