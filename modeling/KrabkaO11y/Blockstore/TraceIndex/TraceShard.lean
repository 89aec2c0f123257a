import KrabkaO11y.Collections.Tree
import KrabkaO11y.Blockstore.Index.ByteReader

/-!
The records of a trace index and the bytes of one trace shard
(`crates/blockstore/src/trace_index.rs`, `trace_index/decode_trace_shard.rs`,
`bloom/bloom_shard.rs`, `bloom/sharded_trace_bloom.rs`).

`decodeTraceShard_encodeTraceShard` is the round trip. Its bound holds of every object
a read accepts, since a read is capped by a `u64` number of bytes.
-/

open Std (ExtTreeMap ExtTreeSet)

namespace KrabkaO11y.Blockstore

open List

/-- One shard of a trace-id bloom. -/
structure BloomShard where
  bits : List UInt64
  numBits : UInt64
  k : UInt32
deriving DecidableEq, Repr

def BloomShard.validate (shard : BloomShard) : Except String Unit :=
  if shard.numBits = 0 then .error "bloom shard num_bits must be non-zero"
  else if shard.bits.length < (shard.numBits.toNat + 63) / 64 then
    .error ("bloom shard bits too short: have " ++ toString shard.bits.length ++ ", need " ++
      toString ((shard.numBits.toNat + 63) / 64))
  else .ok ()

/-- The check that decoded bytes pass and every constructor establishes. -/
def validateBloom (shards : List BloomShard) : Except String Unit := do
  if shards.isEmpty then throw "bloom must have at least one shard"
  shards.forM BloomShard.validate

/-- A bloom whose lookups cannot go out of bounds. -/
structure ShardedTraceBloom where
  shards : List BloomShard
  valid : validateBloom shards = .ok ()
deriving DecidableEq

/-- One trace block, as the index knows it. -/
structure TraceBlockStats where
  objectKey : String
  minTs : Int64
  maxTs : Int64
  bloom : ShardedTraceBloom
  tagNames : ExtTreeSet String
  tagValues : ExtTreeMap String (ExtTreeSet String)
  rowCount : UInt64
  level : BlockLevel
deriving DecidableEq

namespace TraceBlockStats

def shardPrefix (block : TraceBlockStats) : ShardBlockPrefix :=
  ⟨block.objectKey, block.minTs, block.maxTs, block.rowCount, block.level⟩

/-- Every string that a block's record names. -/
def strings (block : TraceBlockStats) : List String :=
  block.tagNames.toList ++ block.tagValues.toList.flatMap fun tag => tag.1 :: tag.2.toList

end TraceBlockStats

/-! ### Writing -/

def pushIds (dictionary texts : List String) : List UInt8 :=
  Wire.writeMany (fun (_ : Unit) text => pushDictionaryId dictionary text) (fun _ _ => ()) texts ()

def pushTagValues (dictionary : List String) (tag : String × ExtTreeSet String) : List UInt8 :=
  pushDictionaryId dictionary tag.1 ++ pushLen tag.2.toList.length ++
    pushIds dictionary tag.2.toList

def pushWords (words : List UInt64) : List UInt8 :=
  Wire.writeMany (fun (_ : Unit) word => Wire.leBytes word) (fun _ _ => ()) words ()

def pushBloomShard (shard : BloomShard) : List UInt8 :=
  pushUvarint shard.numBits ++ pushUvarint (UInt64.ofNat shard.k.toNat) ++
    pushLen shard.bits.length ++ pushWords shard.bits

def pushTags (dictionary : List String) (tags : List (String × ExtTreeSet String)) : List UInt8 :=
  Wire.writeMany (fun (_ : Unit) tag => pushTagValues dictionary tag) (fun _ _ => ()) tags ()

def pushBloomShards (shards : List BloomShard) : List UInt8 :=
  Wire.writeMany (fun (_ : Unit) shard => pushBloomShard shard) (fun _ _ => ()) shards ()

/-- One block of a trace shard. -/
def pushTraceBlock (dictionary : List String) (previousMin : Int64) (block : TraceBlockStats) :
    List UInt8 :=
  pushShardBlockPrefix block.shardPrefix previousMin ++
    pushLen block.tagNames.toList.length ++ pushIds dictionary block.tagNames.toList ++
    pushLen block.tagValues.toList.length ++ pushTags dictionary block.tagValues.toList ++
    pushLen block.bloom.shards.length ++ pushBloomShards block.bloom.shards

def traceShardMagic : List UInt8 := [75, 66, 84, 83]

def traceShardFormatVersion : UInt8 := 1

/-- The sorted strings of some blocks. Ids follow the sorted order, so the same records
encode to the same bytes whichever order they arrived in. -/
def traceDictionary (blocks : List TraceBlockStats) : List String :=
  (ExtTreeSet.ofList (blocks.flatMap TraceBlockStats.strings)).toList

def pushTraceBlocks (dictionary : List String) (blocks : List TraceBlockStats) : List UInt8 :=
  Wire.writeMany (pushTraceBlock dictionary) (fun _ block => block.minTs) blocks 0

def encodeTraceShard (tenant : String) (blocks : List TraceBlockStats) : List UInt8 :=
  pushShardHeader traceShardMagic traceShardFormatVersion tenant (traceDictionary blocks) ++
    pushLen blocks.length ++ pushTraceBlocks (traceDictionary blocks) blocks

/-! ### Reading -/

open ByteReader

/-- Reads `n` dictionary ids. -/
def readIds (dictionary : List String) (n : Nat) (what : String) : ByteReader (List String) :=
  Wire.readMany (fun (_ : Unit) => do
    let text ← readDictionaryEntry dictionary what
    pure (text, ())) n ()

def readTagValues (dictionary : List String) : ByteReader (String × ExtTreeSet String) := do
  let tag ← readDictionaryEntry dictionary "a tag name id"
  let valueCount ← count "values of a tag"
  let values ← readIds dictionary valueCount "a tag value id"
  pure (tag, ExtTreeSet.ofList values)

def readHashCount : ByteReader UInt32 := do
  let k ← uvarint "a bloom shard hash count"
  if 0xFFFFFFFF < k.toNat then throw (.invalidBlock "names a bloom hash count beyond u32")
  pure (UInt32.ofNat k.toNat)

def readWords (n : Nat) : ByteReader (List UInt64) :=
  Wire.readMany (fun (_ : Unit) => do
    let word ← u64Le "a bloom shard word"
    pure (word, ())) n ()

def readBloomShard : ByteReader BloomShard := do
  let numBits ← uvarint "a bloom shard width"
  let k ← readHashCount
  let wordCount ← count "bloom shard words"
  let bits ← readWords wordCount
  pure ⟨bits, numBits, k⟩

def readTags (dictionary : List String) (n : Nat) :
    ByteReader (List (String × ExtTreeSet String)) :=
  Wire.readMany (fun (_ : Unit) => do
    let tag ← readTagValues dictionary
    pure (tag, ())) n ()

def readBloomShards (n : Nat) : ByteReader (List BloomShard) :=
  Wire.readMany (fun (_ : Unit) => do
    let shard ← readBloomShard
    pure (shard, ())) n ()

/-- Rejects a structurally valid bloom that would go out of bounds on a lookup. -/
def checkBloom (objectKey : String) (shards : List BloomShard) : ByteReader ShardedTraceBloom :=
  match h : validateBloom shards with
  | .ok () => pure ⟨shards, h⟩
  | .error error => throw (.invalidBlock ("carries a corrupt bloom for `" ++ objectKey ++ "`: " ++
      error))

def readTraceBlock (dictionary : List String) (previousMin : Int64) :
    ByteReader (TraceBlockStats × Int64) := do
  let block ← readShardBlockPrefix previousMin
  let tagNameCount ← count "tag names of a block"
  let tagNames ← readIds dictionary tagNameCount "a tag name id"
  let tagCount ← count "tag value sets of a block"
  let tagValues ← readTags dictionary tagCount
  let shardCount ← count "bloom shards of a block"
  let shards ← readBloomShards shardCount
  let bloom ← checkBloom block.objectKey shards
  pure ({
    objectKey := block.objectKey
    minTs := block.minTs
    maxTs := block.maxTs
    bloom := bloom
    tagNames := ExtTreeSet.ofList tagNames
    tagValues := ExtTreeMap.ofList tagValues
    rowCount := block.rowCount
    level := block.level }, block.minTs)

def readTraceShard : ByteReader (List TraceBlockStats) := do
  let header ← decodeShardHeader traceShardMagic traceShardFormatVersion "a trace index shard"
  let blockCount ← count "blocks"
  Wire.readMany (readTraceBlock header.dictionary) blockCount 0

def decodeTraceShard (objectKey : String) (bytes : List UInt8) :
    Except BlockStoreError (List TraceBlockStats) :=
  decodeShard readTraceShard "trace index shard" objectKey bytes

/-! ### What is encoded is decoded -/

section RoundTrip

open Wire

variable {dictionary : List String}

theorem length_le_pushIds (dictionary texts : List String) :
    texts.length ≤ (pushIds dictionary texts).length :=
  length_le_writeMany (fun _ _ => pushLen_length_pos _) texts ()

theorem decodes_ids (hdict : dictionary.length < 2 ^ 64) {texts : List String} (what : String)
    (hmem : ∀ text ∈ texts, text ∈ dictionary) (h : (pushIds dictionary texts).length < 2 ^ 64) :
    Decodes (readIds dictionary texts.length what) (pushIds dictionary texts) texts :=
  decodes_readMany (· ∈ dictionary)
    (fun _ _ htx _ => by
      simpa using (decodes_dictionaryEntry what htx hdict).map fun text => (text, ()))
    texts () hmem h

theorem pushTagValues_length_pos (dictionary : List String) (tag : String × ExtTreeSet String) :
    0 < (pushTagValues dictionary tag).length := by
  have := pushLen_length_pos (dictionaryId dictionary tag.1)
  simp only [pushTagValues, pushDictionaryId, length_append]
  omega

theorem decodes_tagValues (hdict : dictionary.length < 2 ^ 64) {tag : String × ExtTreeSet String}
    (hmem : ∀ text ∈ tag.1 :: tag.2.toList, text ∈ dictionary)
    (h : (pushTagValues dictionary tag).length < 2 ^ 64) :
    Decodes (readTagValues dictionary) (pushTagValues dictionary tag) tag := by
  have hle := length_le_pushIds dictionary tag.2.toList
  simp only [pushTagValues, length_append] at h
  have hnm := decodes_dictionaryEntry "a tag name id" (hmem tag.1 (by simp)) hdict
  have hva := decodes_ids hdict "a tag value id"
    (fun text htx => hmem text (mem_cons_of_mem _ htx)) (by omega)
  simp only [pushTagValues, append_assoc, readTagValues]
  apply hnm.bind
  apply decodes_count "values of a tag" hle (by omega)
  have hend := hva.map fun values => (tag.1, ExtTreeSet.ofList values)
  rw [Collections.ofList_toList] at hend
  simpa using hend

theorem length_le_pushTags (dictionary : List String) (tags : List (String × ExtTreeSet String)) :
    tags.length ≤ (pushTags dictionary tags).length :=
  length_le_writeMany (fun _ tag => pushTagValues_length_pos dictionary tag) tags ()

theorem decodes_tags (hdict : dictionary.length < 2 ^ 64)
    {tags : List (String × ExtTreeSet String)}
    (hmem : ∀ tag ∈ tags, ∀ text ∈ tag.1 :: tag.2.toList, text ∈ dictionary)
    (h : (pushTags dictionary tags).length < 2 ^ 64) :
    Decodes (readTags dictionary tags.length) (pushTags dictionary tags) tags :=
  decodes_readMany (fun tag => ∀ text ∈ tag.1 :: tag.2.toList, text ∈ dictionary)
    (fun _ _ htag hlen => by
      simpa using (decodes_tagValues hdict htag hlen).map fun tag => (tag, ()))
    tags () hmem h

theorem decodes_hashCount (k : UInt32) :
    Decodes readHashCount (pushUvarint (UInt64.ofNat k.toNat)) k := by
  have hlt : k.toNat < 2 ^ 32 := k.toNat_lt
  intro rest
  simp only [readHashCount, StateT.run_bind, decodes_uvarint _ "a bloom shard hash count" rest]
  change StateT.run (if 0xFFFFFFFF < (UInt64.ofNat k.toNat).toNat then _ else _) _ = _
  rw [toNat_ofNat_len (by omega), if_neg (by omega), UInt32.ofNat_toNat]
  rfl

theorem length_le_pushWords (words : List UInt64) : words.length ≤ (pushWords words).length :=
  length_le_writeMany (fun _ word => by rw [leBytes_length]; norm_num) words ()

theorem decodes_words {words : List UInt64} (h : (pushWords words).length < 2 ^ 64) :
    Decodes (readWords words.length) (pushWords words) words :=
  decodes_readMany (fun _ => True)
    (fun _ word _ _ => by
      simpa using (decodes_u64Le word "a bloom shard word").map fun word => (word, ()))
    words () (fun _ _ => trivial) h

theorem pushBloomShard_length_pos (shard : BloomShard) : 0 < (pushBloomShard shard).length := by
  have := pushUvarint_length_pos shard.numBits
  simp only [pushBloomShard, length_append]
  omega

theorem decodes_bloomShard {shard : BloomShard} (h : (pushBloomShard shard).length < 2 ^ 64) :
    Decodes readBloomShard (pushBloomShard shard) shard := by
  have hle := length_le_pushWords shard.bits
  simp only [pushBloomShard, length_append] at h
  have hwo : Decodes (readWords shard.bits.length) _ _ := decodes_words (by omega)
  simp only [pushBloomShard, append_assoc, readBloomShard]
  apply (decodes_uvarint _ _).bind
  apply (decodes_hashCount shard.k).bind
  apply decodes_count "bloom shard words" hle (by omega)
  simpa using hwo.map fun bits => (⟨bits, shard.numBits, shard.k⟩ : BloomShard)

theorem length_le_pushBloomShards (shards : List BloomShard) :
    shards.length ≤ (pushBloomShards shards).length :=
  length_le_writeMany (fun _ shard => pushBloomShard_length_pos shard) shards ()

theorem decodes_bloomShards {shards : List BloomShard}
    (h : (pushBloomShards shards).length < 2 ^ 64) :
    Decodes (readBloomShards shards.length) (pushBloomShards shards) shards :=
  decodes_readMany (fun _ => True)
    (fun _ _ _ hlen => by simpa using (decodes_bloomShard hlen).map fun shard => (shard, ()))
    shards () (fun _ _ => trivial) h

theorem decodes_checkBloom (objectKey : String) (bloom : ShardedTraceBloom) :
    Decodes (checkBloom objectKey bloom.shards) [] bloom := by
  intro rest
  rw [checkBloom]
  split
  · rfl
  · rename_i error her
    rw [bloom.valid] at her
    exact absurd her (by simp)

theorem pushTraceBlock_length_pos (dictionary : List String) (previousMin : Int64)
    (block : TraceBlockStats) : 0 < (pushTraceBlock dictionary previousMin block).length := by
  have := pushShardBlockPrefix_length_pos block.shardPrefix previousMin
  simp only [pushTraceBlock, length_append]
  omega

theorem decodes_traceBlock (hdict : dictionary.length < 2 ^ 64) {block : TraceBlockStats}
    {previousMin : Int64} (hmem : ∀ text ∈ block.strings, text ∈ dictionary)
    (h : (pushTraceBlock dictionary previousMin block).length < 2 ^ 64) :
    Decodes (readTraceBlock dictionary previousMin) (pushTraceBlock dictionary previousMin block)
      (block, block.minTs) := by
  have hna := length_le_pushIds dictionary block.tagNames.toList
  have htags := length_le_pushTags dictionary block.tagValues.toList
  have hshs := length_le_pushBloomShards block.bloom.shards
  simp only [pushTraceBlock, length_append] at h
  have hkey : (pushString block.shardPrefix.objectKey).length < 2 ^ 64 := by
    simp only [pushShardBlockPrefix, length_append] at h
    omega
  have hnm : ∀ text ∈ block.tagNames.toList, text ∈ dictionary := fun text htx =>
    hmem text (mem_append_left _ htx)
  have hta : ∀ tag ∈ block.tagValues.toList, ∀ text ∈ tag.1 :: tag.2.toList,
      text ∈ dictionary := fun tag htag text htx =>
    hmem text (mem_append_right _ (mem_flatMap.mpr ⟨tag, htag, htx⟩))
  simp only [pushTraceBlock, append_assoc, readTraceBlock]
  apply (decodes_shardBlockPrefix hkey).bind
  apply decodes_count "tag names of a block" (by simp only [length_append]; omega) (by omega)
  apply (decodes_ids hdict "a tag name id" hnm (by omega)).bind
  apply decodes_count "tag value sets of a block" (by simp only [length_append]; omega)
    (by omega)
  apply (decodes_tags hdict hta (by omega)).bind
  apply decodes_count "bloom shards of a block" hshs (by omega)
  rw [← append_nil (pushBloomShards block.bloom.shards)]
  apply (decodes_bloomShards (by omega)).bind
  simpa [TraceBlockStats.shardPrefix, Collections.ofList_toList, Collections.ofList_toList_map]
    using (decodes_checkBloom block.objectKey block.bloom).map fun bloom =>
      ({ block with bloom := bloom }, block.minTs)

theorem length_le_pushTraceBlocks (dictionary : List String) (blocks : List TraceBlockStats) :
    blocks.length ≤ (pushTraceBlocks dictionary blocks).length :=
  length_le_writeMany (fun previousMin block =>
    pushTraceBlock_length_pos dictionary previousMin block) blocks 0

theorem decodes_traceBlocks (hdict : dictionary.length < 2 ^ 64) {blocks : List TraceBlockStats}
    (hmem : ∀ block ∈ blocks, ∀ text ∈ block.strings, text ∈ dictionary)
    (h : (pushTraceBlocks dictionary blocks).length < 2 ^ 64) :
    Decodes (readMany (readTraceBlock dictionary) blocks.length 0)
      (pushTraceBlocks dictionary blocks) blocks :=
  decodes_readMany (fun block => ∀ text ∈ block.strings, text ∈ dictionary)
    (fun _ _ hb hlen => decodes_traceBlock hdict hb hlen) blocks 0 hmem h

theorem strings_mem_traceDictionary {blocks : List TraceBlockStats} :
    ∀ block ∈ blocks, ∀ text ∈ block.strings, text ∈ traceDictionary blocks := by
  intro block hb text htx
  rw [traceDictionary, ExtTreeSet.mem_toList, ExtTreeSet.mem_ofList, contains_iff_mem]
  exact mem_flatMap.mpr ⟨block, hb, htx⟩

theorem decodes_traceShard {tenant : String} {blocks : List TraceBlockStats}
    (h : (encodeTraceShard tenant blocks).length < 2 ^ 64) :
    Decodes readTraceShard (encodeTraceShard tenant blocks) blocks := by
  have hst := length_le_pushStrings (traceDictionary blocks)
  have hbs := length_le_pushTraceBlocks (traceDictionary blocks) blocks
  simp only [encodeTraceShard, length_append] at h
  have hdi : (traceDictionary blocks).length < 2 ^ 64 := by
    simp only [pushShardHeader, length_append] at h
    omega
  simp only [encodeTraceShard, append_assoc, readTraceShard]
  apply (decodes_shardHeader (by omega)).bind
  apply decodes_count "blocks" hbs (by omega)
  exact decodes_traceBlocks hdi strings_mem_traceDictionary (by omega)

end RoundTrip

/-- The records of a shard come back as they were encoded. -/
theorem decodeTraceShard_encodeTraceShard {tenant : String} {blocks : List TraceBlockStats}
    (objectKey : String) (h : (encodeTraceShard tenant blocks).length < 2 ^ 64) :
    decodeTraceShard objectKey (encodeTraceShard tenant blocks) = .ok blocks :=
  decodeShard_of_decodes (decodes_traceShard h) _ _

end KrabkaO11y.Blockstore
