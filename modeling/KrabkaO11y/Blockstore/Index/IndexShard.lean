import KrabkaO11y.Blockstore.Index.Index

/-!
The bytes of one index shard (`encode_index_shard` in `index.rs`,
`index/decode_index_shard.rs`).

A shard holds some series of a tenant, some of its blocks, and the block-to-series pairs
by ordinals of its own. Neither the label postings nor the label values are stored: both
are rebuilt from the series.
-/

open Std (ExtTreeMap ExtTreeSet)

namespace KrabkaO11y.Blockstore

open List

/-- One shard's worth of a tenant's index. -/
structure IndexShardPayload where
  tenant : String
  series : ExtTreeMap SeriesFingerprint Labels
  selected : ExtTreeSet SeriesFingerprint
  blocks : BlockListRepr

namespace IndexShardPayload

/-- The selected series. One without labels is written with none. -/
def selectedSeries (payload : IndexShardPayload) : List (SeriesFingerprint × Labels) :=
  payload.selected.toList.map fun fp => (fp, payload.series[fp]?.getD ∅)

/-- The strings of the selected series, sorted. -/
def dictionary (payload : IndexShardPayload) : List String :=
  (ExtTreeSet.ofList (payload.selectedSeries.flatMap fun series =>
    series.2.toList.flatMap fun label => [label.1, label.2])).toList

end IndexShardPayload

/-! ### Writing -/

def pushLabels (dictionary : List String) (labels : List (String × String)) : List UInt8 :=
  Wire.writeMany (fun (_ : Unit) label =>
    pushDictionaryId dictionary label.1 ++ pushDictionaryId dictionary label.2)
    (fun _ _ => ()) labels ()

def pushSeries (dictionary : List String) (series : SeriesFingerprint × Labels) : List UInt8 :=
  Wire.leBytes series.1 ++ pushLen series.2.toList.length ++ pushLabels dictionary series.2.toList

def pushAllSeries (dictionary : List String) (series : List (SeriesFingerprint × Labels)) :
    List UInt8 :=
  Wire.writeMany (fun (_ : Unit) series => pushSeries dictionary series) (fun _ _ => ()) series ()

def BlockEntry.shardPrefix (entry : BlockEntry) : ShardBlockPrefix :=
  ⟨entry.objectKey, entry.minTs, entry.maxTs, entry.rowCount, entry.level⟩

def pushBlockEntry (previousMin : Int64) (entry : BlockEntry) : List UInt8 :=
  pushShardBlockPrefix entry.shardPrefix previousMin ++ pushUvarint entry.fingerprintCount ++
    Wire.leBytes entry.fingerprintDigest

def pushBlockEntries (entries : List BlockEntry) : List UInt8 :=
  Wire.writeMany pushBlockEntry (fun _ entry => entry.minTs) entries 0

/-- An ordinal as the distance from the one before it, as a `u32`. -/
def pushOrdinal (previous ordinal : Nat) : List UInt8 :=
  pushUvarint (UInt64.ofNat (UInt32.ofNat ordinal - UInt32.ofNat previous).toNat)

def pushOrdinals (ordinals : List Nat) : List UInt8 :=
  Wire.writeMany pushOrdinal (fun _ ordinal => ordinal) ordinals 0

def pushPosting (posting : SeriesFingerprint × List Nat) : List UInt8 :=
  Wire.leBytes posting.1 ++ pushLen posting.2.length ++ pushOrdinals posting.2

def pushPostings (postings : List (SeriesFingerprint × List Nat)) : List UInt8 :=
  Wire.writeMany (fun (_ : Unit) posting => pushPosting posting) (fun _ _ => ()) postings ()

def indexShardMagic : List UInt8 := [75, 66, 73, 88]

def indexShardFormatVersion : UInt8 := 2

def encodeIndexShard (payload : IndexShardPayload) : List UInt8 :=
  pushShardHeader indexShardMagic indexShardFormatVersion payload.tenant payload.dictionary ++
    pushLen payload.selectedSeries.length ++
      pushAllSeries payload.dictionary payload.selectedSeries ++
    pushLen payload.blocks.entries.length ++ pushBlockEntries payload.blocks.entries ++
    pushLen payload.blocks.postings.toList.length ++ pushPostings payload.blocks.postings.toList

/-! ### Reading -/

open ByteReader

def readLabels (dictionary : List String) (n : Nat) : ByteReader (List (String × String)) :=
  Wire.readMany (fun (_ : Unit) => do
    let name ← readDictionaryEntry dictionary "a label name id"
    let value ← readDictionaryEntry dictionary "a label value id"
    pure ((name, value), ())) n ()

def readSeries (dictionary : List String) : ByteReader (SeriesFingerprint × Labels) := do
  let fingerprint ← u64Le "a series fingerprint"
  let labelCount ← count "labels of a series"
  let labels ← readLabels dictionary labelCount
  pure (fingerprint, ExtTreeMap.ofList labels)

def readAllSeries (dictionary : List String) (n : Nat) :
    ByteReader (List (SeriesFingerprint × Labels)) :=
  Wire.readMany (fun (_ : Unit) => do
    let series ← readSeries dictionary
    pure (series, ())) n ()

def readBlockEntry (previousMin : Int64) : ByteReader (BlockEntry × Int64) := do
  let block ← readShardBlockPrefix previousMin
  let fingerprintCount ← countUnbounded "a block fingerprint count"
  let fingerprintDigest ← u64Le "a block fingerprint digest"
  pure ({
    objectKey := block.objectKey
    minTs := block.minTs
    maxTs := block.maxTs
    rowCount := block.rowCount
    fingerprintCount := fingerprintCount
    fingerprintDigest := fingerprintDigest
    level := block.level }, block.minTs)

/-- The ordinal a distance leads to: a `u32` that names a block. -/
def checkOrdinal (blockCount previous : Nat) (delta : UInt64) : ByteReader Nat := do
  if 2 ^ 32 ≤ delta.toNat ∨ 2 ^ 32 ≤ previous + delta.toNat then
    throw (.invalidBlock "names a block ordinal beyond the shard")
  if blockCount ≤ previous + delta.toNat then
    throw (.invalidBlock ("names block ordinal " ++ toString (previous + delta.toNat) ++ " of " ++
      toString blockCount))
  pure (previous + delta.toNat)

def readOrdinal (blockCount previous : Nat) : ByteReader (Nat × Nat) := do
  let delta ← uvarint "a posting ordinal"
  let ordinal ← checkOrdinal blockCount previous delta
  pure (ordinal, ordinal)

def readPosting (blockCount : Nat) : ByteReader (SeriesFingerprint × List Nat) := do
  let fingerprint ← u64Le "a posting fingerprint"
  let ordinalCount ← count "ordinals of a posting"
  let ordinals ← Wire.readMany (readOrdinal blockCount) ordinalCount 0
  pure (fingerprint, ordinals)

def readPostings (blockCount n : Nat) : ByteReader (List (SeriesFingerprint × List Nat)) :=
  Wire.readMany (fun (_ : Unit) => do
    let posting ← readPosting blockCount
    pure (posting, ())) n ()

variable (series : List (SeriesFingerprint × Labels))

/-- The tenant that some series and blocks make. -/
def TenantIndex.ofShard (blocks : BlockListRepr) :
    TenantIndex :=
  let named := series.foldl (fun (held : TenantIndex) s => held.addSeries s.1 s.2) {}
  { named with blocks := .ofRepr blocks }

/-- The source panics on a shard of `2^32` blocks before it reads the postings; that is left to
`decodeIndexShardOrPanic`. -/
def readIndexShard : ByteReader Index := do
  let header ← decodeShardHeader indexShardMagic indexShardFormatVersion "an index shard"
  let seriesCount ← count "series"
  let series ← readAllSeries header.dictionary seriesCount
  let blockCount ← count "blocks"
  let entries ← Wire.readMany readBlockEntry blockCount 0
  let postingCount ← count "postings"
  let postings ← readPostings entries.length postingCount
  pure (.single header.tenant (.ofShard series ⟨entries, ExtTreeMap.ofList postings⟩))

/-- What is read before the number of blocks is turned into a `u32`. -/
structure ShardTables where
  header : DecodedShardHeader
  series : List (SeriesFingerprint × Labels)
  entries : List BlockEntry
  postingCount : Nat

def readShardTables : ByteReader ShardTables := do
  let header ← decodeShardHeader indexShardMagic indexShardFormatVersion "an index shard"
  let seriesCount ← count "series"
  let series ← readAllSeries header.dictionary seriesCount
  let blockCount ← count "blocks"
  let entries ← Wire.readMany readBlockEntry blockCount 0
  let postingCount ← count "postings"
  pure ⟨header, series, entries, postingCount⟩

/-- The rest of a shard. -/
def readShardPostings (tables : ShardTables) : ByteReader Index := do
  let postings ← readPostings tables.entries.length tables.postingCount
  pure (.single tables.header.tenant
    (.ofShard tables.series ⟨tables.entries, ExtTreeMap.ofList postings⟩))

theorem readIndexShard_eq : readIndexShard = readShardTables >>= readShardPostings := by
  simp only [readIndexShard, readShardTables, readShardPostings, bind_assoc, pure_bind]

def decodeIndexShard (objectKey : String) (bytes : List UInt8) : Except BlockStoreError Index :=
  decodeShard readIndexShard "index shard" objectKey bytes

/-! ### What is encoded is decoded -/

section RoundTrip

open Wire

variable {dictionary : List String}

theorem length_le_pushLabels (dictionary : List String) (labels : List (String × String)) :
    labels.length ≤ (pushLabels dictionary labels).length :=
  length_le_writeMany (fun _ label => by
    have := pushLen_length_pos (dictionaryId dictionary label.1)
    simp only [pushDictionaryId, length_append]
    omega) labels ()

theorem decodes_labels (hdict : dictionary.length < 2 ^ 64) {labels : List (String × String)}
    (hmem : ∀ label ∈ labels, label.1 ∈ dictionary ∧ label.2 ∈ dictionary)
    (h : (pushLabels dictionary labels).length < 2 ^ 64) :
    Decodes (readLabels dictionary labels.length) (pushLabels dictionary labels) labels :=
  decodes_readMany (fun label => label.1 ∈ dictionary ∧ label.2 ∈ dictionary)
    (fun _ label hlb _ => by
      apply (decodes_dictionaryEntry "a label name id" hlb.1 hdict).bind
      simpa using (decodes_dictionaryEntry "a label value id" hlb.2 hdict).map
        fun value => ((label.1, value), ()))
    labels () hmem h

theorem pushSeries_length_pos (dictionary : List String) (series : SeriesFingerprint × Labels) :
    0 < (pushSeries dictionary series).length := by
  simp only [pushSeries, length_append, leBytes_length]
  omega

theorem decodes_series (hdict : dictionary.length < 2 ^ 64) {series : SeriesFingerprint × Labels}
    (hmem : ∀ label ∈ series.2.toList, label.1 ∈ dictionary ∧ label.2 ∈ dictionary)
    (h : (pushSeries dictionary series).length < 2 ^ 64) :
    Decodes (readSeries dictionary) (pushSeries dictionary series) series := by
  have hle := length_le_pushLabels dictionary series.2.toList
  simp only [pushSeries, length_append] at h
  have hlab := decodes_labels hdict hmem (by omega)
  simp only [pushSeries, append_assoc, readSeries]
  apply (decodes_u64Le series.1 "a series fingerprint").bind
  apply decodes_count "labels of a series" hle (by omega)
  have hend := hlab.map fun labels => (series.1, ExtTreeMap.ofList labels)
  rw [Collections.ofList_toList_map] at hend
  simpa using hend

theorem length_le_pushAllSeries (dictionary : List String)
    (series : List (SeriesFingerprint × Labels)) :
    series.length ≤ (pushAllSeries dictionary series).length :=
  length_le_writeMany (fun _ s => pushSeries_length_pos dictionary s) series ()

theorem decodes_allSeries (hdict : dictionary.length < 2 ^ 64)
    {series : List (SeriesFingerprint × Labels)}
    (hmem : ∀ s ∈ series, ∀ label ∈ s.2.toList, label.1 ∈ dictionary ∧ label.2 ∈ dictionary)
    (h : (pushAllSeries dictionary series).length < 2 ^ 64) :
    Decodes (readAllSeries dictionary series.length) (pushAllSeries dictionary series) series :=
  decodes_readMany
    (fun s => ∀ label ∈ s.2.toList, label.1 ∈ dictionary ∧ label.2 ∈ dictionary)
    (fun _ _ hs hlen => by simpa using (decodes_series hdict hs hlen).map fun s => (s, ()))
    series () hmem h

theorem pushBlockEntry_length_pos (previousMin : Int64) (entry : BlockEntry) :
    0 < (pushBlockEntry previousMin entry).length := by
  have := pushShardBlockPrefix_length_pos entry.shardPrefix previousMin
  simp only [pushBlockEntry, length_append]
  omega

theorem decodes_blockEntry {previousMin : Int64} {entry : BlockEntry}
    (h : (pushBlockEntry previousMin entry).length < 2 ^ 64) :
    Decodes (readBlockEntry previousMin) (pushBlockEntry previousMin entry)
      (entry, entry.minTs) := by
  have hkey : (pushString entry.shardPrefix.objectKey).length < 2 ^ 64 := by
    simp only [pushBlockEntry, pushShardBlockPrefix, length_append] at h
    omega
  simp only [pushBlockEntry, append_assoc, readBlockEntry]
  apply (decodes_shardBlockPrefix hkey).bind
  apply (decodes_uvarint entry.fingerprintCount "a block fingerprint count").bind
  simpa [BlockEntry.shardPrefix] using (decodes_u64Le entry.fingerprintDigest
    "a block fingerprint digest").map fun digest =>
      ({ entry with fingerprintDigest := digest }, entry.minTs)

theorem length_le_pushBlockEntries (entries : List BlockEntry) :
    entries.length ≤ (pushBlockEntries entries).length :=
  length_le_writeMany pushBlockEntry_length_pos entries 0

theorem decodes_blockEntries {entries : List BlockEntry}
    (h : (pushBlockEntries entries).length < 2 ^ 64) :
    Decodes (readMany readBlockEntry entries.length 0) (pushBlockEntries entries) entries :=
  decodes_readMany (fun _ => True) (fun _ _ _ hlen => decodes_blockEntry hlen) entries 0
    (fun _ _ => trivial) h

variable {blockCount : Nat}

theorem decodes_ordinal {previous ordinal : Nat} (hcount : blockCount < 2 ^ 32)
    (h : previous ≤ ordinal ∧ ordinal < blockCount) :
    Decodes (readOrdinal blockCount previous) (pushOrdinal previous ordinal)
      (ordinal, ordinal) := by
  have hd : (UInt64.ofNat (UInt32.ofNat ordinal - UInt32.ofNat previous).toNat).toNat =
      ordinal - previous := by
    rw [toNat_ofNat_len (by have := (UInt32.ofNat ordinal - UInt32.ofNat previous).toNat_lt; omega),
      UInt32.toNat_sub_of_le _ _ (by rw [UInt32.le_iff_toNat_le]; simp; omega)]
    simp only [UInt32.toNat_ofNat']
    omega
  have hck : Decodes (checkOrdinal blockCount previous
      (UInt64.ofNat (UInt32.ofNat ordinal - UInt32.ofNat previous).toNat)) [] ordinal := by
    intro rest
    simp only [checkOrdinal, hd]
    rw [if_neg (by omega), if_neg (by omega),
      show previous + (ordinal - previous) = ordinal by omega]
    rfl
  have hrd : Decodes (readOrdinal blockCount previous) (pushOrdinal previous ordinal ++ [])
      (ordinal, ordinal) := by
    apply (decodes_uvarint _ "a posting ordinal").bind
    simpa using hck.map fun ordinal => (ordinal, ordinal)
  simpa using hrd

/-- Ordinals of some blocks, each at or after the one before it, are in order. -/
theorem along_ordinals_iff : ∀ (ordinals : List Nat) (previous : Nat),
    Along (fun previous o => previous ≤ o ∧ o < blockCount) (fun _ o => o) ordinals previous ↔
      ordinals.Pairwise (· ≤ ·) ∧ ∀ o ∈ ordinals, previous ≤ o ∧ o < blockCount := by
  intro ordinals
  induction ordinals with
  | nil => simp [Along]
  | cons o ordinals ih =>
    intro previous
    rw [Along, ih, pairwise_cons, forall_mem_cons]
    constructor
    · rintro ⟨first, ordered, later⟩
      exact ⟨⟨fun o' ho' => (later o' ho').1, ordered⟩, first,
        fun o' ho' => ⟨first.1.trans (later o' ho').1, (later o' ho').2⟩⟩
    · rintro ⟨⟨after, ordered⟩, first, later⟩
      exact ⟨first, ordered, fun o' ho' => ⟨after o' ho', (later o' ho').2⟩⟩

theorem length_le_pushOrdinals (ordinals : List Nat) :
    ordinals.length ≤ (pushOrdinals ordinals).length :=
  length_le_writeMany (fun _ _ => pushUvarint_length_pos _) ordinals 0

theorem pushPosting_length_pos (posting : SeriesFingerprint × List Nat) :
    0 < (pushPosting posting).length := by
  simp only [pushPosting, length_append, leBytes_length]
  omega

theorem decodes_posting (hcount : blockCount < 2 ^ 32) {posting : SeriesFingerprint × List Nat}
    (hasc : posting.2.Pairwise (· ≤ ·)) (hbnd : ∀ o ∈ posting.2, o < blockCount)
    (h : (pushPosting posting).length < 2 ^ 64) :
    Decodes (readPosting blockCount) (pushPosting posting) posting := by
  have hle := length_le_pushOrdinals posting.2
  simp only [pushPosting, length_append] at h
  have hlen : (pushOrdinals posting.2).length < 2 ^ 64 := by omega
  have hor : Decodes (readMany (readOrdinal blockCount) posting.2.length 0)
      (pushOrdinals posting.2) posting.2 :=
    decodes_readMany_along (fun previous o => previous ≤ o ∧ o < blockCount)
      (fun _ _ hgo _ => decodes_ordinal hcount hgo) posting.2 0
      ((along_ordinals_iff posting.2 0).mpr ⟨hasc, fun o ho => ⟨Nat.zero_le o, hbnd o ho⟩⟩)
      hlen
  simp only [pushPosting, append_assoc, readPosting]
  apply (decodes_u64Le posting.1 "a posting fingerprint").bind
  apply decodes_count "ordinals of a posting" hle (by omega)
  simpa using hor.map fun ordinals => (posting.1, ordinals)

theorem length_le_pushPostings (postings : List (SeriesFingerprint × List Nat)) :
    postings.length ≤ (pushPostings postings).length :=
  length_le_writeMany (fun _ posting => pushPosting_length_pos posting) postings ()

theorem decodes_postings (hcount : blockCount < 2 ^ 32)
    {postings : List (SeriesFingerprint × List Nat)}
    (good : ∀ posting ∈ postings, posting.2.Pairwise (· ≤ ·) ∧ ∀ o ∈ posting.2, o < blockCount)
    (h : (pushPostings postings).length < 2 ^ 64) :
    Decodes (readPostings blockCount postings.length) (pushPostings postings) postings :=
  decodes_readMany
    (fun posting => posting.2.Pairwise (· ≤ ·) ∧ ∀ o ∈ posting.2, o < blockCount)
    (fun _ _ hpo hlen => by
      simpa using (decodes_posting hcount hpo.1 hpo.2 hlen).map fun p => (p, ()))
    postings () good h

variable {payload : IndexShardPayload}

theorem label_mem_dictionary :
    ∀ s ∈ payload.selectedSeries, ∀ label ∈ s.2.toList,
      label.1 ∈ payload.dictionary ∧ label.2 ∈ payload.dictionary := by
  intro s hs label hlb
  simp only [IndexShardPayload.dictionary, ExtTreeSet.mem_toList, ExtTreeSet.mem_ofList,
    contains_iff_mem, mem_flatMap]
  exact ⟨⟨s, hs, label, hlb, by simp⟩, ⟨s, hs, label, hlb, by simp⟩⟩

/-- The tenant that a payload's bytes decode to. -/
def IndexShardPayload.decoded (payload : IndexShardPayload) : TenantIndex :=
  .ofShard payload.selectedSeries payload.blocks

/-- The tables that a payload's bytes start with. -/
def IndexShardPayload.tables (payload : IndexShardPayload) : ShardTables where
  header := ⟨payload.tenant, payload.dictionary⟩
  series := payload.selectedSeries
  entries := payload.blocks.entries
  postingCount := payload.blocks.postings.toList.length

theorem decodes_shardTables {β : Type} {next : ShardTables → ByteReader β} {b : β}
    (h : (encodeIndexShard payload).length < 2 ^ 64)
    (hn : Decodes (next payload.tables) (pushPostings payload.blocks.postings.toList) b) :
    Decodes (readShardTables >>= next) (encodeIndexShard payload) b := by
  have hst := length_le_pushStrings payload.dictionary
  have hser := length_le_pushAllSeries payload.dictionary payload.selectedSeries
  have hbs := length_le_pushBlockEntries payload.blocks.entries
  have hpo := length_le_pushPostings payload.blocks.postings.toList
  simp only [encodeIndexShard, length_append] at h
  have hdi : payload.dictionary.length < 2 ^ 64 := by
    simp only [pushShardHeader, length_append] at h
    omega
  simp only [encodeIndexShard, append_assoc, readShardTables, bind_assoc, pure_bind]
  apply (decodes_shardHeader (by omega)).bind
  apply decodes_count "series" (by simp only [length_append]; omega) (by omega)
  apply (decodes_allSeries hdi label_mem_dictionary (by omega)).bind
  apply decodes_count "blocks" (by simp only [length_append]; omega) (by omega)
  apply (decodes_blockEntries (by omega)).bind
  exact decodes_count "postings" hpo (by omega) hn

theorem decodes_indexShard (hbdd : payload.blocks.Bounded)
    (hasc : BlockList.PairwisePostings (· ≤ ·) payload.blocks.postings)
    (hcount : payload.blocks.entries.length < 2 ^ 32)
    (h : (encodeIndexShard payload).length < 2 ^ 64) :
    Decodes readIndexShard (encodeIndexShard payload)
      (.single payload.tenant payload.decoded) := by
  have hgo : ∀ posting ∈ payload.blocks.postings.toList, posting.2.Pairwise (· ≤ ·) ∧
      ∀ o ∈ posting.2, o < payload.blocks.entries.length := by
    intro posting hpo
    have hget := ExtTreeMap.mem_toList_iff_getElem?_eq_some.mp hpo
    exact ⟨hasc _ _ hget, hbdd _ _ hget⟩
  have hlen : (pushPostings payload.blocks.postings.toList).length < 2 ^ 64 := by
    simp only [encodeIndexShard, length_append] at h
    omega
  rw [readIndexShard_eq]
  refine decodes_shardTables h ?_
  have hend := (decodes_postings hcount hgo hlen).map fun postings =>
    Index.single payload.tenant (TenantIndex.ofShard payload.selectedSeries
      ⟨payload.blocks.entries, ExtTreeMap.ofList postings⟩)
  rw [Collections.ofList_toList_map] at hend
  simpa [readShardPostings, IndexShardPayload.decoded, IndexShardPayload.tables] using hend

end RoundTrip

/-- A shard's series and blocks come back as they were encoded. -/
theorem decodeIndexShard_encodeIndexShard {payload : IndexShardPayload} (objectKey : String)
    (hbdd : payload.blocks.Bounded)
    (hasc : BlockList.PairwisePostings (· ≤ ·) payload.blocks.postings)
    (hcount : payload.blocks.entries.length < 2 ^ 32)
    (h : (encodeIndexShard payload).length < 2 ^ 64) :
    decodeIndexShard objectKey (encodeIndexShard payload) =
      .ok (.single payload.tenant payload.decoded) :=
  decodeShard_of_decodes (decodes_indexShard hbdd hasc hcount h) _ _

/-! ### What a shard holds -/

namespace TenantIndex

theorem labelled_foldl_addSeries :
    ∀ {held : TenantIndex}, held.Labelled →
      (series.foldl (fun held s => held.addSeries s.1 s.2) held).Labelled := by
  induction series with
  | nil => intro held h; exact h
  | cons s series ih => intro held h; exact ih h.addSeries

theorem labelled_ofShard (blocks : BlockListRepr) :
    (ofShard series blocks).Labelled := by
  have h := labelled_foldl_addSeries series labelled_empty
  exact ⟨h.posted, h.inhabited, h.named, h.valued, h.valuesNamed⟩

theorem getElem?_foldl_addSeries (fp : SeriesFingerprint)
    (series : List (SeriesFingerprint × Labels)) : ∀ held : TenantIndex,
    (series.foldl (fun held s => held.addSeries s.1 s.2) held).series[fp]? =
      (held.series[fp]?).or ((series.find? fun s => decide (s.1 = fp)).map Prod.snd) := by
  induction series with
  | nil => intro held; simp
  | cons s series ih =>
    intro held
    rw [foldl_cons, ih, getElem?_addSeries_series, Option.or_assoc]
    congr 1
    by_cases hfp : s.1 = fp
    · simp [hfp]
    · simp [hfp, Ne.symm hfp]

end TenantIndex

namespace IndexShardPayload

variable {payload : IndexShardPayload}

/-- The decoded series are the selected ones. -/
theorem getElem?_decoded_series (fp : SeriesFingerprint) :
    payload.decoded.series[fp]? =
      if fp ∈ payload.selected then some (payload.series[fp]?.getD ∅) else none := by
  have hfo : payload.decoded.series[fp]? =
      (payload.selectedSeries.find? fun s => decide (s.1 = fp)).map Prod.snd := by
    refine (TenantIndex.getElem?_foldl_addSeries fp payload.selectedSeries {}).trans ?_
    simp
  rw [hfo, selectedSeries, find?_map, Option.map_map]
  split
  · rename_i hmem
    have hfi : payload.selected.toList.find? ((fun s => decide (s.1 = fp)) ∘
        fun fp => (fp, payload.series[fp]?.getD ∅)) = some fp := by
      cases hfd : payload.selected.toList.find? ((fun s => decide (s.1 = fp)) ∘
          fun fp => (fp, payload.series[fp]?.getD ∅)) with
      | none =>
        have := find?_eq_none.mp hfd fp (ExtTreeSet.mem_toList.mpr hmem)
        simp at this
      | some other =>
        have := find?_some hfd
        simp only [Function.comp_apply, decide_eq_true_eq] at this
        rw [this]
    rw [hfi]
    rfl
  · rename_i hmem
    have hfi : payload.selected.toList.find? ((fun s => decide (s.1 = fp)) ∘
        fun fp => (fp, payload.series[fp]?.getD ∅)) = none := by
      rw [find?_eq_none]
      intro other ho heq
      simp only [Function.comp_apply, decide_eq_true_eq] at heq
      rw [heq, ExtTreeSet.mem_toList] at ho
      exact hmem ho
    rw [hfi]
    rfl

theorem decoded_blocks : payload.decoded.blocks = .ofRepr payload.blocks := rfl

theorem labelled_decoded : payload.decoded.Labelled := TenantIndex.labelled_ofShard _ _

end IndexShardPayload

/-! ### A whole tenant as one shard -/

namespace TenantIndex

/-- Every series and every live block of a tenant. -/
def wholeShard (held : TenantIndex) (tenant : String) : IndexShardPayload where
  tenant := tenant
  series := held.series
  selected := ExtTreeSet.ofList held.series.keys
  blocks := held.blocks.shardLocal
    (ExtTreeSet.ofList (held.blocks.ordinalsOverlapping Int64.minValue Int64.maxValue))

variable {held : TenantIndex}

theorem mem_ordinalsOverlapping_all (hw : BlockList.Wf held.blocks) {o : Nat} :
    o ∈ ExtTreeSet.ofList (held.blocks.ordinalsOverlapping Int64.minValue Int64.maxValue) ↔
      o ∈ held.blocks.order := by
  rw [ExtTreeSet.mem_ofList, contains_iff_mem, BlockList.ordinalsOverlapping,
    hw.overlapping_window, mem_filter]
  refine and_iff_left_of_imp fun _ => ?_
  simp [BlockEntry.overlaps, Int64.le_maxValue, Int64.minValue_le]

theorem wholeShard_series (tenant : String) :
    (held.wholeShard tenant).decoded.series = held.series := by
  refine ExtTreeMap.ext_getElem? fun fp => ?_
  rw [IndexShardPayload.getElem?_decoded_series]
  simp only [wholeShard, ExtTreeSet.mem_ofList, contains_iff_mem, ExtTreeMap.mem_keys,
    ExtTreeMap.mem_iff_isSome_getElem?]
  cases held.series[fp]? <;> simp

theorem wholeShard_registry (hw : BlockList.Wf held.blocks) (tenant : String) :
    (held.wholeShard tenant).decoded.blocks.registry = held.blocks.registry := by
  refine ExtTreeMap.ext_getElem? fun key => ?_
  rw [IndexShardPayload.decoded_blocks, wholeShard,
    BlockList.shardLocal_registry hw fun o ho => (mem_ordinalsOverlapping_all hw).mp ho,
    BlockList.getElem?_registry]
  cases hkey : held.blocks.byKey[key]? with
  | none => rfl
  | some o =>
    have ho := ((hw.byKey_iff key o).mp hkey).1
    rw [Option.bind_some, if_pos ((mem_ordinalsOverlapping_all hw).mpr ho)]
    rfl

theorem wholeShard_wf (tenant : String) : (held.wholeShard tenant).decoded.blocks.Wf :=
  BlockList.ofRepr_wf (BlockList.shardLocal_cut _ _).bounded

end TenantIndex

def Index.encodeTenantAsShard (index : Index) (tenant : String) : List UInt8 :=
  encodeIndexShard ((index.tenantOf tenant).wholeShard tenant)

/-- A tenant's shard decodes to its series and its blocks. -/
theorem decodeIndexShard_encodeTenantAsShard {index : Index} {tenant : String} (objectKey : String)
    (hv : (index.tenantOf tenant).blocks.Ordered)
    (hcount : ((index.tenantOf tenant).wholeShard tenant).blocks.entries.length < 2 ^ 32)
    (h : (index.encodeTenantAsShard tenant).length < 2 ^ 64) :
    decodeIndexShard objectKey (index.encodeTenantAsShard tenant) =
      .ok (.single tenant ((index.tenantOf tenant).wholeShard tenant).decoded) :=
  decodeIndexShard_encodeIndexShard objectKey (BlockList.shardLocal_cut _ _).bounded
    (BlockList.shardLocal_pairwise BlockList.orderInvariant_le hv.ordered _) hcount h

end KrabkaO11y.Blockstore
