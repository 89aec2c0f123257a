import KrabkaO11y.Blockstore.Index.CheckedQueries
import KrabkaO11y.Blockstore.Index.IndexShard

/-!
What `decode_index_shard` does with any bytes.

The reader goes over its tables in order and reads each the same way whatever follows
it, so bytes that decode have no strict front that does. The ordinals it accepts name
blocks of the shard, so every query of a decoded index stays within its vectors. What is
left is the number of blocks: it is bounded by the bytes of the input, not by `2^32`, and
turning it into a `u32` panics when it is not below.
-/

open Std (ExtTreeMap ExtTreeSet)

namespace KrabkaO11y.Blockstore

open Wire ByteReader

/-! ### The number of blocks -/

/-- The bytes hold the tables of a shard with more blocks than a `u32` counts. -/
def OverfullShard (bytes : List UInt8) : Prop :=
  ∃ tables rest, readShardTables.run bytes = .ok (tables, rest) ∧ 2 ^ 32 ≤ tables.entries.length

/-- `decode_index_shard`, with `none` where it panics. -/
def decodeIndexShardOrPanic (objectKey : String) (bytes : List UInt8) :
    Option (Except BlockStoreError Index) :=
  match readShardTables.run bytes with
  | .ok (tables, _) =>
    -- `u32::try_from(entries.len()).expect("a checked block count fits a u32")`
    if 2 ^ 32 ≤ tables.entries.length then none else some (decodeIndexShard objectKey bytes)
  | .error _ => some (decodeIndexShard objectKey bytes)

variable {bytes : List UInt8}

variable {objectKey : String}

/-- The decoder panics on overfull shards alone. -/
theorem decodeIndexShardOrPanic_eq_none_iff :
    decodeIndexShardOrPanic objectKey bytes = none ↔ OverfullShard bytes := by
  rw [decodeIndexShardOrPanic]
  constructor
  · intro h
    split at h
    · rename_i tables rest hrun
      split at h
      · rename_i many
        exact ⟨tables, rest, hrun, many⟩
      · cases h
    · cases h
  · rintro ⟨tables, rest, hrun, many⟩
    rw [hrun]
    exact if_pos many

theorem decodeIndexShardOrPanic_of_not (h : ¬ OverfullShard bytes) :
    decodeIndexShardOrPanic objectKey bytes = some (decodeIndexShard objectKey bytes) := by
  rw [decodeIndexShardOrPanic]
  split
  · rename_i tables rest hrun
    exact if_neg fun many => h ⟨tables, rest, hrun, many⟩
  · rfl

/-! ### Nothing is read beyond what is needed -/

theorem extends_labels (dictionary : List String) (n : Nat) : Extends (readLabels dictionary n) :=
  .readMany (fun _ => (extends_dictionaryEntry dictionary _).bind fun _ =>
    (extends_dictionaryEntry dictionary _).bind fun _ => .pure _) n ()

theorem extends_allSeries (dictionary : List String) (n : Nat) :
    Extends (readAllSeries dictionary n) := by
  have hser : Extends (readSeries dictionary) :=
    (extends_u64Le _).bind fun _ => (extends_count _).bind fun labels =>
      (extends_labels dictionary labels).bind fun _ => .pure _
  exact .readMany (fun _ => hser.bind fun _ => .pure _) n ()

theorem extends_blockEntry (previousMin : Int64) : Extends (readBlockEntry previousMin) :=
  (extends_shardBlockPrefix previousMin).bind fun _ => (extends_uvarint _).bind fun _ =>
    (extends_u64Le _).bind fun _ => .pure _

/-- Bytes behind the tables do not change how they are read. -/
theorem extends_shardTables : Extends readShardTables :=
  (extends_shardHeader _ _ _).bind fun header => (extends_count _).bind fun n =>
    (extends_allSeries header.dictionary n).bind fun _ => (extends_count _).bind fun blocks =>
      (Extends.readMany extends_blockEntry blocks 0).bind fun _ => (extends_count _).bind
        fun _ => .pure _

theorem extends_postings (blockCount n : Nat) : Extends (readPostings blockCount n) := by
  have ordinal : ∀ previous, Extends (readOrdinal blockCount previous) := fun previous =>
    (extends_uvarint _).bind fun _ =>
      (Extends.ite (.throw _) (.ite (.throw _) (.pure _))).bind fun _ => .pure _
  have posting : Extends (readPosting blockCount) :=
    (extends_u64Le _).bind fun _ => (extends_count _).bind fun ordinals =>
      (Extends.readMany ordinal ordinals 0).bind fun _ => .pure _
  exact .readMany (fun _ => posting.bind fun _ => .pure _) n ()

/-- Bytes behind a shard do not change how it is read. -/
theorem extends_indexShard : Extends readIndexShard := by
  rw [readIndexShard_eq]
  exact extends_shardTables.bind fun tables =>
    (extends_postings _ _).bind fun _ => .pure _

/-- Bytes behind an overfull shard leave it overfull. -/
theorem OverfullShard.append (h : OverfullShard bytes) (more : List UInt8) :
    OverfullShard (bytes ++ more) := by
  obtain ⟨tables, rest, hrun, many⟩ := h
  exact ⟨tables, rest ++ more, extends_shardTables bytes more tables rest hrun, many⟩

variable {index : Index} {rest : List UInt8}

/-! ### What is accepted -/

/-- An ordinal that is read names a block, at or after the one before it. -/
theorem yields_ordinal (blockCount previous : Nat) :
    Yields (readOrdinal blockCount previous) fun out =>
      (previous ≤ out.1 ∧ out.1 < blockCount) ∧ out.2 = out.1 := by
  refine .bind fun delta => ?_
  have check : Yields (checkOrdinal blockCount previous delta) fun ordinal =>
      previous ≤ ordinal ∧ ordinal < blockCount := by
    intro bytes ordinal rest h
    simp only [checkOrdinal] at h
    split at h
    · cases h
    · split at h <;> cases h
      rename_i hlt
      exact ⟨Nat.le_add_right _ _, not_le.mp hlt⟩
  exact check.bind_of fun ordinal hlt => .pure ⟨hlt, rfl⟩

/-- Posting lists that are read are in order and name blocks. -/
theorem yields_postings (blockCount n : Nat) :
    Yields (readPostings blockCount n) fun postings => ∀ posting ∈ postings,
      posting.2.Pairwise (· ≤ ·) ∧ ∀ ordinal ∈ posting.2, ordinal < blockCount := by
  refine .readMany (fun _ => ?_) n ()
  have hposting : Yields (readPosting blockCount) fun posting =>
      posting.2.Pairwise (· ≤ ·) ∧ ∀ ordinal ∈ posting.2, ordinal < blockCount := by
    have hall : ∀ count, Yields (Wire.readMany (readOrdinal blockCount) count 0) fun ordinals =>
        Along (fun previous o => previous ≤ o ∧ o < blockCount) (fun _ o => o) ordinals 0 :=
      fun count => Yields.readMany_along (yields_ordinal blockCount) count 0
    refine .bind fun _ => .bind fun count => (hall count).bind_of fun ordinals h => .pure ?_
    obtain ⟨ordered, bounded⟩ := (along_ordinals_iff ordinals 0).mp h
    exact ⟨ordered, fun o ho => (bounded o ho).2⟩
  exact hposting.bind_of fun _ h => .pure h

/-- What is read is one tenant, made of series and blocks whose postings name blocks in
order. -/
theorem yields_indexShard : Yields readIndexShard fun index =>
    ∃ (tenant : String) (series : List (SeriesFingerprint × Labels)) (blocks : BlockListRepr),
      blocks.Bounded ∧ BlockList.PairwisePostings (· ≤ ·) blocks.postings ∧
        index = .single tenant (.ofShard series blocks) := by
  rw [readIndexShard_eq]
  refine .bind fun tables => (yields_postings _ _).bind_of fun postings h => .pure ?_
  have hposting : ∀ (fp : SeriesFingerprint) (ordinals : List Nat),
      (ExtTreeMap.ofList postings)[fp]? = some ordinals →
        ordinals.Pairwise (· ≤ ·) ∧ ∀ ordinal ∈ ordinals, ordinal < tables.entries.length :=
    fun fp ordinals hfp => h (fp, ordinals) (Collections.mem_of_getElem?_ofList hfp)
  exact ⟨_, _, _, fun fp ordinals hfp => (hposting fp ordinals hfp).2,
    fun fp ordinals hfp => (hposting fp ordinals hfp).1, rfl⟩

/-- Every query reads its vectors where they have an entry, and the postings that a
resolution goes by are those of the series. The tenant can be written and read again. -/
structure TenantIndex.Answers (held : TenantIndex) (tenant : String) : Prop where
  candidates : ∀ (fps : ExtTreeSet SeriesFingerprint) (minTs maxTs : Int64),
    held.blocks.candidateBlocksChecked fps minTs maxTs =
      some (held.blocks.candidateBlocks fps minTs maxTs)
  metas : held.blocks.metasChecked tenant = some (held.blocks.metas tenant)
  live : held.blocks.liveFingerprintsChecked = some held.blocks.liveFingerprints
  ordered : held.Ordered

def Index.Answers (index : Index) : Prop :=
  ∀ (tenant : String) (held : TenantIndex), index.tenants[tenant]? = some held →
    held.Answers tenant

/-- What is read answers every query, whatever wrote the bytes. -/
theorem answers_of_run (h : readIndexShard.run bytes = .ok (index, rest)) :
    index.Answers := by
  obtain ⟨named, series, blocks, bounded, ordered, rfl⟩ := yields_indexShard bytes index rest h
  have hblocks : BlockList.Ordered (TenantIndex.ofShard series blocks).blocks :=
    BlockList.ofRepr_ordered bounded ordered
  have hw := hblocks.wf
  intro tenant held hh
  simp only [Index.single, ExtTreeMap.getElem?_insert] at hh
  split at hh
  · cases hh
    exact ⟨BlockList.candidateBlocksChecked_eq hw, BlockList.metasChecked_eq hw tenant,
      BlockList.liveFingerprintsChecked_eq hw, TenantIndex.labelled_ofShard series blocks, hblocks⟩
  · simp at hh

/-! ### An overfull shard -/

/-- The bytes of a payload start with its tables. -/
theorem run_shardTables_encode {payload : IndexShardPayload}
    (h : (encodeIndexShard payload).length < 2 ^ 64) :
    ∃ rest, readShardTables.run (encodeIndexShard payload) = .ok (payload.tables, rest) := by
  have hde : Decodes (readShardTables >>= fun tables => (fun _ => tables) <$>
      ByteReader.take (pushPostings payload.blocks.postings.toList).length "")
      (encodeIndexShard payload) payload.tables :=
    decodes_shardTables h ((decodes_take _ "").map _)
  obtain ⟨tables, rest, hrun, hr⟩ := run_bind_eq_ok hde.run
  have htab : tables = payload.tables := by
    rw [StateT.run_map] at hr
    cases hta : (ByteReader.take (pushPostings payload.blocks.postings.toList).length "").run rest
      with
    | error e => rw [hta] at hr; cases hr
    | ok out => rw [hta] at hr; exact congrArg Prod.fst (Except.ok.inj hr)
  exact ⟨rest, htab ▸ hrun⟩

/-- The bytes of a shard are overfull when it has more blocks than a `u32` counts. -/
theorem overfull_encodeIndexShard_iff {payload : IndexShardPayload}
    (h : (encodeIndexShard payload).length < 2 ^ 64) :
    OverfullShard (encodeIndexShard payload) ↔ 2 ^ 32 ≤ payload.blocks.entries.length := by
  obtain ⟨rest, hrun⟩ := run_shardTables_encode h
  constructor
  · rintro ⟨tables, rest', hrun', hmany⟩
    rw [hrun] at hrun'
    cases hrun'
    exact hmany
  · exact fun hmany => ⟨payload.tables, rest, hrun, hmany⟩

def emptyBlock : BlockEntry := ⟨"", 0, 0, 0, 0, 0, ⟨0⟩⟩

/-- Blocks that are all alike, of no series. -/
def repeatedBlocks (n : Nat) : IndexShardPayload where
  tenant := ""
  series := ∅
  selected := ∅
  blocks := ⟨List.replicate n emptyBlock, ∅⟩

/-- Fourteen bytes a block, and a header. -/
theorem length_encodeIndexShard_repeatedBlocks (n : Nat) :
    (encodeIndexShard (repeatedBlocks n)).length ≤ 14 * n + 40 := by
  have header : (pushShardHeader indexShardMagic indexShardFormatVersion (repeatedBlocks n).tenant
      (repeatedBlocks n).dictionary).length = 7 := by
    change (pushShardHeader indexShardMagic indexShardFormatVersion "" []).length = 7
    decide +kernel
  have hentries : (pushBlockEntries (repeatedBlocks n).blocks.entries).length = n * 14 :=
    length_writeMany_replicate rfl n
  have lens : ∀ len, (pushLen len).length ≤ 10 := fun len => uvarintBytes_length_le 10 _
  have hser := lens (repeatedBlocks n).selectedSeries.length
  have hblocks := lens (repeatedBlocks n).blocks.entries.length
  have hpostings := lens (repeatedBlocks n).blocks.postings.toList.length
  have hnone : (pushAllSeries (repeatedBlocks n).dictionary (repeatedBlocks n).selectedSeries) =
    [] :=
    rfl
  have none' : pushPostings (repeatedBlocks n).blocks.postings.toList = [] := rfl
  simp only [encodeIndexShard, List.length_append, header, hentries, hnone, none',
    List.length_nil]
  omega

/-! ### Any bytes -/

/-- The decoder returns, and an index that it returns was read from all of the bytes and
answers every query. -/
def DecodesSafely (objectKey : String) (bytes : List UInt8) : Prop :=
  ∃ result, decodeIndexShardOrPanic objectKey bytes = some result ∧
    ∀ index, result = .ok index → readIndexShard.run bytes = .ok (index, []) ∧ index.Answers

/-- What is not overfull is decoded or refused, without a panic. -/
theorem decodesSafely_iff :
    DecodesSafely objectKey bytes ↔ ¬ OverfullShard bytes := by
  constructor
  · rintro ⟨result, hres, -⟩ hover
    rw [decodeIndexShardOrPanic_eq_none_iff.mpr hover] at hres
    cases hres
  · intro h
    refine ⟨_, decodeIndexShardOrPanic_of_not h, fun index hi => ?_⟩
    have hrun := run_of_decodeShard hi
    exact ⟨hrun, answers_of_run hrun⟩

/-- A strict front of bytes that decode is refused. -/
theorem refused_front {front more : List UInt8}
    (hall : readIndexShard.run (front ++ more) = .ok (index, []))
    (hfit : ¬ OverfullShard (front ++ more)) (hmore : more ≠ []) :
    ∃ e, decodeIndexShardOrPanic objectKey front = some (.error e) := by
  have hover : ¬ OverfullShard front := fun h => hfit (h.append more)
  rw [decodeIndexShardOrPanic_of_not hover]
  cases hfront : decodeIndexShard objectKey front with
  | error e => exact ⟨e, rfl⟩
  | ok other =>
    exact absurd (extends_indexShard.not_run_front hall (run_of_decodeShard hfront)) hmore

/-- What a tenant's shard gives back. -/
structure SameTenant (decoded held : TenantIndex) : Prop where
  series : decoded.series = held.series
  postings : decoded.postings = held.postings
  values : decoded.values = held.values
  blocks : decoded.blocks.registry = held.blocks.registry

/-- Series determine the label postings, and entries with postings the registry. -/
theorem TenantIndex.Ordered.sameTenant {held : TenantIndex} (h : held.Ordered) (tenant : String) :
    SameTenant (held.wholeShard tenant).decoded held := by
  have hser : (held.wholeShard tenant).decoded.series = held.series :=
    TenantIndex.wholeShard_series tenant
  obtain ⟨hpo, hva⟩ := IndexShardPayload.labelled_decoded.ext h.labelled hser
  exact ⟨hser, hpo, hva, TenantIndex.wholeShard_registry h.blocks.wf tenant⟩

/-- A shard decodes to the tenant it was encoded from, and a strict front of it is
refused. Bytes of any kind are refused, or decode to an index that answers every query,
exactly when they do not start with the tables of more blocks than a `u32` counts. -/
theorem index_shard_decodes_iff (objectKey : String) (bytes : List UInt8) :
    (DecodesSafely objectKey bytes ↔ ¬ OverfullShard bytes) ∧
    ∀ (index : Index) (tenant : String), (index.tenantOf tenant).Ordered →
      ((index.tenantOf tenant).wholeShard tenant).blocks.entries.length < 2 ^ 32 →
      (index.encodeTenantAsShard tenant).length < 2 ^ 64 →
      (bytes = index.encodeTenantAsShard tenant →
        ∃ decoded, decodeIndexShardOrPanic objectKey bytes = some (.ok (.single tenant decoded)) ∧
          SameTenant decoded (index.tenantOf tenant)) ∧
      ∀ more ≠ [], bytes ++ more = index.encodeTenantAsShard tenant →
        ∃ e, decodeIndexShardOrPanic objectKey bytes = some (.error e) := by
  refine ⟨decodesSafely_iff, fun index tenant hv hcount hlen => ?_⟩
  have hdecode := decodeIndexShard_encodeTenantAsShard objectKey hv.blocks hcount hlen
  have hrun := run_of_decodeShard hdecode
  have hfit : ¬ OverfullShard (index.encodeTenantAsShard tenant) := fun hov =>
    absurd ((overfull_encodeIndexShard_iff hlen).mp hov) (by omega)
  constructor
  · rintro rfl
    refine ⟨_, ?_, hv.sameTenant tenant⟩
    rw [decodeIndexShardOrPanic_of_not hfit, hdecode]
  · intro more hmore hall
    rw [← hall] at hrun hfit
    exact refused_front hrun hfit hmore

/-- One labelled series in one block. -/
def oneBlockIndex : Index :=
  (({} : Index).addSeries "a" 7 (ExtTreeMap.ofList [("job", "api")])).addBlock
    { tenant := "a", objectKey := "b", minTs := -5, maxTs := 9, rowCount := 3, fingerprints := [7],
      level := ⟨1⟩ }

/-- The shard comes back, and without its last byte it is refused. -/
theorem index_shard_decodes_iff_oneBlock :
    (∃ decoded, decodeIndexShardOrPanic "k" (oneBlockIndex.encodeTenantAsShard "a") =
        some (.ok (.single "a" decoded)) ∧ SameTenant decoded (oneBlockIndex.tenantOf "a")) ∧
      ∃ e, decodeIndexShardOrPanic "k" (oneBlockIndex.encodeTenantAsShard "a").dropLast =
        some (.error e) := by
  have hv : (oneBlockIndex.tenantOf "a").Ordered :=
    (((Index.valid_empty.addSeries _ _).addBlock _).tenantOf "a").ordered
  have hcount : ((oneBlockIndex.tenantOf "a").wholeShard "a").blocks.entries.length < 2 ^ 32 := by
    decide +kernel
  have hlen : (oneBlockIndex.encodeTenantAsShard "a").length < 2 ^ 64 := by decide +kernel
  have hne : oneBlockIndex.encodeTenantAsShard "a" ≠ [] := by decide +kernel
  constructor
  · exact ((index_shard_decodes_iff "k" _).2 oneBlockIndex "a" hv hcount hlen).1 rfl
  · exact ((index_shard_decodes_iff "k" _).2 oneBlockIndex "a" hv hcount hlen).2 _
      (List.cons_ne_nil _ []) (List.dropLast_append_getLast hne)

/-- A shard of `2 ^ 32` equal records. -/
theorem index_shard_decodes_overfull :
    ∃ bytes : List UInt8, ∀ objectKey : String, decodeIndexShardOrPanic objectKey bytes = none := by
  have hlen := length_encodeIndexShard_repeatedBlocks (2 ^ 32)
  have hmany : 2 ^ 32 ≤ (repeatedBlocks (2 ^ 32)).blocks.entries.length := by
    rw [repeatedBlocks, List.length_replicate]
  exact ⟨encodeIndexShard (repeatedBlocks (2 ^ 32)), fun objectKey =>
    decodeIndexShardOrPanic_eq_none_iff.mpr
      ((overfull_encodeIndexShard_iff (by omega)).mpr hmany)⟩

end KrabkaO11y.Blockstore
