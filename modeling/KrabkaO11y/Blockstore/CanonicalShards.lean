import KrabkaO11y.Blockstore.Index.RegistrationOrder
import KrabkaO11y.Blockstore.ProfileIndex.ProfileIndex
import KrabkaO11y.Blockstore.TraceIndex.TraceMerge

/-!
Whether a shard has one encoding.

`TenantShardMerge::publish` names a payload by its bytes, so a shard that a merge reads
and puts back unchanged should be the same object. Trace records are sorted on the way
out, and their payload depends on the set of records alone. A profile payload lists its
blocks as they were registered, and reading it back registers them by time: the bytes
come back exactly when the two orders agree.
-/

open Std (ExtTreeMap ExtTreeSet)

namespace KrabkaO11y.Blockstore

open TraceBlockStats BlockList ProfileShard List

/-! ### Trace shards -/

/-- Reads a trace payload and publishes what it holds. -/
def republishTraceShard (tenant objectKey : String) (bytes : List UInt8) :
    Except BlockStoreError (List UInt8) := do
  let blocks ← decodeTraceShard objectKey bytes
  pure (encodeTraceShard tenant (sortTraceBlocks blocks))

theorem sortTraceBlocks_of_sorted {blocks : List TraceBlockStats}
    (h : blocks.Pairwise fun a b => a.orderKey ≤ b.orderKey) : sortTraceBlocks blocks = blocks :=
  mergeSort_of_pairwise (h.imp fun hle => decide_eq_true hle)

/-- Records of distinct keys are sorted into one list, whatever order they came in. -/
theorem sortTraceBlocks_congr {left right : List TraceBlockStats}
    (hleft : (left.map objectKey).Nodup)
    (hr : (right.map objectKey).Nodup) (h : ∀ x, x ∈ left ↔ x ∈ right) :
    sortTraceBlocks left = sortTraceBlocks right := by
  have hpm : (sortTraceBlocks left).Perm (sortTraceBlocks right) :=
    (mergeSort_perm _ _).trans
      (((perm_ext_iff_of_nodup hleft.of_map hr.of_map).mpr h).trans
        (mergeSort_perm _ _).symm)
  refine hpm.eq_of_pairwise (fun a b ha hb hab hba => ?_)
    (Collections.pairwise_mergeSort_key orderKey left)
    (Collections.pairwise_mergeSort_key orderKey right)
  have hb' := hpm.mem_iff.mpr hb
  exact inj_on_of_nodup_map hleft (mem_sortTraceBlocks.mp ha) (mem_sortTraceBlocks.mp hb')
    (blockOrderKey_inj (le_antisymm hab hba)).2.2

/-- One edit of the records of one range. -/
inductive TraceSlotStep (tenant : String) (range : IndexShardRange) :
    List TraceBlockStats → List TraceBlockStats → Prop
  | remove (fingerprint : TraceFingerprint) (removals : List (String × PendingRemoval))
      (held : List TraceBlockStats) : TraceSlotStep tenant range held
        (held.filter fun block => !TraceShards.isPinned fingerprint removals block)
  | contribute (block : TraceBlockStats) (held : List TraceBlockStats) :
      TraceSlotStep tenant range held (TraceShards.contributeAt range held block)
  | republish {objectKey : String} {held read : List TraceBlockStats}
      (hlen : (encodeTraceShard tenant (sortTraceBlocks held)).length < 2 ^ 64)
      (hread : decodeTraceShard objectKey (encodeTraceShard tenant (sortTraceBlocks held)) =
        .ok read) : TraceSlotStep tenant range held read

variable {range : IndexShardRange} {tenant : String}

theorem TraceSlotStep.nodup
    {held next : List TraceBlockStats} (h : TraceSlotStep tenant range held next)
    (hnodup : (held.map objectKey).Nodup) :
    (next.map objectKey).Nodup := by
  cases h with
  | remove fingerprint removals => exact hnodup.sublist (filter_sublist.map _)
  | contribute block => exact TraceShards.nodup_contributeAt hnodup
  | republish hlen hrd =>
    rw [decodeTraceShard_encodeTraceShard _ hlen] at hrd
    cases hrd
    exact ((mergeSort_perm _ _).map _).nodup_iff.mpr hnodup

theorem nodup_of_traceSlotSteps
    {held : List TraceBlockStats}
    (h : Relation.ReflTransGen (TraceSlotStep tenant range) [] held) :
    (held.map objectKey).Nodup := by
  induction h with
  | refl => exact nodup_nil
  | tail _ hs ih => exact hs.nodup ih

/-! ### Profile shards: what the bytes hold -/

namespace Index

variable {index : Index} {tenant : String}

theorem blocks_addSeries (fp : SeriesFingerprint) (labels : Labels) (other : String) :
    ((index.addSeries tenant fp labels).tenantOf other).blocks = (index.tenantOf other).blocks := by
  rw [addSeries, tenantOf_alterTenant]
  split
  · rename_i heq
    rw [TenantIndex.addSeries_blocks, heq]
  · rfl

theorem blocks_foldl_addSeries (series : List (SeriesFingerprint × Labels)) (other : String) :
    ∀ index : Index,
      ((series.foldl (fun index s => index.addSeries tenant s.1 s.2) index).tenantOf other).blocks =
        (index.tenantOf other).blocks := by
  induction series with
  | nil => intro index; rfl
  | cons s series ih => intro index; rw [foldl_cons, ih, blocks_addSeries]

theorem blocks_foldl_addBlock (blocks : List BlockMeta)
    (h : ∀ block ∈ blocks, block.tenant = tenant) :
    ∀ index : Index, ((blocks.foldl addBlock index).tenantOf tenant).blocks =
      blocks.foldl insert (index.tenantOf tenant).blocks := by
  induction blocks with
  | nil => intro index; rfl
  | cons block blocks ih =>
    intro index
    obtain ⟨hb, hr⟩ := forall_mem_cons.mp h
    rw [foldl_cons, ih hr, addBlock, tenantOf_alterTenant, if_pos hb, hb,
      foldl_cons]

theorem single_inj {held held' : TenantIndex} (h : single tenant held = single tenant held') :
    held = held' := by
  have hten := congrArg (fun index : Index => index.tenants[tenant]?) h
  simpa [single] using hten

end Index

namespace ProfileShard

variable {tenant : String} {shard other : ProfileShard}

/-- The blocks of a tenant. -/
def blocksAt (shard : ProfileShard) (tenant : String) : BlockList :=
  (shard.index.tenantOf tenant).blocks

theorem valid_blocksAt : (shard.blocksAt tenant).Valid := (shard.valid.tenantOf tenant).blocks

theorem exact_blocksAt : (shard.blocksAt tenant).Exact := (shard.valid.tenantOf tenant).exact

theorem blockTotal_eq : shard.blockTotal tenant = (shard.blocksAt tenant).registered.length := by
  have hen := whole_entries (@valid_blocksAt tenant shard).wf
    exact_blocksAt
  exact (congrArg List.length hen).trans (length_map _)

/-- The bytes are a function of the registered records, the series and the partitions. -/
theorem encodeProfileShard_congr
    (blocks : (shard.blocksAt tenant).registered = (other.blocksAt tenant).registered)
    (hser : shard.index.seriesOf tenant = other.index.seriesOf tenant)
    (hpartitions : shard.partitions = other.partitions) :
    encodeProfileShard tenant shard = encodeProfileShard tenant other := by
  have hwh := whole_eq valid_blocksAt exact_blocksAt valid_blocksAt exact_blocksAt blocks
  have hpay : (shard.index.tenantOf tenant).wholeShard tenant =
      (other.index.tenantOf tenant).wholeShard tenant := by
    calc (shard.index.tenantOf tenant).wholeShard tenant
        = ⟨tenant, shard.index.seriesOf tenant,
          ExtTreeSet.ofList (shard.index.seriesOf tenant).keys,
            (shard.blocksAt tenant).whole⟩ := rfl
      _ = (other.index.tenantOf tenant).wholeShard tenant := by rw [hser, hwh]; rfl
  simp only [encodeProfileShard, Index.encodeTenantAsShard, hpay, hpartitions]

/-- Two shards have the same bytes exactly when all of that agrees. -/
theorem encodeProfileShard_eq_iff (hcount : shard.blockTotal tenant < 2 ^ 32)
    (count' : other.blockTotal tenant < 2 ^ 32)
    (hlen : (encodeProfileShard tenant shard).length < 2 ^ 64) :
    encodeProfileShard tenant shard = encodeProfileShard tenant other ↔
      (shard.blocksAt tenant).registered = (other.blocksAt tenant).registered ∧
        shard.index.seriesOf tenant = other.index.seriesOf tenant ∧
        shard.partitions = other.partitions := by
  refine ⟨fun h => ?_, fun ⟨hbs, hser, hps⟩ =>
    encodeProfileShard_congr hbs hser hps⟩
  have hdec : shard.decoded tenant = other.decoded tenant := by
    have hrd := decodeProfileShard_encodeProfileShard "" hcount hlen
    rw [h, decodeProfileShard_encodeProfileShard "" count' (h ▸ hlen)] at hrd
    exact (Except.ok.inj hrd).symm
  have hh := Index.single_inj (congrArg DecodedProfileShard.index hdec)
  refine ⟨?_, ?_, congrArg DecodedProfileShard.partitions hdec⟩
  · have hbs := congrArg (fun held : TenantIndex => held.blocks.registered) hh
    have hlf := registered_ofRepr_whole
      (@valid_blocksAt tenant shard).wf
    have hr := registered_ofRepr_whole
      (@valid_blocksAt tenant other).wf
    exact hlf.symm.trans (hbs.trans hr)
  · have hser := congrArg TenantIndex.series hh
    rwa [TenantIndex.wholeShard_series, TenantIndex.wholeShard_series] at hser

/-! ### Profile shards: reading a payload back -/

/-- A fresh shard with a decoded one folded in. -/
def reloaded (decoded : DecodedProfileShard) : ProfileShard := absorb {} decoded

/-- Reads a profile payload and publishes what it holds. -/
def republish (tenant objectKey : String) (bytes : List UInt8) :
    Except BlockStoreError (List UInt8) := do
  let decoded ← decodeProfileShard objectKey bytes
  (reloaded decoded).encode tenant

theorem blocksAt_reloaded :
    ((reloaded (shard.decoded tenant)).blocksAt tenant).registered =
      (shard.blocksAt tenant).order.map (shard.blocksAt tenant).record := by
  set held := ((shard.index.tenantOf tenant).wholeShard tenant).decoded with hh
  have hw : held.blocks.Wf := TenantIndex.wholeShard_wf tenant
  have hme : ∀ block ∈ held.blocks.metas tenant, block.tenant = tenant := by
    intro block hb
    obtain ⟨o, -, rfl⟩ := mem_map.mp hb
    rfl
  have hbs : (reloaded (shard.decoded tenant)).blocksAt tenant =
      (held.blocks.metas tenant).foldl insert {} := by
    have hmg : (reloaded (shard.decoded tenant)).index = Index.mergeTenant {} tenant held :=
      Index.mergeFrom_single {} tenant held
    rw [blocksAt, hmg, Index.mergeTenant, Index.blocks_foldl_addBlock _ hme,
      Index.blocks_foldl_addSeries]
    rfl
  rw [hbs, registered_rebuild hw, ← hw.refines.walk,
    TenantIndex.wholeShard_registry valid_blocksAt.wf]
  exact (@valid_blocksAt tenant shard).wf.refines.walk

theorem seriesOf_reloaded : (reloaded (shard.decoded tenant)).index.seriesOf tenant =
    shard.index.seriesOf tenant := by
  have hmg : (reloaded (shard.decoded tenant)).index = Index.mergeTenant {} tenant
      ((shard.index.tenantOf tenant).wholeShard tenant).decoded :=
    Index.mergeFrom_single {} tenant _
  refine ExtTreeMap.ext_getElem? fun fp => ?_
  rw [hmg, Index.getElem?_seriesOf_mergeTenant, if_pos rfl, TenantIndex.wholeShard_series]
  rfl

theorem partitions_reloaded : (reloaded (shard.decoded tenant)).partitions = shard.partitions := by
  have hfo : (reloaded (shard.decoded tenant)).partitions =
      (∅ : BlockPartitions).insertMany shard.partitions.toList := rfl
  rw [hfo, ← ExtTreeMap.ofList_eq_insertMany_empty, Collections.ofList_toList_map]

theorem blockTotal_reloaded :
    (reloaded (shard.decoded tenant)).blockTotal tenant = shard.blockTotal tenant := by
  have hw := (@valid_blocksAt tenant shard).wf
  have hpm : (shard.blocksAt tenant).order.Perm (shard.blocksAt tenant).liveOrdinals :=
    (perm_ext_iff_of_nodup hw.placed.nodup
      (liveOrdinals_ascending.imp Nat.ne_of_lt)).mpr fun o =>
        (mem_liveOrdinals hw).symm
  rw [blockTotal_eq, blockTotal_eq, blocksAt_reloaded, registered, length_map,
    length_map, hpm.length_eq]

/-- What is read back is published with the same bytes exactly when the blocks were
registered by time. -/
theorem republish_eq_iff (objectKey : String) (hcount : shard.blockTotal tenant < 2 ^ 32)
    (hlen : (encodeProfileShard tenant shard).length < 2 ^ 64) :
    republish tenant objectKey (encodeProfileShard tenant shard) =
        .ok (encodeProfileShard tenant shard) ↔ (shard.blocksAt tenant).TimeOrdered := by
  have hct' : (reloaded (shard.decoded tenant)).blockTotal tenant < 2 ^ 32 := by
    rwa [blockTotal_reloaded]
  have hrun : republish tenant objectKey (encodeProfileShard tenant shard) =
      .ok (encodeProfileShard tenant (reloaded (shard.decoded tenant))) := by
    have hen : (reloaded (shard.decoded tenant)).encode tenant =
        .ok (encodeProfileShard tenant (reloaded (shard.decoded tenant))) := by
      rw [encode, if_pos hct']
    rw [republish, Concurrent.except_bind_eq_ok]
    exact ⟨_, decodeProfileShard_encodeProfileShard objectKey hcount hlen, hen⟩
  rw [hrun, Except.ok.injEq, eq_comm, encodeProfileShard_eq_iff hcount hct' hlen,
    blocksAt_reloaded, seriesOf_reloaded, partitions_reloaded,
    timeOrdered_iff valid_blocksAt.wf]
  simp

/-! ### Profile shards: runs that register by time -/

/-- One edit of one profile shard, where a block is added after the ones it follows in
time. -/
inductive InOrderStep (tenant : String) : ProfileShard → ProfileShard → Prop
  | drop (objectKey : String) (shard : ProfileShard) :
      InOrderStep tenant shard (shard.dropBlock tenant objectKey)
  | name (fp : SeriesFingerprint) (labels : Labels) (shard : ProfileShard) :
      InOrderStep tenant shard (shard.addSeries tenant fp labels)
  | add (index : ProfileIndex) {block : BlockMeta} {shard : ProfileShard}
      (htenant : block.tenant = tenant)
      (hfree : (shard.blocksAt tenant).byKey[block.objectKey]? = none)
      (hlast : ∀ r ∈ (shard.blocksAt tenant).registered,
        r.orderKey < (BlockRecord.ofMeta block).orderKey) :
      InOrderStep tenant shard (addBlock index tenant block shard)
  | republish {objectKey : String} {decoded : DecodedProfileShard} {shard : ProfileShard}
      (hcount : shard.blockTotal tenant < 2 ^ 32)
      (hlen : (encodeProfileShard tenant shard).length < 2 ^ 64)
      (hread : decodeProfileShard objectKey (encodeProfileShard tenant shard) = .ok decoded) :
      InOrderStep tenant shard (reloaded decoded)

/-- Naming the series of a block. -/
def nameSeries (index : ProfileIndex) (tenant : String) (shard : ProfileShard)
    (fp : SeriesFingerprint) : ProfileShard :=
  match index.series.seriesLabels tenant fp with
  | some labels => shard.addSeries tenant fp labels
  | none => shard

theorem blocksAt_nameSeries (index : ProfileIndex) (fps : List SeriesFingerprint) :
    ∀ shard : ProfileShard,
      (fps.foldl (nameSeries index tenant) shard).blocksAt tenant = shard.blocksAt tenant := by
  induction fps with
  | nil => intro shard; rfl
  | cons fp fps ih =>
    intro shard
    rw [foldl_cons, ih, nameSeries]
    cases index.series.seriesLabels tenant fp with
    | none => rfl
    | some labels => exact Index.blocks_addSeries fp labels tenant

theorem blocksAt_addBlock (index : ProfileIndex) {block : BlockMeta} (h : block.tenant = tenant) :
    (addBlock index tenant block shard).blocksAt tenant = (shard.blocksAt tenant).insert block := by
  have hi : (addBlock index tenant block shard).index =
      (block.fingerprints.foldl (nameSeries index tenant) shard).index.addBlock block := rfl
  rw [blocksAt, hi, Index.addBlock, Index.tenantOf_alterTenant, if_pos h, h]
  exact congrArg (insert · block) (blocksAt_nameSeries index _ shard)

theorem InOrderStep.timeOrdered {next : ProfileShard} (h : InOrderStep tenant shard next)
    (hord : (shard.blocksAt tenant).TimeOrdered) : (next.blocksAt tenant).TimeOrdered := by
  cases h with
  | drop objectKey =>
    have hbs : (shard.dropBlock tenant objectKey).blocksAt tenant =
        ((shard.blocksAt tenant).remove (ExtTreeSet.ofList [objectKey])).2 := by
      have hi : (shard.dropBlock tenant objectKey).index =
          shard.index.replaceBlocks tenant [objectKey] [] := rfl
      rw [blocksAt, hi, Index.replaceBlocks, Index.tenantOf_alterTenant, if_pos rfl]
      rfl
    rw [hbs]
    exact hord.sublist (registered_remove valid_blocksAt.wf _)
  | name fp labels =>
    have hbs : (shard.addSeries tenant fp labels).blocksAt tenant = shard.blocksAt tenant :=
      Index.blocks_addSeries fp labels tenant
    rwa [hbs]
  | add index hten hfe hl =>
    rw [blocksAt_addBlock index hten, BlockList.TimeOrdered,
      registered_insert valid_blocksAt.wf hfe, pairwise_append]
    refine ⟨hord, pairwise_singleton .., fun r hr new hnew => ?_⟩
    rw [mem_singleton.mp hnew]
    exact hl r hr
  | republish hct hlen hrd =>
    rw [decodeProfileShard_encodeProfileShard _ hct hlen] at hrd
    cases hrd
    rw [BlockList.TimeOrdered, blocksAt_reloaded]
    exact valid_blocksAt.wf.sorted_records

theorem timeOrdered_of_steps (h : Relation.ReflTransGen (InOrderStep tenant) {} shard) :
    (shard.blocksAt tenant).TimeOrdered := by
  induction h with
  | refl => exact List.Pairwise.nil
  | tail _ hs ih => exact hs.timeOrdered ih

/-- Shards that registered by time are told apart by what they hold. -/
theorem registered_congr (hleft : (shard.blocksAt tenant).TimeOrdered)
    (hr : (other.blocksAt tenant).TimeOrdered)
    (h : shard.index.blocksOf tenant = other.index.blocksOf tenant) :
    (shard.blocksAt tenant).registered = (other.blocksAt tenant).registered := by
  have hwa := congrArg Registry.walk h
  rw [Index.blocksOf, Index.blocksOf] at hwa
  rw [(timeOrdered_iff valid_blocksAt.wf).mp hleft,
    (timeOrdered_iff valid_blocksAt.wf).mp hr]
  exact (valid_blocksAt.wf.refines.walk.symm.trans hwa).trans valid_blocksAt.wf.refines.walk

end ProfileShard

/-! ### Which payloads are canonical -/

/-- A trace payload is read and published again with the same bytes, and depends on the
set of its records alone. A profile payload is exactly when its blocks were registered by
time; two profile shards of the same blocks have the same bytes exactly when they
registered them in the same order and name the same series. Runs that add each block
after the ones it follows in time always register by time. -/
theorem shard_payloads_canonical_iff (tenant objectKey : String) :
    (∀ blocks : List TraceBlockStats, blocks.Pairwise (fun a b => a.orderKey ≤ b.orderKey) →
      (encodeTraceShard tenant blocks).length < 2 ^ 64 →
      republishTraceShard tenant objectKey (encodeTraceShard tenant blocks) =
        .ok (encodeTraceShard tenant blocks)) ∧
    (∀ (range : IndexShardRange) (held held' : List TraceBlockStats),
      Relation.ReflTransGen (TraceSlotStep tenant range) [] held →
      Relation.ReflTransGen (TraceSlotStep tenant range) [] held' → (∀ x, x ∈ held ↔ x ∈ held') →
      encodeTraceShard tenant (sortTraceBlocks held) =
        encodeTraceShard tenant (sortTraceBlocks held')) ∧
    (∀ shard : ProfileShard, shard.blockTotal tenant < 2 ^ 32 →
      (encodeProfileShard tenant shard).length < 2 ^ 64 →
      (republish tenant objectKey (encodeProfileShard tenant shard) =
        .ok (encodeProfileShard tenant shard) ↔ (shard.blocksAt tenant).TimeOrdered)) ∧
    (∀ shard other : ProfileShard, shard.blockTotal tenant < 2 ^ 32 →
      other.blockTotal tenant < 2 ^ 32 → (encodeProfileShard tenant shard).length < 2 ^ 64 →
      shard.index.blocksOf tenant = other.index.blocksOf tenant →
      shard.partitions = other.partitions →
      (encodeProfileShard tenant shard = encodeProfileShard tenant other ↔
        (shard.blocksAt tenant).registered = (other.blocksAt tenant).registered ∧
          shard.index.seriesOf tenant = other.index.seriesOf tenant)) ∧
    ∀ shard other : ProfileShard,
      Relation.ReflTransGen (ProfileShard.InOrderStep tenant) {} shard →
      Relation.ReflTransGen (ProfileShard.InOrderStep tenant) {} other →
      (shard.blocksAt tenant).TimeOrdered ∧
        (shard.index.blocksOf tenant = other.index.blocksOf tenant →
          shard.index.seriesOf tenant = other.index.seriesOf tenant →
          shard.partitions = other.partitions →
          encodeProfileShard tenant shard = encodeProfileShard tenant other) := by
  refine ⟨fun blocks hsorted hlen => ?_, fun range held held' h h' hsame => ?_,
    fun shard hcount hlen => republish_eq_iff objectKey hcount hlen,
    fun shard other hcount hcount' hlen _ hpartitions => ?_, fun shard other h h' =>
      ⟨timeOrdered_of_steps h, fun hblocks hseries hpartitions => ?_⟩⟩
  · rw [republishTraceShard, Concurrent.except_bind_eq_ok]
    exact ⟨blocks, decodeTraceShard_encodeTraceShard objectKey hlen,
      by rw [sortTraceBlocks_of_sorted hsorted]; rfl⟩
  · rw [sortTraceBlocks_congr (nodup_of_traceSlotSteps h) (nodup_of_traceSlotSteps h') hsame]
  · rw [encodeProfileShard_eq_iff hcount hcount' hlen]
    exact and_congr_right fun _ => and_iff_left hpartitions
  · exact encodeProfileShard_congr
      (registered_congr (timeOrdered_of_steps h)
        (timeOrdered_of_steps h') hblocks) hseries hpartitions

/-- A profile block of one series. -/
def profileBlockAt (objectKey : String) (minTs maxTs : Int64) : BlockMeta where
  tenant := "t"
  objectKey := objectKey
  minTs := minTs
  maxTs := maxTs
  rowCount := 1
  fingerprints := [7]
  level := .ingested

/-- A shard with the later of two blocks added last. -/
def shardInOrder : ProfileShard :=
  addBlock {} "t" (profileBlockAt "b" 10 20)
    (addBlock {} "t" (profileBlockAt "a" 0 5) {})

theorem shard_payloads_canonical_inOrder :
    shardInOrder.blockTotal "t" < 2 ^ 32 ∧
      (encodeProfileShard "t" shardInOrder).length < 2 ^ 64 ∧
      republish "t" "k" (encodeProfileShard "t" shardInOrder) =
        .ok (encodeProfileShard "t" shardInOrder) := by
  have hcount : shardInOrder.blockTotal "t" < 2 ^ 32 := by decide +kernel
  have hlen : (encodeProfileShard "t" shardInOrder).length < 2 ^ 64 := by decide +kernel
  have hordered : (shardInOrder.blocksAt "t").TimeOrdered := by decide +kernel
  exact ⟨hcount, hlen, ((shard_payloads_canonical_iff "t" "k").2.2.1 shardInOrder hcount hlen).mpr
    hordered⟩

/-- The same blocks, with the earlier one added last. -/
def shardOutOfOrder : ProfileShard :=
  addBlock {} "t" (profileBlockAt "a" 0 5)
    (addBlock {} "t" (profileBlockAt "b" 10 20) {})

theorem index_addBlock_unnamed (objectKey : String) (minTs maxTs : Int64) (shard : ProfileShard) :
    (addBlock {} "t" (profileBlockAt objectKey minTs maxTs) shard).index =
      shard.index.addBlock (profileBlockAt objectKey minTs maxTs) := rfl

theorem blocksOf_addBlock_pair (left right : BlockMeta) (hleft : left.tenant = "t")
    (hright : right.tenant = "t") (hne : left.objectKey ≠ right.objectKey) :
    ((({} : Index).addBlock left).addBlock right).blocksOf "t" =
      (Registry.register (Registry.register ∅ left) right) := by
  have hem : (({} : Index).blocksOf "t") = ∅ := registry_empty
  have hf : (({} : Index).addBlock left).blocksOf "t" = Registry.register ∅ left := by
    rw [Index.blocksOf_addBlock Index.valid_empty, if_pos hleft, hem]
    rw [hleft, hem]
    intro r hr
    simp at hr
  rw [Index.blocksOf_addBlock (Index.valid_empty.addBlock left), if_pos hright, hf]
  rw [hright, hf]
  intro r hr
  rw [Registry.getElem?_register, if_neg hne] at hr
  simp at hr

theorem blocksOf_outOfOrder : shardOutOfOrder.index.blocksOf "t" =
    shardInOrder.index.blocksOf "t" := by
  rw [shardOutOfOrder, shardInOrder]
  simp only [index_addBlock_unnamed]
  rw [blocksOf_addBlock_pair _ _ rfl rfl (by decide), blocksOf_addBlock_pair _ _ rfl rfl
    (by decide)]
  refine ExtTreeMap.ext_getElem? fun key => ?_
  simp only [Registry.getElem?_register]
  by_cases ha : "a" = key
  · subst ha
    rfl
  · simp [profileBlockAt, ha]

/-- A late block leaves a shard that is published under another key when it is read and
put back, and under another key than the same blocks in their order. -/
theorem shard_payloads_late_block :
    republish "t" "k" (encodeProfileShard "t" shardOutOfOrder) ≠
        .ok (encodeProfileShard "t" shardOutOfOrder) ∧
      shardOutOfOrder.index.blocksOf "t" = shardInOrder.index.blocksOf "t" ∧
      shardOutOfOrder.partitions = shardInOrder.partitions ∧
      shardOutOfOrder.index.seriesOf "t" = shardInOrder.index.seriesOf "t" ∧
      encodeProfileShard "t" shardOutOfOrder ≠ encodeProfileShard "t" shardInOrder := by
  have hcount : shardOutOfOrder.blockTotal "t" < 2 ^ 32 := by decide +kernel
  have hlen : (encodeProfileShard "t" shardOutOfOrder).length < 2 ^ 64 := by decide +kernel
  have hordered : ¬ (shardOutOfOrder.blocksAt "t").TimeOrdered := by decide +kernel
  refine ⟨fun h => hordered ((republish_eq_iff "k" hcount hlen).mp h),
    blocksOf_outOfOrder, by decide +kernel, ?_, by decide +kernel⟩
  rw [shardOutOfOrder, shardInOrder]
  simp only [index_addBlock_unnamed, Index.seriesOf_addBlock]

end KrabkaO11y.Blockstore
