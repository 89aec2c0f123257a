import KrabkaO11y.Blockstore.Snapshot.MergeRun
import KrabkaO11y.Blockstore.TraceIndex.TraceMerge

/-!
Merging a writer into a trace manifest, as set algebra on block records.

A tenant of a manifest is placed (`TracePlaced`) when its shards hold each record in
exactly the shards of its span. `mergeTenantShards_placed_iff` says when the merge of a
contribution into a placed base is the placed manifest of the merged records: exactly
when every shard of a base record that a contribution replaces meets a touched shard.
-/

open Std (ExtTreeMap ExtTreeSet)

namespace KrabkaO11y.Blockstore

open TraceIndex TenantShardMerge TraceBlockStats TraceShards List

/-- The records a payload holds. -/
def TraceRecords (bytes : List UInt8) (blocks : List TraceBlockStats) : Prop :=
  readTraceShard.run bytes = .ok (blocks, [])

variable {blocks : List TraceBlockStats} {bytes : List UInt8}

theorem TraceRecords.decode (h : TraceRecords bytes blocks)
    (objectKey : String) :
    decodeTraceShard objectKey bytes = .ok blocks := by
  rw [decodeTraceShard, decodeShard, h]

theorem traceRecords_of_decode {objectKey : String}
    (h : decodeTraceShard objectKey bytes = .ok blocks) :
    TraceRecords bytes blocks := by
  simp only [decodeTraceShard, decodeShard] at h
  split at h
  · rename_i hrun
    rw [TraceRecords, hrun, Except.ok.inj h]
  all_goals cases h

theorem traceRecords_encode {tenant : String}
    (h : (encodeTraceShard tenant blocks).length ≤ maxVecLen) :
    TraceRecords (encodeTraceShard tenant blocks) blocks :=
  (decodes_traceShard (lt_of_le_of_lt h (by norm_num [maxVecLen]))).run

/-! ### Placed tenants -/

/-- The shards of a tenant hold `records`, one under each object key, each in exactly the
shards of its span. -/
structure TracePlaced (env : SnapshotEnv) (s : SnapshotStore) (manifest : SnapshotManifest)
    (tenant : String) (records : TraceBlockStats → Prop) : Prop where
  distinct : ((manifest.shardsOf tenant).map ManifestShard.range).Nodup
  content : ∀ shard ∈ manifest.shardsOf tenant, ∃ bytes blocks,
    Stored s (.shardPayload tenant shard.range shard.content) bytes ∧
    shard.content = env.contentHash bytes ∧ TraceRecords bytes blocks ∧
    (blocks.map objectKey).Nodup ∧
    ∀ x, x ∈ blocks ↔ records x ∧ shard.range ∈ x.ranges
  placed : ∀ x, records x → ∀ range ∈ x.ranges,
    ∃ shard ∈ manifest.shardsOf tenant, shard.range = range
  unique : ∀ x y, records x → records y → x.objectKey = y.objectKey → x = y

/-! ### What a save brings -/

section Contribution

variable (fingerprint : TraceFingerprint) (index : TraceIndex) (merge : TenantShardMerge)
  (records : TraceBlockStats → Prop)

/-- The records after the merge: the contributed ones, and the held ones that are neither
removed nor replaced. -/
def MergedRecords (x : TraceBlockStats) : Prop :=
  x ∈ index.contributed merge ∨
    (records x ∧ (∀ removal ∈ removals merge, x.objectKey ≠ removal.1) ∧
      ∀ block ∈ index.contributed merge, x.objectKey ≠ block.objectKey)

/-- Every removal pins the record the base holds under its key. -/
def RemovalsMatch : Prop :=
  ∀ removal ∈ removals merge, ∃ x, records x ∧ x.objectKey = removal.1 ∧
    removal.2 = ⟨fingerprint x, x.minTs, x.maxTs⟩

/-- Every shard of a base record that a contribution replaces meets a touched shard. -/
def ReplacedTouched : Prop :=
  ∀ block ∈ index.contributed merge, ∀ x, records x → x.objectKey = block.objectKey →
    ∀ range ∈ x.ranges, ∃ touched ∈ index.touched merge,
      range.overlaps touched.start touched.stop = true

/-- Payloads of merged records fit in memory, and none has the hash of other bytes that
the base names. -/
structure PayloadsFit (env : SnapshotEnv) (s : SnapshotStore) : Prop where
  capacity : ∀ blocks : List TraceBlockStats, (∀ x ∈ blocks, MergedRecords index merge records x) →
    (blocks.map objectKey).Nodup →
    (encodeTraceShard merge.tenant blocks).length ≤ maxVecLen
  noCollision : ∀ blocks : List TraceBlockStats,
    (∀ x ∈ blocks, MergedRecords index merge records x) →
    (blocks.map objectKey).Nodup →
    ∀ shard ∈ merge.base.shardsOf merge.tenant, ∀ bytes, Stored s (merge.payloadPath shard) bytes →
      env.contentHash (encodeTraceShard merge.tenant blocks) = env.contentHash bytes →
      encodeTraceShard merge.tenant blocks = bytes

end Contribution

namespace TraceIndex

variable {fingerprint : TraceFingerprint} {index : TraceIndex} {merge : TenantShardMerge}
  {records : TraceBlockStats → Prop} {env : SnapshotEnv} {s : SnapshotStore}

variable {x : TraceBlockStats}

theorem eq_of_contributed {y : TraceBlockStats} (hx : x ∈ index.contributed merge)
    (hy : y ∈ index.contributed merge) (h : x.objectKey = y.objectKey) : x = y :=
  inj_on_of_nodup_map nodup_contributed hx hy h

variable {range : IndexShardRange}

/-- The shards of a contributed block are touched. -/
theorem mem_touched_of_contributed (hx : x ∈ index.contributed merge)
    (h : range ∈ x.ranges) : range ∈ index.touched merge := by
  simp only [touched, touchedShardRanges, mem_flatMap, mem_append, mem_map]
  exact ⟨_, .inl ⟨x, hx, rfl⟩, h⟩

/-- The shards of a removal's span are touched. -/
theorem mem_touched_of_removal {removal : String × PendingRemoval}
    (hrem : removal ∈ removals merge)
    (h : range ∈ shardRangesForSpan removal.2.minTs removal.2.maxTs traceIndexShardWidth) :
    range ∈ index.touched merge := by
  simp only [touched, touchedShardRanges, mem_flatMap, mem_append, mem_map]
  exact ⟨_, .inr ⟨removal, hrem, rfl⟩, h⟩

variable {shard : ManifestShard}

/-- A shard at a touched range is touched: a shard's range meets itself. -/
theorem isTouched_of_mem (hr : shard.range ∈ x.ranges)
    (h : shard.range ∈ index.touched merge) :
    isTouched (index.touched merge) shard = true := by
  have hle := shardRangesForSpan_nonempty hr
  exact any_eq_true.mpr ⟨_, h, IndexShardRange.overlaps_iff.mpr ⟨hle, hle⟩⟩

/-! ### Reading the touched shards -/

variable {reads : List (ManifestShard × List UInt8)}

/-- Folding succeeds when every payload that was read holds records. -/
theorem exists_foldReads
    (h : ∀ read ∈ reads, ∃ blocks, TraceRecords read.2 blocks) (init : TraceShards) :
    ∃ final, merge.foldReads foldShard reads init = .ok final := by
  induction reads generalizing init with
  | nil => exact ⟨init, rfl⟩
  | cons read rest ih =>
    obtain ⟨⟨blocks, hbs⟩, hr⟩ := forall_mem_cons.mp h
    obtain ⟨final, hfi⟩ := ih hr (init.extend read.1.range blocks)
    refine ⟨final, ?_⟩
    rw [foldReads, foldlM_cons, Concurrent.except_bind_eq_ok]
    exact ⟨_, by rw [foldShard, hbs.decode]; rfl, hfi⟩

/-- Each range then has the records of the payload read for it, and a range nothing was
read for is as it was. -/
theorem recordsAt_foldReads
    (hdis : (reads.map fun read => read.1.range).Nodup) {init final : TraceShards}
    (hinit : ∀ read ∈ reads, init.recordsAt read.1.range = [])
    (hfold : merge.foldReads foldShard reads init = .ok final) :
    (∀ read ∈ reads, TraceRecords read.2 (final.recordsAt read.1.range)) ∧
      ∀ range, (∀ read ∈ reads, read.1.range ≠ range) →
        final.recordsAt range = init.recordsAt range := by
  induction reads generalizing init with
  | nil =>
    obtain rfl : init = final := Except.ok.inj hfold
    exact ⟨by simp, fun _ _ => rfl⟩
  | cons read rest ih =>
    obtain ⟨hre, hr⟩ := nodup_cons.mp hdis
    have ho : ∀ other ∈ rest, other.1.range ≠ read.1.range := fun other hmem heq =>
      hre (mem_map.mpr ⟨other, hmem, heq⟩)
    rw [foldReads, foldlM_cons, Concurrent.except_bind_eq_ok] at hfold
    obtain ⟨next, hs, hfold⟩ := hfold
    rw [foldShard, Concurrent.except_bind_eq_ok] at hs
    obtain ⟨blocks, hdec, hn⟩ := hs
    obtain rfl : init.extend read.1.range blocks = next := Except.ok.inj hn
    obtain ⟨hrd, hfm⟩ := ih hr (fun other hmem => by
      rw [recordsAt_extend, if_neg (ho other hmem)]
      exact hinit other (mem_cons_of_mem _ hmem)) hfold
    constructor
    · refine forall_mem_cons.mpr ⟨?_, hrd⟩
      rw [hfm _ ho, recordsAt_extend, if_pos rfl, hinit read (by simp)]
      exact traceRecords_of_decode hdec
    · intro range hne
      obtain ⟨hf, hne⟩ := forall_mem_cons.mp hne
      rw [hfm range hne, recordsAt_extend, if_neg (Ne.symm hf)]

/-- On the records of a matched base, being pinned is being under a removed key. -/
theorem isPinned_iff (hmatch : RemovalsMatch fingerprint merge records)
    (huni : ∀ x y, records x → records y → x.objectKey = y.objectKey → x = y) (hx : records x) :
    isPinned fingerprint (removals merge) x = false ↔
      ∀ removal ∈ removals merge, x.objectKey ≠ removal.1 := by
  rw [← Bool.not_eq_true, isPinned, any_eq_true, not_exists]
  refine forall_congr' fun removal => ?_
  rw [not_and]
  refine imp_congr_right fun hrem => ?_
  obtain ⟨y, hy, hkey, hpin⟩ := hmatch removal hrem
  constructor
  · intro h heq
    obtain rfl := huni x y hx hy (heq.trans hkey.symm)
    exact h (by simp [heq, hpin])
  · intro h hpi
    simp only [Bool.and_eq_true, decide_eq_true_eq] at hpi
    exact h hpi.1

/-! ### The merge of a placed base -/

/-- A placed base whose payloads can be read, with removals that match it and payloads
that fit. -/
structure MergeInput (env : SnapshotEnv) (s : SnapshotStore) (fingerprint : TraceFingerprint)
    (index : TraceIndex) (merge : TenantShardMerge) (records : TraceBlockStats → Prop) : Prop where
  base : TracePlaced env s merge.base merge.tenant records
  readable : ∀ shard ∈ merge.base.shardsOf merge.tenant, ∀ bytes,
    Stored s (merge.payloadPath shard) bytes → bytes.length ≤ merge.maxBytes.toNat
  removals : RemovalsMatch fingerprint merge records
  fit : PayloadsFit index merge records env s

/-- What the touched shards hold: their share of the records. -/
structure TouchedShards (s : SnapshotStore) (index : TraceIndex) (merge : TenantShardMerge)
    (records : TraceBlockStats → Prop) (reads : List (ManifestShard × List UInt8))
    (shards : TraceShards) : Prop where
  read : merge.Reads s (index.touched merge) (merge.base.shardsOf merge.tenant) reads
  folded : merge.foldReads foldShard reads ∅ = .ok shards
  mem_iff : ∀ range x, x ∈ shards.recordsAt range ↔ records x ∧ range ∈ x.ranges ∧
    ∃ shard ∈ merge.base.shardsOf merge.tenant,
      isTouched (index.touched merge) shard = true ∧ shard.range = range
  nodup : ∀ range, ((shards.recordsAt range).map objectKey).Nodup

theorem exists_touchedShards (h : MergeInput env s fingerprint index merge records) :
    ∃ reads shards, TouchedShards s index merge records reads shards := by
  have htch : ∀ shard ∈ (merge.base.shardsOf merge.tenant).filter
      (isTouched (index.touched merge)), ∃ bytes, Stored s (merge.payloadPath shard) bytes ∧
        ∃ blocks, TraceRecords bytes blocks ∧ (blocks.map objectKey).Nodup ∧
          ∀ x, x ∈ blocks ↔ records x ∧ shard.range ∈ x.ranges := by
    intro shard hsd
    obtain ⟨bytes, blocks, hsto, -, hbs⟩ :=
      h.base.content shard (mem_filter.mp hsd).1
    exact ⟨bytes, hsto, blocks, hbs⟩
  obtain ⟨reads, hfst, hrd⟩ := exists_reads htch
  have hba : ∀ read ∈ reads, read.1 ∈ merge.base.shardsOf merge.tenant ∧
      isTouched (index.touched merge) read.1 = true := by
    intro read hre
    exact mem_filter.mp (hfst ▸ mem_map_of_mem hre)
  have hdis : (reads.map fun read => read.1.range).Nodup := by
    have heq : (reads.map fun read => read.1.range) =
        ((merge.base.shardsOf merge.tenant).filter (isTouched (index.touched merge))).map
          ManifestShard.range := by
      rw [← hfst, map_map]
      rfl
    rw [heq]
    exact h.base.distinct.sublist (filter_sublist.map _)
  have hde : ∀ read ∈ reads, ∃ blocks, TraceRecords read.2 blocks := fun read hre =>
    (hrd read hre).2.imp fun _ hbs => hbs.1
  obtain ⟨shards, hfo⟩ : ∃ shards, merge.foldReads foldShard reads ∅ = .ok shards :=
    exists_foldReads hde ∅
  obtain ⟨hdec, hfm⟩ := recordsAt_foldReads hdis (by simp) hfo
  -- the records at the range of a read are the ones its payload holds
  have hrc : ∀ read ∈ reads, ((shards.recordsAt read.1.range).map
      objectKey).Nodup ∧ ∀ x, x ∈ shards.recordsAt read.1.range ↔
        records x ∧ read.1.range ∈ x.ranges := by
    intro read hre
    obtain ⟨-, blocks, hbs, hks, hmem⟩ := hrd read hre
    have heq : blocks = shards.recordsAt read.1.range := by
      have := hbs.symm.trans (hdec read hre)
      exact (Prod.mk.inj (Except.ok.inj this)).1
    rw [← heq]
    exact ⟨hks, hmem⟩
  refine ⟨reads, shards, ⟨hfst, fun read hre => (hrd read hre).1, fun read hre =>
    h.readable _ (hba read hre).1 _ (hrd read hre).1⟩, hfo, ?_, ?_⟩
  · intro range x
    constructor
    · intro hx
      by_cases hre : ∃ read ∈ reads, read.1.range = range
      · obtain ⟨read, hre, rfl⟩ := hre
        obtain ⟨hx, hr⟩ := ((hrc read hre).2 x).mp hx
        exact ⟨hx, hr, read.1, (hba read hre).1, (hba read hre).2, rfl⟩
      · rw [hfm range fun read hmem heq => hre ⟨read, hmem, heq⟩] at hx
        simp at hx
    · rintro ⟨hx, hr, shard, hsd, htch, rfl⟩
      have hmem : shard ∈ reads.map Prod.fst := hfst ▸ mem_filter.mpr ⟨hsd, htch⟩
      obtain ⟨read, hre, rfl⟩ := mem_map.mp hmem
      exact ((hrc read hre).2 x).mpr ⟨hx, hr⟩
  · intro range
    by_cases hre : ∃ read ∈ reads, read.1.range = range
    · obtain ⟨read, hre, rfl⟩ := hre
      exact (hrc read hre).1
    · rw [hfm range fun read hmem heq => hre ⟨read, hmem, heq⟩]
      simp

section Merged

variable {reads : List (ManifestShard × List UInt8)} {shards : TraceShards} {shard : ManifestShard}

section

variable (fingerprint : TraceFingerprint) (index : TraceIndex) (merge : TenantShardMerge)
  (env : SnapshotEnv) (s : SnapshotStore) (shards : TraceShards)

/-- What the merge publishes. -/
def publishedShards : List (IndexShardRange × List UInt8) :=
  (index.mergedShards fingerprint merge shards).encode merge.tenant

/-- The tenant's part of the next manifest. -/
def mergedManifest : SnapshotManifest :=
  (traceSnapshotKind fingerprint).tenantManifest env index merge
    (index.publishedShards fingerprint merge shards) .new

/-- The store after the merge. -/
def mergedStore : SnapshotStore :=
  merge.publishedStore env (index.publishedShards fingerprint merge shards) s

end

variable {x : TraceBlockStats}

/-- A merged record of an untouched range is one the base holds there. -/
theorem merged_untouched_iff (h : MergeInput env s fingerprint index merge records)
    (hrpl : ReplacedTouched index merge records)
    (hunt : isTouched (index.touched merge) shard = false)
    (hr : shard.range ∈ x.ranges) : MergedRecords index merge records x ↔ records x := by
  have hnot : ¬ isTouched (index.touched merge) shard = true := by simp [hunt]
  constructor
  · rintro (hx | ⟨hx, -⟩)
    · exact absurd (isTouched_of_mem hr (mem_touched_of_contributed hx hr)) hnot
    · exact hx
  · intro hx
    refine .inr ⟨hx, fun removal hrem heq => hnot ?_, fun block hb heq => hnot ?_⟩
    · obtain ⟨y, hy, hkey, hpin⟩ := h.removals removal hrem
      obtain rfl := h.base.unique x y hx hy (heq.trans hkey.symm)
      exact isTouched_of_mem hr (mem_touched_of_removal hrem (by rw [hpin]; exact hr))
    · exact any_eq_true.mpr (hrpl block hb x hx heq shard.range hr)

/-- The shards of the merged tenant. -/
theorem mem_shardsOf_merged (h : MergeInput env s fingerprint index merge records) :
    shard ∈ (index.mergedManifest fingerprint merge env shards).shardsOf merge.tenant ↔
      (shard ∈ merge.base.shardsOf merge.tenant ∧
        isTouched (index.touched merge) shard = false) ∨
      shard ∈ (index.publishedShards fingerprint merge shards).map
        (TenantShardMerge.shardOf env) :=
  SnapshotKind.mem_shardsOf_tenantManifest h.base.distinct SnapshotManifest.shardsOf_new

variable (h : MergeInput env s fingerprint index merge records)
  (ht : TouchedShards s index merge records reads shards)
include h ht

/-- The removals of a matched base go through. -/
theorem checkRemovals_touchedShards :
    shards.checkRemovals fingerprint (removals merge) = .ok () := by
  refine checkRemovals_ok fun removal hrem => ?_
  obtain ⟨x, hx, hkey, hpin⟩ := h.removals removal hrem
  -- a record has a shard, and the removal's span touches it
  obtain ⟨range, hr⟩ := x.exists_range
  obtain ⟨shard, hsd, rfl⟩ := h.base.placed x hx range hr
  have htch : isTouched (index.touched merge) shard = true :=
    isTouched_of_mem hr (mem_touched_of_removal hrem (by rw [hpin]; exact hr))
  refine isUnchanged_of_unique
    ((ht.mem_iff shard.range x).mpr ⟨hx, hr, shard, hsd, htch, rfl⟩) hkey ?_
  intro range y hy hyk
  obtain rfl := h.base.unique x y hx ((ht.mem_iff range y).mp hy).1 (hkey.trans hyk.symm)
  rw [hpin]

/-- The merged records of a range. -/
theorem mem_merged_iff :
    x ∈ (index.mergedShards fingerprint merge shards).recordsAt range ↔
      MergedRecords index merge records x ∧ range ∈ x.ranges ∧
        (x ∈ index.contributed merge ∨ ∃ shard ∈ merge.base.shardsOf merge.tenant,
          isTouched (index.touched merge) shard = true ∧ shard.range = range) := by
  rw [mem_recordsAt_mergedShards, ht.mem_iff]
  constructor
  · rintro (⟨⟨hx, hr, hsd⟩, hpin, hkey⟩ | ⟨hx, hr⟩)
    · exact ⟨.inr ⟨hx, (isPinned_iff h.removals h.base.unique hx).mp hpin, hkey⟩, hr,
        .inr hsd⟩
    · exact ⟨.inl hx, hr, .inl hx⟩
  · rintro ⟨hx | ⟨hx, hre, hkey⟩, hr, hwh⟩
    · exact .inr ⟨hx, hr⟩
    · rcases hwh with hctr | hsd
      · exact .inr ⟨hctr, hr⟩
      · exact .inl ⟨⟨hx, hr, hsd⟩, (isPinned_iff h.removals h.base.unique hx).mpr hre,
          hkey⟩

/-- The records that are published together are merged ones, one under each key. -/
theorem published_records (range : IndexShardRange) :
    (∀ x ∈ sortTraceBlocks ((index.mergedShards fingerprint merge shards).recordsAt range),
      MergedRecords index merge records x) ∧
    ((sortTraceBlocks ((index.mergedShards fingerprint merge shards).recordsAt range)).map
      objectKey).Nodup :=
  ⟨fun _ hx => ((mem_merged_iff h ht).mp (mem_sortTraceBlocks.mp hx)).1,
    ((mergeSort_perm _ _).map _).nodup_iff.mpr
      (nodup_recordsAt_mergedShards (ht.nodup range))⟩

theorem publishedShards_capacity :
    ∀ entry ∈ index.publishedShards fingerprint merge shards, entry.2.length ≤ maxVecLen := by
  rintro ⟨range, bytes⟩ he
  obtain ⟨-, rfl⟩ := mem_encode.mp he
  obtain ⟨hmrg, hnd⟩ := published_records h ht range
  exact h.fit.capacity _ hmrg hnd

/-- The merge of a placed base goes through. -/
theorem run_mergeTenantShards :
    env.run ((traceSnapshotKind fingerprint).mergeTenantShards index merge .new) s =
      (.ok (index.mergedManifest fingerprint merge env shards),
        index.mergedStore fingerprint merge env s shards) :=
  SnapshotKind.run_mergeTenantShards ht.read ht.folded
    (mergeShards_eq_ok.mpr ⟨checkRemovals_touchedShards h ht, rfl⟩)
    (publishedShards_capacity h ht)

variable {entry : IndexShardRange × List UInt8}

/-- A base shard at a published range was touched. -/
theorem isTouched_of_published
    (he : entry ∈ index.publishedShards fingerprint merge shards)
    (hshard : shard ∈ merge.base.shardsOf merge.tenant) (hr : shard.range = entry.1) :
    isTouched (index.touched merge) shard = true := by
  obtain ⟨range, bytes⟩ := entry
  obtain ⟨x, hx⟩ := exists_mem_of_ne_nil _ (mem_encode.mp he).1
  obtain ⟨-, hxr, hctr | ⟨held, hh, htch, hhe⟩⟩ :=
    (mem_merged_iff h ht).mp hx
  · have hmem : shard.range ∈ x.ranges := by rw [hr]; exact hxr
    exact isTouched_of_mem hmem (mem_touched_of_contributed hctr hmem)
  · obtain rfl := inj_on_of_nodup_map h.base.distinct hh hshard
      (hhe.trans hr.symm)
    exact htch

/-- The published shards are stored as they were encoded. -/
theorem stored_published
    (he : entry ∈ index.publishedShards fingerprint merge shards) :
    Stored (index.mergedStore fingerprint merge env s shards)
      (.shardPayload merge.tenant entry.1 (env.contentHash entry.2)) entry.2 := by
  refine stored_publishedStore nodup_encode he fun hna => ?_
  obtain ⟨shard, hsd, hsm⟩ := any_eq_true.mp hna
  simp only [Bool.and_eq_true, decide_eq_true_eq] at hsm
  obtain ⟨hr, hco⟩ := hsm
  obtain ⟨bytes, blocks, hsto, hha, -⟩ := h.base.content shard hsd
  obtain ⟨range, encoded⟩ := entry
  obtain ⟨-, rfl⟩ := mem_encode.mp he
  obtain ⟨hmrg, hnd⟩ := published_records h ht range
  have heq := h.fit.noCollision _ hmrg hnd shard hsd bytes hsto (hco.symm.trans hha)
  rw [hr, hco] at hsto
  rw [heq]
  rwa [heq] at hsto

/-- The untouched shards are stored as they were. -/
theorem stored_untouched
    (hshard : shard ∈ merge.base.shardsOf merge.tenant)
    (hunt : isTouched (index.touched merge) shard = false)
    (hsto : Stored s (merge.payloadPath shard) bytes) :
    Stored (index.mergedStore fingerprint merge env s shards)
      (merge.payloadPath shard) bytes := by
  obtain ⟨object, hobj, hval⟩ := hsto
  refine ⟨object, ?_, hval⟩
  rw [mergedStore, lookup_publishedStore_of_ne, hobj]
  intro entry he heq
  rw [isTouched_of_published h ht he hshard (SnapshotPath.shardPayload.inj heq).2.1]
    at hunt
  cases hunt

/-- The merge of a placed base is placed, when every replaced record is touched. -/
theorem placed_mergeTenantShards (hrpl : ReplacedTouched index merge records) :
    TracePlaced env (index.mergedStore fingerprint merge env s shards)
      (index.mergedManifest fingerprint merge env shards) merge.tenant
      (MergedRecords index merge records) := by
  constructor
  case distinct =>
    exact SnapshotKind.nodup_tenantManifest h.base.distinct nodup_encode
      (fun entry he shard hsd => isTouched_of_published h ht he hsd) SnapshotManifest.shardsOf_new
  case content =>
    intro shard hsd
    rcases (mem_shardsOf_merged h).mp hsd with ⟨hba, hunt⟩ | hpub
    · obtain ⟨bytes, blocks, hsto, hha, hbs, hks, hrc⟩ :=
        h.base.content shard hba
      refine ⟨bytes, blocks, stored_untouched h ht hba hunt hsto, hha, hbs, hks,
        fun x => (hrc x).trans (and_congr_left fun hr => ?_)⟩
      exact (merged_untouched_iff h hrpl hunt hr).symm
    · obtain ⟨⟨range, bytes⟩, he, rfl⟩ := mem_map.mp hpub
      have hsto := stored_published h ht he
      have hcap := publishedShards_capacity h ht _ he
      obtain ⟨hne, rfl⟩ := mem_encode.mp he
      refine ⟨_, _, hsto, rfl, traceRecords_encode hcap, (published_records h ht range).2,
        fun x => ?_⟩
      rw [mem_sortTraceBlocks, mem_merged_iff h ht]
      refine and_congr_right fun hx => ⟨fun hr => hr.1, fun hr => ⟨hr, ?_⟩⟩
      rcases hx with hx | ⟨hx, -⟩
      · exact .inl hx
      · obtain ⟨held, hh, hhe⟩ := h.base.placed x hx range hr
        exact .inr ⟨held, hh, isTouched_of_published h ht he hh hhe, hhe⟩
  case placed =>
    intro x hx range hr
    -- a record of the touched ranges is published, the others stay where they were
    have hpu : ∀ hwh : x ∈ index.contributed merge ∨
        ∃ shard ∈ merge.base.shardsOf merge.tenant,
          isTouched (index.touched merge) shard = true ∧ shard.range = range,
        ∃ shard ∈ (index.mergedManifest fingerprint merge env shards).shardsOf merge.tenant,
          shard.range = range := by
      intro hwh
      have hx' := (mem_merged_iff h ht).mpr ⟨hx, hr, hwh⟩
      exact ⟨_, (mem_shardsOf_merged h).mpr (.inr (mem_map_of_mem
        (mem_encode.mpr ⟨ne_nil_of_mem hx', rfl⟩))), rfl⟩
    rcases hx with hx | ⟨hx, -⟩
    · exact hpu (.inl hx)
    · obtain ⟨held, hh, hhe⟩ := h.base.placed x hx range hr
      cases htch : isTouched (index.touched merge) held with
      | true => exact hpu (.inr ⟨held, hh, htch, hhe⟩)
      | false => exact ⟨held, (mem_shardsOf_merged h).mpr (.inl ⟨hh, htch⟩), hhe⟩
  case unique =>
    rintro x y (hx | ⟨hx, -, hxk⟩) (hy | ⟨hy, -, hyk⟩) heq
    · exact eq_of_contributed hx hy heq
    · exact absurd heq.symm (hyk x hx)
    · exact absurd heq (hxk y hy)
    · exact h.base.unique x y hx hy heq

end Merged

/-- The merge goes through and leaves the merged records placed, with the untouched
shards under the names they had. -/
def MergesPlaced (env : SnapshotEnv) (s : SnapshotStore) (fingerprint : TraceFingerprint)
    (index : TraceIndex) (merge : TenantShardMerge) (records : TraceBlockStats → Prop) : Prop :=
  ∃ manifest s', env.run ((traceSnapshotKind fingerprint).mergeTenantShards index merge .new) s =
      (.ok manifest, s') ∧
    TracePlaced env s' manifest merge.tenant (MergedRecords index merge records) ∧
    ∀ shard ∈ merge.base.shardsOf merge.tenant, isTouched (index.touched merge) shard = false →
      shard ∈ manifest.shardsOf merge.tenant

/-- A placed merge leaves no shard of a replaced record untouched: a carried shard still
holds the replaced record. -/
theorem replacedTouched_of_mergesPlaced (h : MergeInput env s fingerprint index merge records)
    (merges : MergesPlaced env s fingerprint index merge records) :
    ReplacedTouched index merge records := by
  obtain ⟨reads, shards, ht⟩ := exists_touchedShards h
  obtain ⟨manifest, s', hrun, hpl, -⟩ := merges
  obtain ⟨hma, rfl⟩ := Prod.mk.inj ((run_mergeTenantShards h ht).symm.trans hrun)
  cases hma
  intro block hb x hx hkey range hr
  obtain ⟨shard, hsd, rfl⟩ := h.base.placed x hx range hr
  by_contra hunt
  have hfa : isTouched (index.touched merge) shard = false := by
    rw [← Bool.not_eq_true, isTouched, any_eq_true]
    exact hunt
  obtain ⟨bytes, blocks, hsto, -, hbs, -, hrc⟩ := h.base.content shard hsd
  obtain ⟨bytes', blocks', hsto', -, hbs', -, hrc'⟩ := hpl.content shard
    ((mem_shardsOf_merged h).mpr (.inl ⟨hsd, hfa⟩))
  obtain rfl := (stored_untouched h ht hsd hfa hsto).unique hsto'
  obtain rfl : blocks = blocks' :=
    (Prod.mk.inj (Except.ok.inj (hbs.symm.trans hbs'))).1
  have hmrg := ((hrc' x).mp ((hrc x).mpr ⟨hx, hr⟩)).1
  obtain rfl := hpl.unique x block hmrg (.inl hb) hkey
  have htch := isTouched_of_mem hr (mem_touched_of_contributed hb hr)
  rw [hfa] at htch
  cases htch

theorem mergesPlaced_of_replacedTouched (h : MergeInput env s fingerprint index merge records)
    (hrpl : ReplacedTouched index merge records) :
    MergesPlaced env s fingerprint index merge records := by
  obtain ⟨reads, shards, ht⟩ := exists_touchedShards h
  refine ⟨_, _, run_mergeTenantShards h ht, placed_mergeTenantShards h ht hrpl, ?_⟩
  exact fun shard hsd hunt => (mem_shardsOf_merged h).mpr (.inl ⟨hsd, hunt⟩)

/-- Merging a writer into a placed tenant is set algebra on the records exactly when every
shard of a replaced record is touched. -/
theorem mergeTenantShards_placed_iff (h : MergeInput env s fingerprint index merge records) :
    MergesPlaced env s fingerprint index merge records ↔ ReplacedTouched index merge records :=
  ⟨replacedTouched_of_mergesPlaced h, mergesPlaced_of_replacedTouched h⟩

end TraceIndex

/-! ### One block, registered again -/

section Sample

def sampleBloom : ShardedTraceBloom := ⟨[⟨[1], 64, 1⟩], rfl⟩

/-- A block `k` of one tick. -/
def sampleTraceBlock (tick : Int64) : TraceBlockStats where
  objectKey := "k"
  minTs := tick
  maxTs := tick
  bloom := sampleBloom
  tagNames := ∅
  tagValues := ∅
  rowCount := 1
  level := .ingested

/-- The payload of the first registration. -/
def samplePayload : List UInt8 := encodeTraceShard "t" [sampleTraceBlock 0]

def sampleEnv : SnapshotEnv where
  contentHash bytes := if bytes = samplePayload then "0" else "1"
  manifestSize _ := 0

def sampleRange : IndexShardRange := ⟨0, traceIndexShardWidth - 1⟩

def sampleStore : SnapshotStore :=
  ({} : SnapshotStore).write (.shardPayload "t" sampleRange "0") (.payload samplePayload)

/-- The index of a writer that registered `k` again at `tick`. -/
def sampleIndex (tick : Int64) : TraceIndex :=
  ({} : TraceIndex).addTraceBlock "t" (sampleTraceBlock tick)

def sampleMerge (tick : Int64) : TenantShardMerge where
  key := "idx"
  base := SnapshotManifest.new.insert "t" sampleRange "0"
  tenant := "t"
  removed := none
  contributeAll := false
  additions := (sampleIndex tick).pendingAdditions
  maxBytes := 1000

theorem sampleTraceBlock_ranges : (sampleTraceBlock 0).ranges = [sampleRange] := by decide +kernel

theorem sampleIndex_contributed (tick : Int64) :
    (sampleIndex tick).contributed (sampleMerge tick) = [sampleTraceBlock tick] := by
  simp [contributed, traceBlocks, sampleIndex, addTraceBlock,
    alterTenant, sampleMerge, TenantTraceIndex.push, TenantTraceIndex.retain,
    TenantTraceIndex.empty, contributes, PendingBlockAdditions.record,
    sampleTraceBlock]

theorem sampleMerge_shards (tick : Int64) : (sampleMerge tick).base.shardsOf "t" =
    [⟨sampleRange.start, sampleRange.stop, "0"⟩] := by
  simp [sampleMerge, SnapshotManifest.shardsOf_insert]

theorem sampleStore_stored :
    Stored sampleStore (.shardPayload "t" sampleRange "0") samplePayload := stored_write

theorem samplePayload_length : samplePayload.length ≤ 1000 := by decide +kernel

/-- The base is placed, holds `k` at its first tick, and has no removals to match. -/
theorem sampleInput (fingerprint : TraceFingerprint) (tick : Int64)
    (hcap : (encodeTraceShard "t" [sampleTraceBlock tick]).length ≤ 1000) :
    TraceIndex.MergeInput sampleEnv sampleStore fingerprint (sampleIndex tick) (sampleMerge tick)
      (· = sampleTraceBlock 0) := by
  have hsto : ∀ shard ∈ (sampleMerge tick).base.shardsOf (sampleMerge tick).tenant, ∀ bytes,
      Stored sampleStore ((sampleMerge tick).payloadPath shard) bytes → bytes = samplePayload := by
    intro shard hsd bytes h
    obtain rfl := mem_singleton.mp ((sampleMerge_shards tick) ▸ hsd)
    exact h.unique sampleStore_stored
  -- the only merged record is the new registration
  have hmrg : ∀ blocks : List TraceBlockStats, (∀ x ∈ blocks, MergedRecords (sampleIndex tick)
      (sampleMerge tick) (· = sampleTraceBlock 0) x) →
      (blocks.map objectKey).Nodup →
      blocks = [] ∨ blocks = [sampleTraceBlock tick] := by
    intro blocks hbs hnd
    have hall : ∀ x ∈ blocks, x = sampleTraceBlock tick := by
      intro x hx
      rcases hbs x hx with h | ⟨rfl, -, h⟩
      · exact mem_singleton.mp (sampleIndex_contributed tick ▸ h)
      · exact absurd rfl (h (sampleTraceBlock tick) (by simp [sampleIndex_contributed]))
    match blocks, hall, hnd with
    | [], _, _ => exact .inl rfl
    | [x], hall, _ => exact .inr (by rw [hall x (by simp)])
    | x :: y :: rest, hall, hnd =>
      rw [hall x (by simp), hall y (by simp)] at hnd
      simp at hnd
  constructor
  case base =>
    constructor
    case distinct =>
      change (((sampleMerge tick).base.shardsOf "t").map ManifestShard.range).Nodup
      rw [sampleMerge_shards]
      simp
    case content =>
      intro shard hsd
      obtain rfl := mem_singleton.mp ((sampleMerge_shards tick) ▸ hsd)
      refine ⟨samplePayload, [sampleTraceBlock 0], sampleStore_stored, by simp [sampleEnv],
        traceRecords_encode (samplePayload_length.trans (by norm_num [maxVecLen])), by simp, ?_⟩
      intro x
      constructor
      · intro hx
        obtain rfl := mem_singleton.mp hx
        exact ⟨rfl, by rw [sampleTraceBlock_ranges]; exact mem_singleton.mpr rfl⟩
      · rintro ⟨rfl, -⟩
        simp
    case placed =>
      rintro x rfl range hr
      rw [sampleTraceBlock_ranges, mem_singleton] at hr
      refine ⟨⟨sampleRange.start, sampleRange.stop, "0"⟩, ?_, hr.symm⟩
      exact (sampleMerge_shards tick).symm ▸ mem_singleton.mpr rfl
    case unique =>
      rintro x y rfl rfl -
      rfl
  case readable =>
    intro shard hsd bytes h
    rw [hsto shard hsd bytes h]
    exact samplePayload_length
  case removals =>
    rintro ⟨objectKey, removal⟩ hrem
    have hget := ExtTreeMap.mem_toList_iff_getElem?_eq_some.mp hrem
    simp [sampleMerge] at hget
  case fit =>
    constructor
    · intro blocks hbs hnd
      rcases hmrg blocks hbs hnd with rfl | rfl
      · exact (show (encodeTraceShard "t" []).length ≤ maxVecLen by decide +kernel)
      · exact hcap.trans (by norm_num [maxVecLen])
    · intro blocks _ _ shard hsd bytes h heq
      rw [hsto shard hsd bytes h] at heq ⊢
      by_contra hne
      simp only [sampleEnv, if_true, if_neg hne] at heq
      exact absurd heq (by decide)

/-- Registering `k` again five days later leaves the old record in the shard it was in:
no shard of the old span is touched, so the old shard is carried as it was. -/
theorem mergeTenantShards_keeps_stale_record :
    ∃ (env : SnapshotEnv) (s : SnapshotStore) (fingerprint : TraceFingerprint) (index : TraceIndex)
      (merge : TenantShardMerge) (records : TraceBlockStats → Prop),
      TraceIndex.MergeInput env s fingerprint index merge records ∧
        ¬ TraceIndex.MergesPlaced env s fingerprint index merge records := by
  refine ⟨_, _, fun _ => 0, _, _, _, sampleInput (fun _ => 0) (5 * traceIndexShardWidth)
    (by decide +kernel), fun hmerges => ?_⟩
  have hreplaced := replacedTouched_of_mergesPlaced
    (sampleInput (fun _ => 0) (5 * traceIndexShardWidth) (by decide +kernel)) hmerges
  have htouched := hreplaced (sampleTraceBlock (5 * traceIndexShardWidth))
    (by simp [sampleIndex_contributed]) (sampleTraceBlock 0) rfl rfl sampleRange
    (by simp [sampleTraceBlock_ranges])
  revert htouched
  decide +kernel

/-- An hour later both registrations share a shard, and the merge replaces the record. -/
theorem mergeTenantShards_placed_same_day :
    TraceIndex.MergesPlaced sampleEnv sampleStore (fun _ => 0)
      (sampleIndex 3600000000000) (sampleMerge 3600000000000) (· = sampleTraceBlock 0) := by
  refine (mergeTenantShards_placed_iff
    (sampleInput (fun _ => 0) 3600000000000 (by decide +kernel))).mpr ?_
  rintro block - x rfl - range hrange
  rw [sampleTraceBlock_ranges, mem_singleton] at hrange
  subst hrange
  decide +kernel

end Sample

end KrabkaO11y.Blockstore
