import KrabkaO11y.Blockstore.TraceIndex.TraceIndex

/-!
What merging one tenant's trace shards does to the records of each shard.

`TraceShards.recordsAt` is the records of one range; every step of the merge is a map on each
range's records, so the merged records of a range are the kept records of the range
followed by the contributed ones that belong to it.
-/

open Std (ExtTreeMap ExtTreeSet)

namespace KrabkaO11y.Blockstore

open TraceShards TraceBlockStats List

/-- The shards a record belongs to. -/
def TraceBlockStats.ranges (block : TraceBlockStats) : List IndexShardRange :=
  shardRangesForSpan block.minTs block.maxTs traceIndexShardWidth

/-- A record has a shard: the one its first tick lies in. -/
theorem TraceBlockStats.exists_range (block : TraceBlockStats) : ∃ range, range ∈ block.ranges := by
  have hti : InSpan block.minTs block.maxTs block.minTs := by
    unfold InSpan
    grind
  obtain ⟨range, hr, -⟩ := exists_shard_of_tick traceIndexShardWidth hti
  exact ⟨range, hr⟩

theorem mem_sortTraceBlocks {blocks : List TraceBlockStats} {block : TraceBlockStats} :
    block ∈ sortTraceBlocks blocks ↔ block ∈ blocks :=
  (mergeSort_perm _ _).mem_iff

namespace TraceShards

variable {shards : TraceShards} {range other : IndexShardRange} {block x : TraceBlockStats}
  {blocks : List TraceBlockStats} {fingerprint : TraceFingerprint}

/-- The records of one range. -/
def recordsAt (shards : TraceShards) (range : IndexShardRange) : List TraceBlockStats :=
  (shards[range]?).getD []

@[simp] theorem recordsAt_empty : recordsAt ∅ range = [] := by simp [recordsAt]

theorem recordsAt_extend : (shards.extend range blocks).recordsAt other =
    if other = range then shards.recordsAt range ++ blocks else shards.recordsAt other := by
  simp only [recordsAt, extend, ExtTreeMap.getElem?_alter, Std.compare_eq_iff_eq]
  split
  · rename_i h; subst h; simp
  · rename_i h; rw [if_neg (Ne.symm h)]

@[simp] theorem recordsAt_retain {keep : TraceBlockStats → Bool} :
    (shards.retain keep).recordsAt range = (shards.recordsAt range).filter keep := by
  simp only [recordsAt, retain, ExtTreeMap.getElem?_map]
  cases shards[range]? <;> rfl

/-- A shard is listed exactly when it is there, with its records. -/
theorem mem_records : x ∈ shards.records ↔ ∃ range, x ∈ shards.recordsAt range := by
  simp only [records, mem_flatMap, Prod.exists, ExtTreeMap.mem_toList_iff_getElem?_eq_some,
    recordsAt]
  constructor
  · rintro ⟨range, blocks, hget, hx⟩
    exact ⟨range, by rwa [hget]⟩
  · rintro ⟨range, hx⟩
    cases hget : shards[range]? with
    | none => simp [hget] at hx
    | some blocks => exact ⟨range, blocks, hget, by simpa [hget] using hx⟩

/-! ### Removals -/

/-- Whether some removal pinned itself to this record. -/
def isPinned (fingerprint : TraceFingerprint) (removals : List (String × PendingRemoval))
    (block : TraceBlockStats) : Bool :=
  removals.any fun (objectKey, removal) =>
    block.objectKey = objectKey && fingerprint block = removal.fingerprint

variable {removals : List (String × PendingRemoval)}

theorem recordsAt_applyRemovals :
    (shards.applyRemovals fingerprint removals).recordsAt range =
      (shards.recordsAt range).filter fun block => !isPinned fingerprint removals block := by
  induction removals generalizing shards with
  | nil => simp [applyRemovals, isPinned]
  | cons removal rest ih =>
    have hs : shards.applyRemovals fingerprint (removal :: rest) =
        (shards.retain fun block => block.objectKey ≠ removal.1 ||
          fingerprint block ≠ removal.2.fingerprint).applyRemovals fingerprint rest := rfl
    rw [hs, ih, recordsAt_retain, filter_filter]
    refine filter_congr fun block _ => ?_
    simp only [isPinned, any_cons]
    grind

/-- A removal goes through when the records under its key are the ones it pinned. -/
theorem checkRemovals_ok
    (h : ∀ removal ∈ removals, shards.isUnchanged fingerprint removal.1 removal.2 = true) :
    shards.checkRemovals fingerprint removals = .ok () := by
  induction removals with
  | nil => rfl
  | cons removal rest ih =>
    rw [checkRemovals, if_pos (h removal (by simp))]
    exact ih fun r hr => h r (mem_cons_of_mem _ hr)

/-- One record under the key, with the pinned fingerprint, is enough. -/
theorem isUnchanged_of_unique {objectKey : String} {removal : PendingRemoval}
    (hmem : x ∈ shards.recordsAt range) (hkey : x.objectKey = objectKey)
    (hpin : ∀ range, ∀ y ∈ shards.recordsAt range, y.objectKey = objectKey →
      fingerprint y = removal.fingerprint) :
    shards.isUnchanged fingerprint objectKey removal = true := by
  have hsm : (shards.records.find? fun block => block.objectKey = objectKey).isSome := by
    rw [find?_isSome]
    exact ⟨x, mem_records.mpr ⟨range, hmem⟩, by simpa using hkey⟩
  obtain ⟨y, hy⟩ := Option.isSome_iff_exists.mp hsm
  obtain ⟨r, hr⟩ := mem_records.mp (mem_of_find?_eq_some hy)
  rw [isUnchanged, hy]
  simpa using hpin r y hr (by simpa using find?_some hy)

/-! ### Contributions -/

/-- One contribution to the records of one range. -/
def contributeAt (range : IndexShardRange) (held : List TraceBlockStats)
    (block : TraceBlockStats) : List TraceBlockStats :=
  (held.filter fun held => held.objectKey ≠ block.objectKey) ++
    if range ∈ block.ranges then [block] else []

theorem recordsAt_foldl_extend {ranges : List IndexShardRange} (h : ranges.Nodup) :
    (ranges.foldl (fun shards range => extend shards range [block]) shards).recordsAt range =
      shards.recordsAt range ++ if range ∈ ranges then [block] else [] := by
  induction ranges generalizing shards with
  | nil => simp
  | cons first rest ih =>
    obtain ⟨hf, hr⟩ := nodup_cons.mp h
    rw [foldl_cons, ih hr, recordsAt_extend]
    by_cases heq : range = first
    · subst heq
      simp [hf]
    · simp [heq]

theorem recordsAt_contribute :
    (shards.contribute block).recordsAt range =
      contributeAt range (shards.recordsAt range) block := by
  rw [contribute, recordsAt_foldl_extend nodup_shardRangesForSpan, recordsAt_retain]
  rfl

theorem recordsAt_foldl_contribute : (blocks.foldl contribute shards).recordsAt range =
    blocks.foldl (contributeAt range) (shards.recordsAt range) := by
  induction blocks generalizing shards with
  | nil => rfl
  | cons first rest ih => rw [foldl_cons, ih, recordsAt_contribute, foldl_cons]

variable {held : List TraceBlockStats}

theorem mem_contributeAt : x ∈ contributeAt range held block ↔
    (x ∈ held ∧ x.objectKey ≠ block.objectKey) ∨ (x = block ∧ range ∈ block.ranges) := by
  rw [contributeAt, mem_append, mem_filter]
  by_cases h : range ∈ block.ranges <;> simp [h]

/-- The records of a range: the held ones under other keys, and the contributed ones. -/
theorem mem_foldl_contributeAt (hdis : (blocks.map objectKey).Nodup) :
    x ∈ blocks.foldl (contributeAt range) held ↔
      (x ∈ held ∧ ∀ block ∈ blocks, x.objectKey ≠ block.objectKey) ∨
        (x ∈ blocks ∧ range ∈ x.ranges) := by
  induction blocks generalizing held with
  | nil => simp
  | cons first rest ih =>
    obtain ⟨hf, hre⟩ := nodup_cons.mp hdis
    have ho : ∀ block ∈ rest, first.objectKey ≠ block.objectKey := fun block hb heq =>
      hf (heq ▸ mem_map_of_mem hb)
    rw [foldl_cons, ih hre, mem_contributeAt]
    constructor
    · rintro (⟨⟨hx, hne⟩ | ⟨rfl, hr⟩, hall⟩ | ⟨hx, hr⟩)
      · exact .inl ⟨hx, forall_mem_cons.mpr ⟨hne, hall⟩⟩
      · exact .inr ⟨by simp, hr⟩
      · exact .inr ⟨mem_cons_of_mem _ hx, hr⟩
    · rintro (⟨hx, hall⟩ | ⟨hx, hr⟩)
      · obtain ⟨hne, hall⟩ := forall_mem_cons.mp hall
        exact .inl ⟨.inl ⟨hx, hne⟩, hall⟩
      · rcases mem_cons.mp hx with rfl | hx
        · exact .inl ⟨.inr ⟨rfl, hr⟩, ho⟩
        · exact .inr ⟨hx, hr⟩

theorem nodup_contributeAt (h : (held.map objectKey).Nodup) :
    ((contributeAt range held block).map objectKey).Nodup := by
  rw [contributeAt, map_append, nodup_append]
  refine ⟨h.sublist (filter_sublist.map _), by split <;> simp, ?_⟩
  intro key hkey other ho
  obtain ⟨y, hy, rfl⟩ := mem_map.mp hkey
  split at ho
  · obtain rfl := mem_singleton.mp ho
    simpa using (mem_filter.mp hy).2
  · simp at ho

theorem nodup_foldl_contributeAt (h : (held.map objectKey).Nodup) :
    ((blocks.foldl (contributeAt range) held).map objectKey).Nodup := by
  induction blocks generalizing held with
  | nil => exact h
  | cons first rest ih => exact ih (nodup_contributeAt h)

/-! ### Payloads -/

/-- A payload is published for each range that still has records. -/
theorem mem_encode {tenant : String} {bytes : List UInt8} :
    (range, bytes) ∈ shards.encode tenant ↔
      shards.recordsAt range ≠ [] ∧ bytes = encodeTraceShard tenant
        (sortTraceBlocks (shards.recordsAt range)) := by
  simp only [encode, mem_map, mem_filter, Prod.exists,
    ExtTreeMap.mem_toList_iff_getElem?_eq_some, recordsAt, Prod.mk.injEq]
  constructor
  · rintro ⟨r, blocks, ⟨hget, hne⟩, rfl, rfl⟩
    rw [hget]
    exact ⟨by simpa using hne, rfl⟩
  · rintro ⟨hne, rfl⟩
    cases hget : shards[range]? with
    | none => simp [hget] at hne
    | some blocks => exact ⟨range, blocks, ⟨hget, by simpa [hget] using hne⟩, rfl, rfl⟩

theorem nodup_encode {tenant : String} : ((shards.encode tenant).map Prod.fst).Nodup := by
  have hfst : (shards.encode tenant).map Prod.fst =
      (shards.toList.filter fun entry => !entry.2.isEmpty).map Prod.fst := by
    rw [encode, map_map]
    rfl
  have hks : (shards.toList.map Prod.fst).Nodup := by
    rw [ExtTreeMap.map_fst_toList_eq_keys]
    exact Collections.nodup_of_ordered shards.ordered_keys
  rw [hfst]
  exact hks.sublist (filter_sublist.map _)

end TraceShards

/-! ### The whole merge -/

namespace TraceIndex

variable {fingerprint : TraceFingerprint} {index : TraceIndex} {merge : TenantShardMerge}
  {shards : TraceShards} {range : IndexShardRange} {x : TraceBlockStats}

theorem nodup_contributed :
    ((index.contributed merge).map objectKey).Nodup := by
  have hall : ((index.traceBlocks merge.tenant).map objectKey).Nodup := by
    rw [traceBlocks]
    cases index.tenants[merge.tenant]? with
    | none => simp
    | some held => exact held.distinct
  exact hall.sublist (filter_sublist.map _)

/-- The touched shards after a merge. -/
def mergedShards (fingerprint : TraceFingerprint) (index : TraceIndex) (merge : TenantShardMerge)
    (shards : TraceShards) : TraceShards :=
  (index.contributed merge).foldl contribute
    (shards.applyRemovals fingerprint (removals merge))

/-- A merge that goes through publishes the merged shards. -/
theorem mergeShards_eq_ok {published : List (IndexShardRange × List UInt8)} :
    index.mergeShards fingerprint merge shards = .ok published ↔
      shards.checkRemovals fingerprint (removals merge) = .ok () ∧
        published = (index.mergedShards fingerprint merge shards).encode merge.tenant := by
  rw [mergeShards, Concurrent.except_bind_eq_ok]
  constructor
  · rintro ⟨⟨⟩, hck, heq⟩
    exact ⟨hck, (Except.ok.inj heq).symm⟩
  · rintro ⟨hck, rfl⟩
    exact ⟨(), hck, rfl⟩

theorem mem_recordsAt_mergedShards :
    x ∈ (index.mergedShards fingerprint merge shards).recordsAt range ↔
      (x ∈ shards.recordsAt range ∧
        isPinned fingerprint (removals merge) x = false ∧
        ∀ block ∈ index.contributed merge, x.objectKey ≠ block.objectKey) ∨
      (x ∈ index.contributed merge ∧ range ∈ x.ranges) := by
  rw [mergedShards, recordsAt_foldl_contribute,
    mem_foldl_contributeAt nodup_contributed, recordsAt_applyRemovals,
    mem_filter, Bool.not_eq_true', and_assoc]

theorem nodup_recordsAt_mergedShards
    (h : ((shards.recordsAt range).map objectKey).Nodup) :
    (((index.mergedShards fingerprint merge shards).recordsAt range).map
      objectKey).Nodup := by
  rw [mergedShards, recordsAt_foldl_contribute, recordsAt_applyRemovals]
  exact nodup_foldl_contributeAt (h.sublist (filter_sublist.map _))

end TraceIndex

end KrabkaO11y.Blockstore
