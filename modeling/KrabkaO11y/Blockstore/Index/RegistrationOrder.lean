import KrabkaO11y.Collections.Sorted
import KrabkaO11y.Blockstore.Index.IndexShard

/-!
The order in which a block list writes its blocks.

A shard payload lists the live blocks by ordinal, so in the order they were registered,
while `metas` lists them by time. `registered l` is the first of the two lists. It
determines the payload of a whole list (`whole_eq`), it survives a renumbering and a
decoding, and a list rebuilt from `metas` has it in time order (`registered_rebuild`).
-/

open Std (ExtTreeMap ExtTreeSet)

namespace KrabkaO11y.Blockstore

open List

/-- The entry that a registered record is written with. -/
def BlockRecord.entry (r : BlockRecord) : BlockEntry where
  objectKey := r.objectKey
  minTs := r.minTs
  maxTs := r.maxTs
  rowCount := r.rowCount
  fingerprintCount := UInt64.ofNat r.fingerprints.size
  fingerprintDigest := fingerprintSetDigest r.fingerprints.toList
  level := r.level

namespace BlockList

/-- The live records in the order of their ordinals. -/
def registered (l : BlockList) : List BlockRecord := l.liveOrdinals.map l.record

/-- The blocks of a whole list as a shard holds them. -/
def whole (l : BlockList) : BlockListRepr :=
  l.shardLocal (ExtTreeSet.ofList (l.ordinalsOverlapping Int64.minValue Int64.maxValue))

variable {l l' : BlockList} {block : BlockMeta}

theorem mem_registered (hw : Wf l) {r : BlockRecord} :
    r ∈ l.registered ↔ ∃ key : String, l.registry[key]? = some r := by
  rw [registered, mem_map]
  simp only [mem_liveOrdinals hw, hw.registry_eq_some]
  constructor
  · rintro ⟨o, ho, rfl⟩
    exact ⟨_, o, ho, rfl, rfl⟩
  · rintro ⟨key, o, ho, rfl, -⟩
    exact ⟨o, ho, rfl⟩

theorem liveOrdinals_ascending : l.liveOrdinals.Pairwise (· < ·) :=
  pairwise_lt_range.filter _

/-! ### The payload of a whole list -/

theorem toList_ordinals (hw : Wf l) :
    (ExtTreeSet.ofList (l.ordinalsOverlapping Int64.minValue Int64.maxValue)).toList =
      l.liveOrdinals := by
  refine Collections.toList_eq_of_ordered
    (liveOrdinals_ascending.imp Nat.compare_eq_lt.mpr) fun o => ?_
  have hall := @TenantIndex.mem_ordinalsOverlapping_all { blocks := l } hw o
  exact (mem_liveOrdinals hw).trans hall.symm

theorem whole_cut (hw : Wf l) : CutAlong l l.liveOrdinals l.whole := by
  rw [← toList_ordinals hw]
  exact shardLocal_cut l _

theorem entry_eq (hexact : Exact l) {o : Nat} (ho : o ∈ l.order) :
    l.entry o = (l.record o).entry := by
  have hsz := congrArg Registration.size (hexact o ho)
  have hdig := congrArg Registration.digest (hexact o ho)
  simp only [registration, Registration.ofRecord] at hsz hdig
  simp only [BlockRecord.entry, ← hsz, ← hdig]
  rfl

theorem whole_entries (hw : Wf l) (hexact : Exact l) :
    l.whole.entries = l.registered.map BlockRecord.entry := by
  rw [(whole_cut hw).entries, registered, map_map]
  exact map_congr_left fun o ho => entry_eq hexact ((mem_liveOrdinals hw).mp ho)

theorem mem_whole_postings (hw : Wf l) (fp : SeriesFingerprint) (i : Nat) :
    (∃ os, l.whole.postings[fp]? = some os ∧ i ∈ os) ↔
      ∃ r, l.registered[i]? = some r ∧ fp ∈ r.fingerprints := by
  rw [(whole_cut hw).postings]
  simp only [registered, getElem?_map, Option.map_eq_some_iff]
  constructor
  · rintro ⟨os, o, hos, ho, hi⟩
    exact ⟨_, ⟨o, hi, rfl⟩, mem_fingerprintsOf.mpr ⟨os, hos, ho⟩⟩
  · rintro ⟨_, ⟨o, hi, rfl⟩, hfp⟩
    obtain ⟨os, hos, ho⟩ := mem_fingerprintsOf.mp hfp
    exact ⟨os, o, hos, ho, hi⟩

theorem whole_postings_ne_nil {fp : SeriesFingerprint} {os : List Nat}
    (h : l.whole.postings[fp]? = some os) : os ≠ [] := by
  simp only [whole, shardLocal, postingsFor, ExtTreeMap.getElem?_map,
    ExtTreeMap.getElem?_filterMap'] at h
  obtain ⟨kept, hk, rfl⟩ := Option.map_eq_some_iff.mp h
  obtain ⟨held, -, hfil⟩ := Option.bind_eq_some_iff.mp hk
  split at hfil <;> cases hfil
  rename_i hne
  obtain ⟨o, ho⟩ := exists_mem_of_ne_nil _ (fun h => hne (List.isEmpty_iff.mpr h))
  have hmem := ExtTreeSet.mem_toList.mpr (ExtTreeSet.contains_iff_mem.mp (mem_filter.mp ho).2)
  obtain ⟨i, hi⟩ := mem_iff_getElem?.mp hmem
  exact ne_nil_of_mem (mem_filterMap.mpr
    ⟨o, ho, (idxOf?_eq_some (Collections.nodup_toList _)).mpr hi⟩)

/-- Ascending posting lists, none of them empty, are determined by what they name. -/
theorem postings_ext {left right : ExtTreeMap SeriesFingerprint (List Nat)}
    (hleft : PairwisePostings (· < ·) left) (hr : PairwisePostings (· < ·) right)
    (hne : ∀ (fp : SeriesFingerprint) (os : List Nat), left[fp]? = some os → os ≠ [])
    (hne' : ∀ (fp : SeriesFingerprint) (os : List Nat), right[fp]? = some os → os ≠ [])
    (h : ∀ (fp : SeriesFingerprint) (i : Nat),
      (∃ os, left[fp]? = some os ∧ i ∈ os) ↔ ∃ os, right[fp]? = some os ∧ i ∈ os) :
    left = right := by
  have hw : ∀ {m m' : ExtTreeMap SeriesFingerprint (List Nat)},
      PairwisePostings (· < ·) m → PairwisePostings (· < ·) m' →
      (∀ (fp : SeriesFingerprint) (os : List Nat), m[fp]? = some os → os ≠ []) →
      (∀ (fp : SeriesFingerprint) (i : Nat),
        (∃ os, m[fp]? = some os ∧ i ∈ os) ↔ ∃ os, m'[fp]? = some os ∧ i ∈ os) →
      ∀ (fp : SeriesFingerprint) (os : List Nat), m[fp]? = some os → m'[fp]? = some os := by
    intro m m' hm hm' hne h fp os hos
    obtain ⟨i, hi⟩ := exists_mem_of_ne_nil os (hne fp os hos)
    obtain ⟨os', hos', -⟩ := (h fp i).mp ⟨os, hos, hi⟩
    have hsm : os = os' := by
      refine Collections.eq_of_ordered ((hm fp os hos).imp Nat.compare_eq_lt.mpr)
        ((hm' fp os' hos').imp Nat.compare_eq_lt.mpr) fun j => ?_
      simpa [hos, hos'] using h fp j
    rw [hos', hsm]
  exact Collections.eq_of_within (hw hleft hr hne h)
    (hw hr hleft hne' fun fp i => (h fp i).symm)

/-- Two lists that registered the same records in the same order are written alike. -/
theorem whole_eq (hv : Valid l) (hexact : Exact l) (hv' : Valid l') (exact' : Exact l')
    (h : l.registered = l'.registered) : l.whole = l'.whole := by
  have hen : l.whole.entries = l'.whole.entries := by
    rw [whole_entries hv.wf hexact, whole_entries hv'.wf exact', h]
  have hpo : l.whole.postings = l'.whole.postings := by
    refine postings_ext (shardLocal_pairwise orderInvariant_lt hv.ascending _)
      (shardLocal_pairwise orderInvariant_lt hv'.ascending _)
      (fun _ _ => whole_postings_ne_nil) (fun _ _ => whole_postings_ne_nil) fun fp i => ?_
    rw [mem_whole_postings hv.wf, mem_whole_postings hv'.wf, h]
  calc l.whole = ⟨l.whole.entries, l.whole.postings⟩ := rfl
    _ = l'.whole := by rw [hen, hpo]

/-! ### Decoding and renumbering -/

/-- A list decoded from a cut has registered the kept records in the order of the cut. -/
theorem CutAlong.registered {kept : List Nat} {repr : BlockListRepr} (h : CutAlong l kept repr)
    (hw : Wf l) (live : ∀ o ∈ kept, o ∈ l.order) :
    (ofRepr repr).registered = kept.map l.record := by
  have hwf : Wf (ofRepr repr) := ofRepr_wf h.bounded
  have hlen : (ofRepr repr).entries.length = kept.length := by
    rw [ofRepr, rebuildDerived_entries, h.entries, length_map]
  -- every kept entry wins its key, so every ordinal of the decoded list is live
  have hall : (ofRepr repr).liveOrdinals = List.range kept.length := by
    rw [liveOrdinals, hlen, filter_eq_self]
    intro i hi
    rw [← hwf.mem_order]
    have hk := getElem?_eq_getElem (mem_range.mp hi)
    exact ((hwf.byKey_iff _ i).mp ((h.getElem?_byKey hw live _ i).mpr ⟨_, hk, rfl⟩)).1
  rw [BlockList.registered, hall]
  refine ext_getElem (by simp) fun i hi hi' => ?_
  rw [getElem_map, getElem_map, getElem_range, ofRepr_record]
  exact h.record (getElem?_eq_getElem _)

/-- Decoding the payload of a list gives a list that registered the same records. -/
theorem registered_ofRepr_whole (hw : Wf l) : (ofRepr l.whole).registered = l.registered :=
  (whole_cut hw).registered hw fun _ ho => (mem_liveOrdinals hw).mp ho

theorem registered_compactIfMostlyDead (hw : Wf l) :
    l.compactIfMostlyDead.registered = l.registered := by
  unfold compactIfMostlyDead
  split
  · rw [compacted_eq, compactedRepr_cut.registered hw fun _ ho => (mem_liveOrdinals hw).mp ho]
    rfl
  · rfl

/-! ### Edits -/

/-- A block under a free key is registered last. -/
theorem registered_insert (hw : Wf l) (free : l.byKey[block.objectKey]? = none) :
    (l.insert block).registered = l.registered ++ [.ofMeta block] := by
  rw [insert]
  simp only [free, append]
  set fps := ExtTreeSet.ofList block.fingerprints
  set digest := fingerprintSetDigest fps.toList
  have hat : Wf ((l.push block fps digest).attach l.entries.length) :=
    (push_lacks hw free).attach_wf
  have hrec : ∀ o, ((l.push block fps digest).attach l.entries.length).record o =
      (l.push block fps digest).record o := fun o => record_congr (by simp) (by simp)
  have hnew : (l.push block fps digest).record l.entries.length = .ofMeta block := by
    simp only [record, push_entry_new, push_fingerprints_new hw]
    rfl
  have hlv : ((l.push block fps digest).attach l.entries.length).liveOrdinals =
      l.liveOrdinals ++ [l.entries.length] := by
    simp only [liveOrdinals, attach_entries, attach_live, push, length_append,
      length_singleton, range_succ, filter_append]
    congr 1
    · refine filter_congr fun o ho => ?_
      rw [getD_append _ _ _ _ (by rw [hw.live_len]; exact mem_range.mp ho)]
    · simp [← hw.live_len]
  rw [registered_compactIfMostlyDead hat, registered, hlv, map_append, map_singleton,
    hrec, hnew]
  congr 1
  refine map_congr_left fun o ho => ?_
  rw [hrec, push_record_old (hw.lt ((mem_liveOrdinals hw).mp ho))]

theorem registered_retire (hw : Wf l) {o : Nat} (ho : o ∈ l.order) :
    (l.retire o).2.registered.Sublist l.registered := by
  obtain ⟨-, hen, hpo, hlv, -⟩ := retire_fields hw ho
  have hrec : (l.retire o).2.record = l.record := funext fun o' =>
    record_congr (by rw [entry, hen]; rfl) (by rw [hpo])
  rw [registered, registered, hrec]
  refine List.Sublist.map _ ?_
  rw [liveOrdinals, liveOrdinals, hen, hlv]
  refine monotone_filter_right _ fun o' ho' => ?_
  rw [getD_set (by rw [hw.live_len]; exact hw.lt ho)] at ho'
  split at ho'
  · cases ho'
  · exact ho'

theorem registered_removeKey (hw : Wf l) (n : Nat) (key : String) :
    (removeKey (n, l) key).2.registered.Sublist l.registered := by
  simp only [removeKey]
  cases hkey : l.byKey[key]? with
  | none => exact List.Sublist.refl _
  | some o => exact registered_retire hw ((hw.byKey_iff _ _).mp hkey).1

/-- Removals keep the order of what is left. -/
theorem registered_remove (hw : Wf l) (keys : ExtTreeSet String) :
    (l.remove keys).2.registered.Sublist l.registered := by
  have hfo : ∀ (ks : List String) (n : Nat) (l : BlockList), Wf l →
      Wf (ks.foldl removeKey (n, l)).2 ∧
        (ks.foldl removeKey (n, l)).2.registered.Sublist l.registered := by
    intro ks
    induction ks with
    | nil => intro n l hw; exact ⟨hw, List.Sublist.refl _⟩
    | cons key ks ih =>
      intro n l hw
      obtain ⟨hl, hsub⟩ := ih _ _ (removeKey_wf hw n key)
      exact ⟨hl, hsub.trans (registered_removeKey hw n key)⟩
  obtain ⟨hl, hsub⟩ := hfo keys.toList 0 l hw
  rw [remove, registered_compactIfMostlyDead hl]
  exact hsub

/-- Blocks of distinct free keys are registered in the order they come. -/
theorem registered_foldl_insert (blocks : List BlockMeta) : ∀ {l : BlockList}, Valid l →
    (∀ block ∈ blocks, l.byKey[block.objectKey]? = none) →
    (blocks.map (·.objectKey)).Nodup →
    (blocks.foldl insert l).registered = l.registered ++ blocks.map .ofMeta := by
  induction blocks with
  | nil => intro l _ _ _; simp
  | cons block blocks ih =>
    intro l hv hfe hnd
    rw [map_cons, nodup_cons] at hnd
    have hb := hfe block (mem_cons_self ..)
    -- a key that is free and not the block's own stays free
    have hr : ∀ other ∈ blocks, (l.insert block).byKey[other.objectKey]? = none := by
      intro other hot
      by_contra hh
      obtain ⟨o, ho⟩ := Option.ne_none_iff_exists'.mp hh
      have hrec : (l.insert block).record o ∈ (l.insert block).registered :=
        (mem_registered (insert_valid hv block).wf).mpr
          ⟨other.objectKey, by rw [getElem?_registry, ho]; rfl⟩
      have hkey : ((l.insert block).record o).objectKey = other.objectKey :=
        (((insert_valid hv block).wf.byKey_iff _ _).mp ho).2
      rw [registered_insert hv.wf hb, mem_append, mem_singleton] at hrec
      rcases hrec with hold | hnew
      · obtain ⟨key, hre⟩ := (mem_registered hv.wf).mp hold
        have hnm := hv.wf.refines.key_eq hre
        rw [← hnm, hkey, getElem?_registry, hfe other (mem_cons_of_mem _ hot)] at hre
        cases hre
      · rw [hnew] at hkey
        exact hnd.1 (mem_map.mpr ⟨other, hot, hkey.symm⟩)
    rw [foldl_cons, ih (insert_valid hv block) hr hnd.2, registered_insert hv.wf hb,
      append_assoc, map_cons, singleton_append]

/-- A list rebuilt from the listing of another has registered its records in time order. -/
theorem registered_rebuild (hw : Wf l) (tenant : String) :
    ((l.metas tenant).foldl insert {}).registered = l.order.map l.record := by
  rw [registered_foldl_insert _ valid_empty (fun _ _ => by simp) hw.nodup_metas,
    hw.refines.metas_records, hw.refines.walk]
  rfl

/-! ### Registration in time order -/

/-- Each block was registered after the ones that come before it in time. -/
def TimeOrdered (l : BlockList) : Prop :=
  l.registered.Pairwise fun left right => left.orderKey < right.orderKey
deriving Decidable

theorem timeOrdered_iff (hw : Wf l) : l.TimeOrdered ↔ l.registered = l.order.map l.record := by
  constructor
  · intro h
    refine Collections.eq_of_pairwise_key_lt h hw.sorted_records fun r => ?_
    rw [registered, mem_map, mem_map]
    simp only [mem_liveOrdinals hw]
  · intro h
    rw [TimeOrdered, h]
    exact hw.sorted_records

end BlockList

end KrabkaO11y.Blockstore
