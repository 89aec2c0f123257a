import KrabkaO11y.Blockstore.Index.BlockListRefinement

/-!
Cutting a block list into shards (`BlockList::shard_local`), and its records as a map.

`registry l` is the map from object key to record that `l` holds. Inserting a block
registers it, unless an unequal set under its key collides with it in size and digest; a
shard of some live ordinals holds the records of those ordinals.
-/

open Std (ExtTreeMap ExtTreeSet)

namespace KrabkaO11y.Blockstore

open Registration List

namespace BlockList

/-- The postings restricted to some ordinals. -/
def postingsFor (l : BlockList) (ordinals : ExtTreeSet Nat) :
    ExtTreeMap SeriesFingerprint (List Nat) :=
  l.postings.filterMap fun _ held =>
    let kept := held.filter ordinals.contains
    if kept.isEmpty then none else some kept

/-- The blocks behind some ordinals and their postings, renumbered from zero. -/
def shardLocal (l : BlockList) (ordinals : ExtTreeSet Nat) : BlockListRepr where
  entries := ordinals.toList.map l.entry
  postings := (l.postingsFor ordinals).map fun _ held =>
    held.filterMap fun ordinal => ordinals.toList.idxOf? ordinal

/-- The records that a list holds, by object key. -/
def registry (l : BlockList) : Registry := l.byKey.map fun _ ordinal => l.record ordinal

/-- The structures agree, and every posting list is in order. A list that was read back may
repeat an ordinal. -/
structure Ordered (l : BlockList) : Prop where
  wf : Wf l
  ordered : PairwisePostings (· ≤ ·) l.postings

/-- The list is one that insertions and removals make: no ordinal is repeated. -/
structure Valid (l : BlockList) : Prop where
  wf : Wf l
  ascending : PairwisePostings (· < ·) l.postings

theorem Valid.ordered {l : BlockList} (h : Valid l) : Ordered l :=
  ⟨h.wf, fun fp ordinals hheld => (h.ascending fp ordinals hheld).imp Nat.le_of_lt⟩

/-- Every live entry records the size and the digest of its own set. -/
def Exact (l : BlockList) : Prop :=
  ∀ ordinal ∈ l.order, l.registration ordinal = .ofRecord (l.record ordinal)

variable {l : BlockList} {m : Registry} {block : BlockMeta}

theorem getElem?_registry (key : String) : l.registry[key]? = (l.byKey[key]?).map l.record := by
  rw [registry, ExtTreeMap.getElem?_map]

/-- A list refines the records that it holds. -/
theorem Wf.refines (hw : Wf l) : Refines l l.registry := ⟨hw, getElem?_registry⟩

/-- There is one registry that a list refines. -/
theorem Refines.eq_registry (h : Refines l m) : m = l.registry :=
  ExtTreeMap.ext_getElem? fun key => by rw [h.lookup, getElem?_registry]

/-- The records of a list are those of its live ordinals. -/
theorem Wf.registry_eq_some (hw : Wf l) {key : String} {r : BlockRecord} :
    l.registry[key]? = some r ↔ ∃ o ∈ l.order, l.record o = r ∧ (l.entry o).objectKey = key := by
  rw [getElem?_registry, Option.map_eq_some_iff]
  constructor
  · rintro ⟨o, ho, hr⟩
    exact ⟨o, ((hw.byKey_iff key o).mp ho).1, hr, ((hw.byKey_iff key o).mp ho).2⟩
  · rintro ⟨o, ho, hr, hkey⟩
    exact ⟨o, (hw.byKey_iff key o).mpr ⟨ho, hkey⟩, hr⟩

theorem valid_empty : Valid {} := ⟨empty_wf, fun fp os hos => by simp at hos⟩

theorem exact_empty : Exact {} := by simp [Exact]

theorem registry_empty : registry {} = ∅ :=
  ExtTreeMap.ext_getElem? fun key => by simp [getElem?_registry]

/-! ### The listing -/

section Listing

variable {tenant : String}

/-- A walk names no key twice. -/
theorem Wf.nodup_metas (hw : Wf l) : ((l.metas tenant).map (·.objectKey)).Nodup := by
  have hkeys : (l.metas tenant).map (·.objectKey) = l.order.map fun o => (l.entry o).objectKey := by
    rw [metas, map_map]
    rfl
  rw [hkeys]
  exact hw.nodup_keys

end Listing

/-! ### The operations -/

section Operations

/-- The live registrations and that of a block. -/
def registrationsWith (l : BlockList) (block : BlockMeta) : List Registration :=
  .ofMeta block :: l.order.map l.registration

theorem registered_with : Registered l (l.registrationsWith block) := fun _ ho =>
  mem_cons_of_mem _ (mem_map_of_mem ho)

theorem registered_own : Registered l (l.order.map l.registration) := fun _ ho =>
  mem_map_of_mem ho

/-- A list whose registrations are all exact is exact. -/
theorem exact_of_registered {rs : List Registration} (hr : Registered l rs)
    (h : ∀ r ∈ rs, ∃ record, r = .ofRecord record) : Exact l := by
  intro o ho
  obtain ⟨record, hrec⟩ := h _ (hr o ho)
  have hset := congrArg fingerprints hrec
  have hsize := congrArg size hrec
  have hdig := congrArg digest hrec
  simp only [registration, ofRecord] at hset hsize hdig
  simp only [registration, ofRecord, BlockList.record, hset, hsize, hdig]

/-- The registrations of an exact list are those of records. -/
theorem Exact.exists_record (h : Exact l) :
    ∀ r ∈ l.order.map l.registration, ∃ record, r = .ofRecord record := by
  intro r hr
  obtain ⟨o, ho, rfl⟩ := mem_map.mp hr
  exact ⟨_, h o ho⟩

theorem insert_valid (hv : Valid l) (block : BlockMeta) : Valid (l.insert block) :=
  ⟨(hv.wf.refines.insert_wf registered_with (mem_cons_self ..)).1,
    insert_pairwise orderInvariant_lt hv.wf hv.ascending⟩

/-- An inserted entry records the size and digest of the set it is given. -/
theorem insert_exact (hv : Valid l) (hexact : Exact l) (block : BlockMeta) :
    Exact (l.insert block) := by
  have registered : Registered (l.insert block) (l.registrationsWith block) :=
    (hv.wf.refines.insert_wf registered_with (mem_cons_self ..)).2
  refine exact_of_registered registered ?_
  rw [registrationsWith, forall_mem_cons]
  exact ⟨⟨.ofMeta block, rfl⟩, hexact.exists_record⟩

/-- No record under the block's key collides with it. -/
def Admits (m : Registry) (block : BlockMeta) : Prop :=
  ∀ r, m[block.objectKey]? = some r →
    UInt64.ofNat r.fingerprints.size =
      UInt64.ofNat (ExtTreeSet.ofList block.fingerprints).size →
    fingerprintSetDigest r.fingerprints.toList =
      fingerprintSetDigest (ExtTreeSet.ofList block.fingerprints).toList →
    r.fingerprints = ExtTreeSet.ofList block.fingerprints

/-- In an exact list a new block can collide only with the record under its key. -/
theorem noCollision_with (hv : Valid l) (hexact : Exact l) (admits : Admits l.registry block) :
    NoCollision (l.registrationsWith block) := by
  have hown : ∀ o ∈ l.order, (l.registration o).objectKey = block.objectKey →
      (l.registration o).size = (ofMeta block).size →
      (l.registration o).digest = (ofMeta block).digest →
      (l.registration o).fingerprints = (ofMeta block).fingerprints := by
    intro o ho hkey hsize hdig
    rw [hexact o ho] at hsize hdig ⊢
    exact admits (l.record o) (hv.wf.registry_eq_some.mpr ⟨o, ho, rfl, hkey⟩) hsize hdig
  intro r hr r' hr' hkey hsize hdig
  rcases mem_cons.mp hr with rfl | hr <;> rcases mem_cons.mp hr' with rfl | hr'
  · rfl
  · obtain ⟨o, ho, rfl⟩ := mem_map.mp hr'
    exact (hown o ho hkey.symm hsize.symm hdig.symm).symm
  · obtain ⟨o, ho, rfl⟩ := mem_map.mp hr
    exact hown o ho hkey hsize hdig
  · obtain ⟨o, ho, rfl⟩ := mem_map.mp hr
    obtain ⟨o', ho', rfl⟩ := mem_map.mp hr'
    have hone := (hv.wf.byKey_iff (l.entry o').objectKey o).mpr ⟨ho, hkey⟩
    rw [(hv.wf.byKey_iff _ o').mpr ⟨ho', rfl⟩] at hone
    rw [Option.some.inj hone]

/-- Inserting a block that collides with nothing registers it. -/
theorem insert_registry (hv : Valid l) (hexact : Exact l) (admits : Admits l.registry block) :
    (l.insert block).registry = l.registry.register block :=
  (hv.wf.refines.insert registered_with (noCollision_with hv hexact admits)
    (mem_cons_self ..)).eq_registry.symm

theorem remove_valid (hv : Valid l) (keys : ExtTreeSet String) : Valid (l.remove keys).2 :=
  ⟨(hv.wf.refines.remove registered_own keys).1.wf,
    remove_pairwise orderInvariant_lt hv.wf hv.ascending keys⟩

theorem remove_exact (hv : Valid l) (hexact : Exact l) (keys : ExtTreeSet String) :
    Exact (l.remove keys).2 :=
  exact_of_registered (hv.wf.refines.remove registered_own keys).2 hexact.exists_record

end Operations

/-! ### Shards -/

section Shards

variable {ordinals : ExtTreeSet Nat}

/-- Without repetition, an index and its element determine each other. -/
theorem idxOf?_eq_some {kept : List Nat} (h : kept.Nodup) {o i : Nat} :
    kept.idxOf? o = some i ↔ kept[i]? = some o := by
  rw [idxOf?_eq_some_iff]
  constructor
  · rintro ⟨hi, heq, -⟩
    rw [getElem?_eq_getElem hi, heq]
  · intro ho
    obtain ⟨hi, heq⟩ := List.getElem?_eq_some_iff.mp ho
    refine ⟨hi, heq, fun j hj same => ?_⟩
    have := (getElem_inj h).mp (same.trans heq.symm)
    omega

/-- A shard is a cut along its ordinals. -/
theorem shardLocal_cut (l : BlockList) (ordinals : ExtTreeSet Nat) :
    CutAlong l ordinals.toList (l.shardLocal ordinals) where
  nodup := Collections.nodup_toList ordinals
  entries := rfl
  postings fp i := by
    simp only [shardLocal, postingsFor, ExtTreeMap.getElem?_map, ExtTreeMap.getElem?_filterMap']
    cases l.postings[fp]? with
    | none => simp
    | some os =>
      simp only [Option.bind_some]
      have hmem : i ∈ (os.filter ordinals.contains).filterMap
          (fun o => ordinals.toList.idxOf? o) ↔ ∃ o ∈ os, ordinals.toList[i]? = some o := by
        simp only [mem_filterMap, mem_filter,
          idxOf?_eq_some (Collections.nodup_toList ordinals)]
        refine exists_congr fun o => ⟨fun h => ⟨h.1.1, h.2⟩, fun h => ⟨⟨h.1, ?_⟩, h.2⟩⟩
        rw [ExtTreeSet.contains_iff_mem, ← ExtTreeSet.mem_toList]
        exact mem_of_getElem? h.2
      split
      · rename_i empty
        rw [List.isEmpty_iff.mp empty] at hmem
        simpa using hmem
      · simpa using hmem

/-- A list that is read back in order is in order. -/
theorem ofRepr_ordered {repr : BlockListRepr} (bounded : repr.Bounded)
    (ordered : PairwisePostings (· ≤ ·) repr.postings) : Ordered (ofRepr repr) :=
  ⟨ofRepr_wf bounded, by rwa [ofRepr, rebuildDerived_postings]⟩

/-- Renumbering a shard keeps how its posting lists are ordered. -/
theorem shardLocal_pairwise {r : Nat → Nat → Prop} (invariant : OrderInvariant r)
    (h : PairwisePostings r l.postings) (ordinals : ExtTreeSet Nat) :
    PairwisePostings r (l.shardLocal ordinals).postings := by
  intro fp os hos
  simp only [shardLocal, postingsFor, ExtTreeMap.getElem?_map,
    ExtTreeMap.getElem?_filterMap'] at hos
  obtain ⟨kept, hk, rfl⟩ := Option.map_eq_some_iff.mp hos
  obtain ⟨held, hh, hfil⟩ := Option.bind_eq_some_iff.mp hk
  split at hfil <;> cases hfil
  have hlst : ordinals.toList.Pairwise (· < ·) :=
    ordinals.ordered_toList.imp Nat.compare_eq_lt.mp
  exact invariant.renumber hlst
    (fun o i hi => (idxOf?_eq_some (Collections.nodup_toList ordinals)).mp hi)
    ((h fp held hh).filter _)

/-- A shard of live ordinals holds their records. -/
theorem shardLocal_registry (hw : Wf l) (live : ∀ o ∈ ordinals, o ∈ l.order) (key : String) :
    (ofRepr (l.shardLocal ordinals)).registry[key]? =
      (l.byKey[key]?).bind fun o => if o ∈ ordinals then some (l.record o) else none := by
  have hcut := shardLocal_cut l ordinals
  have hbyKey := hcut.getElem?_byKey hw (fun o ho => live o (ExtTreeSet.mem_toList.mp ho)) key
  rw [getElem?_registry]
  cases shard : (ofRepr (l.shardLocal ordinals)).byKey[key]? with
  | some i =>
    obtain ⟨o, ho, hkey⟩ := (hbyKey i).mp shard
    have hmem : o ∈ ordinals := ExtTreeSet.mem_toList.mp (mem_of_getElem? ho)
    rw [(hw.byKey_iff key o).mpr ⟨live o hmem, hkey⟩, Option.map_some, Option.bind_some,
      if_pos hmem, ofRepr_record, hcut.record ho]
  | none =>
    cases hkey : l.byKey[key]? with
    | none => rfl
    | some o =>
      rw [Option.map_none, Option.bind_some, if_neg]
      intro hmem
      obtain ⟨i, hi⟩ := mem_iff_getElem?.mp (ExtTreeSet.mem_toList.mpr hmem)
      rw [(hbyKey i).mpr ⟨o, hi, ((hw.byKey_iff key o).mp hkey).2⟩] at shard
      cases shard

end Shards

end BlockList

theorem Registry.getElem?_register {m : Registry} (block : BlockMeta) (key : String) :
    (m.register block)[key]? = if block.objectKey = key then some (.ofMeta block) else m[key]? := by
  simp only [register, ExtTreeMap.getElem?_insert, Std.compare_eq_iff_eq]

end KrabkaO11y.Blockstore
