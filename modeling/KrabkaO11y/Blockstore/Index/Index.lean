import KrabkaO11y.Blockstore.Index.Series
import KrabkaO11y.Blockstore.Index.BlockListShards

/-!
The multi-tenant series index (`index/index_type.rs`).

Each operation is read through two maps per tenant: the labels of its series
(`seriesOf`) and the records of its blocks (`blocksOf`).
-/

open Std (ExtTreeMap ExtTreeSet)

namespace KrabkaO11y.Blockstore

structure Index where
  tenants : ExtTreeMap String TenantIndex := ∅

namespace Index

/-- Edits one tenant, an empty one when the index does not hold it. -/
def alterTenant (index : Index) (tenant : String) (edit : TenantIndex → TenantIndex) : Index :=
  ⟨index.tenants.alter tenant fun held => some (edit (held.getD {}))⟩

def addSeries (index : Index) (tenant : String) (fp : SeriesFingerprint) (labels : Labels) :
    Index :=
  index.alterTenant tenant fun held => held.addSeries fp labels

def addBlock (index : Index) (block : BlockMeta) : Index :=
  index.alterTenant block.tenant fun held => { held with blocks := held.blocks.insert block }

/-- Folds one tenant of another index in: its series, then its blocks. -/
def mergeTenant (index : Index) (tenant : String) (other : TenantIndex) : Index :=
  (other.blocks.metas tenant).foldl addBlock
    (other.series.toList.foldl (fun index series => index.addSeries tenant series.1 series.2) index)

/-- Folds every series and block of `other` into this index. -/
def mergeFrom (index other : Index) : Index :=
  other.tenants.toList.foldl (fun index entry => index.mergeTenant entry.1 entry.2) index

/-- Replaces the `removeKeys` blocks with `add`. -/
def replaceBlocks (index : Index) (tenant : String) (removeKeys : List String)
    (add : List BlockMeta) : Index :=
  index.alterTenant tenant fun held =>
    let kept := (held.blocks.remove (ExtTreeSet.ofList removeKeys)).2
    { held with blocks := add.foldl BlockList.insert kept }

/-- The labels behind one fingerprint. -/
def seriesLabels (index : Index) (tenant : String) (fp : SeriesFingerprint) : Option Labels :=
  (index.tenants[tenant]?).bind fun held => held.series[fp]?

end Index

/-! ### Tenants -/

/-- The postings are derived, and the block list is one that insertions and removals
make. -/
structure TenantIndex.Valid (held : TenantIndex) : Prop where
  labelled : held.Labelled
  blocks : held.blocks.Valid
  exact : held.blocks.Exact

/-- The postings are derived, and the block list may be one that was read back. -/
structure TenantIndex.Ordered (held : TenantIndex) : Prop where
  labelled : held.Labelled
  blocks : held.blocks.Ordered

namespace TenantIndex

variable {held : TenantIndex}

theorem Valid.ordered (h : held.Valid) : held.Ordered := ⟨h.labelled, h.blocks.ordered⟩

theorem valid_empty : Valid {} := ⟨labelled_empty, BlockList.valid_empty, BlockList.exact_empty⟩

theorem Valid.addSeries (h : held.Valid) (fp : SeriesFingerprint) (labels : Labels) :
    (held.addSeries fp labels).Valid where
  labelled := h.labelled.addSeries
  blocks := by rw [addSeries_blocks]; exact h.blocks
  exact := by rw [addSeries_blocks]; exact h.exact

/-- Editing the blocks alone. -/
theorem Valid.withBlocks (h : held.Valid) {blocks : BlockList} (hv : blocks.Valid)
    (he : blocks.Exact) : ({ held with blocks := blocks } : TenantIndex).Valid :=
  ⟨⟨h.labelled.posted, h.labelled.inhabited, h.labelled.named, h.labelled.valued,
    h.labelled.valuesNamed⟩, hv, he⟩

theorem Valid.insert (h : held.Valid) (block : BlockMeta) :
    ({ held with blocks := held.blocks.insert block } : TenantIndex).Valid :=
  h.withBlocks (BlockList.insert_valid h.blocks block)
    (BlockList.insert_exact h.blocks h.exact block)

end TenantIndex

namespace Index

/-- The tenant, an empty one when the index does not hold it. -/
def tenantOf (index : Index) (tenant : String) : TenantIndex := index.tenants[tenant]?.getD {}

def seriesOf (index : Index) (tenant : String) : ExtTreeMap SeriesFingerprint Labels :=
  (index.tenantOf tenant).series

def blocksOf (index : Index) (tenant : String) : Registry := (index.tenantOf tenant).blocks.registry

/-- Every tenant is valid. -/
def Valid (index : Index) : Prop :=
  ∀ (tenant : String) (held : TenantIndex), index.tenants[tenant]? = some held → held.Valid

variable {index : Index} {tenant : String}

theorem Valid.tenantOf (h : index.Valid) (tenant : String) : (index.tenantOf tenant).Valid := by
  rw [Index.tenantOf]
  cases hh : index.tenants[tenant]? with
  | none => exact TenantIndex.valid_empty
  | some held => exact h tenant held hh

theorem valid_empty : Valid {} := fun tenant held h => by simp at h

theorem tenantOf_alterTenant (edit : TenantIndex → TenantIndex) (other : String) :
    (index.alterTenant tenant edit).tenantOf other =
      if tenant = other then edit (index.tenantOf tenant) else index.tenantOf other := by
  simp only [tenantOf, alterTenant, ExtTreeMap.getElem?_alter, Std.compare_eq_iff_eq]
  split
  · rfl
  · rfl

theorem Valid.alterTenant (h : index.Valid) {edit : TenantIndex → TenantIndex}
    (hedit : (edit (index.tenantOf tenant)).Valid) : (index.alterTenant tenant edit).Valid := by
  intro other held hh
  simp only [Index.alterTenant, ExtTreeMap.getElem?_alter, Std.compare_eq_iff_eq] at hh
  split at hh
  · cases hh
    exact hedit
  · exact h other held hh

theorem Valid.addSeries (h : index.Valid) (fp : SeriesFingerprint) (labels : Labels) :
    (index.addSeries tenant fp labels).Valid :=
  h.alterTenant ((h.tenantOf tenant).addSeries fp labels)

theorem Valid.addBlock (h : index.Valid) (block : BlockMeta) : (index.addBlock block).Valid :=
  h.alterTenant ((h.tenantOf block.tenant).insert block)

theorem getElem?_seriesOf_addSeries (fp : SeriesFingerprint) (labels : Labels) (other : String)
    (fp' : SeriesFingerprint) :
    ((index.addSeries tenant fp labels).seriesOf other)[fp']? =
      ((index.seriesOf other)[fp']?).or
        (if tenant = other ∧ fp' = fp then some labels else none) := by
  rw [seriesOf, addSeries, tenantOf_alterTenant]
  split
  · rename_i heq
    subst heq
    rw [TenantIndex.getElem?_addSeries_series]
    simp [seriesOf]
  · rename_i hne
    simp [hne, seriesOf]

@[simp] theorem seriesOf_addBlock (block : BlockMeta) (other : String) :
    (index.addBlock block).seriesOf other = index.seriesOf other := by
  rw [seriesOf, addBlock, tenantOf_alterTenant]
  split
  · rename_i heq
    rw [heq, seriesOf]
  · rfl

theorem blocksOf_addBlock (h : index.Valid) {block : BlockMeta}
    (admits : BlockList.Admits (index.blocksOf block.tenant) block) (other : String) :
    (index.addBlock block).blocksOf other =
      if block.tenant = other then (index.blocksOf other).register block
      else index.blocksOf other := by
  rw [blocksOf, addBlock, tenantOf_alterTenant]
  split
  · rename_i heq
    subst heq
    exact BlockList.insert_registry (h.tenantOf _).blocks (h.tenantOf _).exact admits
  · rfl

/-! ### Merging -/

section Merge

/-- The index of one tenant, as a shard decodes to it. -/
def single (tenant : String) (held : TenantIndex) : Index :=
  ⟨(∅ : ExtTreeMap String TenantIndex).insert tenant held⟩

theorem mergeFrom_single (index : Index) (tenant : String) (held : TenantIndex) :
    index.mergeFrom (single tenant held) = index.mergeTenant tenant held := by
  have hls : (single tenant held).tenants.toList = [(tenant, held)] := rfl
  rw [mergeFrom, hls]
  rfl

theorem Valid.foldl_addSeries (series : List (SeriesFingerprint × Labels)) :
    ∀ {index : Index}, index.Valid →
      (series.foldl (fun index s => index.addSeries tenant s.1 s.2) index).Valid := by
  induction series with
  | nil => intro index h; exact h
  | cons s series ih => intro index h; exact ih (h.addSeries s.1 s.2)

theorem Valid.foldl_addBlock (blocks : List BlockMeta) :
    ∀ {index : Index}, index.Valid → (blocks.foldl Index.addBlock index).Valid := by
  induction blocks with
  | nil => intro index h; exact h
  | cons block blocks ih => intro index h; exact ih (h.addBlock block)

theorem Valid.replaceBlocks (h : index.Valid) (tenant : String) (removeKeys : List String)
    (add : List BlockMeta) : (index.replaceBlocks tenant removeKeys add).Valid := by
  apply h.alterTenant
  have hh := h.tenantOf tenant
  have hfo : ∀ (add : List BlockMeta) {blocks : BlockList}, blocks.Valid → blocks.Exact →
      (add.foldl BlockList.insert blocks).Valid ∧ (add.foldl BlockList.insert blocks).Exact := by
    intro add
    induction add with
    | nil => intro blocks hv he; exact ⟨hv, he⟩
    | cons block add ih =>
      intro blocks hv he
      exact ih (BlockList.insert_valid hv block) (BlockList.insert_exact hv he block)
  obtain ⟨hv, he⟩ := hfo add (BlockList.remove_valid hh.blocks (ExtTreeSet.ofList removeKeys))
    (BlockList.remove_exact hh.blocks hh.exact _)
  exact hh.withBlocks hv he

theorem Valid.mergeTenant (h : index.Valid) (tenant : String) (other : TenantIndex) :
    (index.mergeTenant tenant other).Valid :=
  Valid.foldl_addBlock _ (Valid.foldl_addSeries _ h)

theorem Valid.mergeFrom (h : index.Valid) (other : Index) : (index.mergeFrom other).Valid := by
  have hfo : ∀ (entries : List (String × TenantIndex)) {index : Index}, index.Valid →
      (entries.foldl (fun index entry => index.mergeTenant entry.1 entry.2) index).Valid := by
    intro entries
    induction entries with
    | nil => intro index h; exact h
    | cons entry entries ih => intro index h; exact ih (h.mergeTenant entry.1 entry.2)
  exact hfo _ h

@[simp] theorem seriesOf_foldl_addBlock (blocks : List BlockMeta) (other : String) :
    ∀ index : Index, (blocks.foldl addBlock index).seriesOf other = index.seriesOf other := by
  induction blocks with
  | nil => intro index; rfl
  | cons block blocks ih => intro index; rw [List.foldl_cons, ih, seriesOf_addBlock]

theorem getElem?_seriesOf_foldl_addSeries (other : String) (fp : SeriesFingerprint)
    (series : List (SeriesFingerprint × Labels)) : ∀ index : Index,
      ((series.foldl (fun index s => index.addSeries tenant s.1 s.2) index).seriesOf other)[fp]? =
        ((index.seriesOf other)[fp]?).or (if tenant = other then
          (series.find? fun s => decide (s.1 = fp)).map Prod.snd else none) := by
  induction series with
  | nil => intro index; simp
  | cons s series ih =>
    intro index
    rw [List.foldl_cons, ih, getElem?_seriesOf_addSeries, Option.or_assoc]
    congr 1
    by_cases hten : tenant = other
    · by_cases hfp : s.1 = fp
      · simp [hten, hfp]
      · simp [hten, hfp, Ne.symm hfp]
    · simp [hten]

theorem find?_toList (series : ExtTreeMap SeriesFingerprint Labels) (fp : SeriesFingerprint) :
    (series.toList.find? fun s => decide (s.1 = fp)).map Prod.snd = series[fp]? := by
  cases hfi : series.toList.find? fun s => decide (s.1 = fp) with
  | none =>
    cases hfp : series[fp]? with
    | none => rfl
    | some labels =>
      have := List.find?_eq_none.mp hfi _
        (ExtTreeMap.mem_toList_iff_getElem?_eq_some.mpr hfp)
      simp at this
  | some s =>
    have hfp := List.find?_some hfi
    rw [decide_eq_true_iff] at hfp
    subst hfp
    exact (ExtTreeMap.mem_toList_iff_getElem?_eq_some.mp (List.mem_of_find?_eq_some hfi)).symm

/-- A merge keeps the labels a fingerprint has, and takes the other side's for a new one. -/
theorem getElem?_seriesOf_mergeTenant (other : TenantIndex) (t : String) (fp : SeriesFingerprint) :
    ((index.mergeTenant tenant other).seriesOf t)[fp]? =
      ((index.seriesOf t)[fp]?).or (if tenant = t then other.series[fp]? else none) := by
  rw [mergeTenant, seriesOf_foldl_addBlock, getElem?_seriesOf_foldl_addSeries, find?_toList]

end Merge

end Index

end KrabkaO11y.Blockstore
