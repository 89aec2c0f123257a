import KrabkaO11y.Collections.Tree
import KrabkaO11y.Blockstore.Index.Registry

/-!
What the edits of a block list do to its structures: retiring an ordinal, appending
one (`push` and `attach`) and restating an entry in place keep `Wf`.
-/

open Std (ExtTreeMap ExtTreeSet)

namespace KrabkaO11y.Blockstore

open List

namespace BlockList

/-! ### Retiring a block -/

section Retire

variable {l : BlockList} {o : Nat}

theorem Columns.mono {n k : Nat} (hc : Columns l n) (h : k ≤ n) : Columns l k where
  starts_len := hc.starts_len
  ends_len := hc.ends_len
  start i hi := hc.start i (by omega)
  stop i hi := hc.stop i (by omega)
  place i hi := hc.place i (by omega)

/-- Every block of the order is at its recorded position. -/
theorem Wf.position (hw : Wf l) (ho : o ∈ l.order) :
    ∃ p < l.order.length, l.order.getD p 0 = o ∧ l.position.getD o none = some p := by
  obtain ⟨p, hp, rfl⟩ := getElem_of_mem ho
  refine ⟨p, hp, getD_eq_getElem _ _ hp, ?_⟩
  rw [← getD_eq_getElem _ 0 hp]
  exact hw.columns.place p hp

theorem Wf.lt (hw : Wf l) (ho : o ∈ l.order) : o < l.entries.length := hw.placed.lt o ho

/-- Detaching removes exactly the ordinal, and leaves the columns right. -/
theorem detach_erase {p : Nat} (hp : Placed l) (hlt : p < l.order.length)
    (heq : l.order.getD p 0 = o) (hpos : l.position.getD o none = some p) (hc : Columns l p) :
    (l.detach o).2.order = l.order.erase o ∧
      Columns (l.detach o).2 (l.detach o).2.order.length ∧ Placed (l.detach o).2 := by
  subst heq
  obtain ⟨hor, hco, hpl⟩ := detach_spec hp hlt hc hpos
  refine ⟨?_, by rw [hor]; exact hco, hpl⟩
  rw [hor, getD_eq_getElem _ _ hlt, hp.nodup.erase_getElem]

theorem Sorted.of_sublist {l' : BlockList} (hs : Sorted l) (hsub : l'.order.Sublist l.order)
    (he : ∀ ordinal ∈ l'.order, l'.entry ordinal = l.entry ordinal) : Sorted l' :=
  (List.Pairwise.sublist hsub hs).imp_of_mem fun hlf hr h => by
    rwa [he _ hlf, he _ hr]

theorem retire_fields (hw : Wf l) (ho : o ∈ l.order) :
    (l.retire o).1 = true ∧ (l.retire o).2.entries = l.entries ∧
      (l.retire o).2.postings = l.postings ∧ (l.retire o).2.live = l.live.set o false ∧
      (l.retire o).2.byKey = l.byKey.erase (l.entry o).objectKey := by
  have hlv : l.live.getD o false = true := (hw.mem_order o).mp ho
  have hkey : l.byKey[(l.entry o).objectKey]? = some o := (hw.byKey_iff _ _).mpr ⟨ho, rfl⟩
  have he : ({ l with live := l.live.set o false, dead := l.dead + 1 } : BlockList).entry o
      = l.entry o := rfl
  simp only [retire, hlv, if_true, detach_entry, detach_byKey, he, hkey, detach_entries,
    detach_postings, detach_live, and_self]

/-- Retiring leaves the columns as detaching does: the key map is not read by them. -/
theorem retire_order (hw : Wf l) (ho : o ∈ l.order) :
    (l.retire o).2.order = l.order.erase o ∧
      Columns (l.retire o).2 (l.retire o).2.order.length ∧ Placed (l.retire o).2 := by
  have hlv : l.live.getD o false = true := (hw.mem_order o).mp ho
  obtain ⟨p, hlt, heq, hpos⟩ := hw.position ho
  have hdet := detach_erase
    (l := { l with live := l.live.set o false, dead := l.dead + 1 }) (o := o)
    ⟨hw.placed.nodup, hw.placed.lt, hw.placed.len, hw.placed.absent⟩ hlt heq hpos
    ⟨hw.columns.starts_len, hw.columns.ends_len, (hw.columns.mono hlt.le).start,
      (hw.columns.mono hlt.le).stop, (hw.columns.mono hlt.le).place⟩
  simp only [retire, hlv, if_true]
  split
  · exact ⟨hdet.1, ⟨hdet.2.1.1, hdet.2.1.2, hdet.2.1.3, hdet.2.1.4, hdet.2.1.5⟩,
      ⟨hdet.2.2.1, hdet.2.2.2, hdet.2.2.3, hdet.2.2.4⟩⟩
  · exact hdet

theorem retire_wf (hw : Wf l) (ho : o ∈ l.order) : Wf (l.retire o).2 := by
  obtain ⟨-, hen, hpo, hlv, hby⟩ := retire_fields hw ho
  obtain ⟨hor, hco, hpl⟩ := retire_order hw ho
  have he : ∀ o', (l.retire o).2.entry o' = l.entry o' := fun o' => by
    rw [entry, hen]; rfl
  exact
    { placed := hpl
      columns := hco
      sorted := hw.sorted.of_sublist (by rw [hor]; exact erase_sublist)
        fun o' _ => he o'
      live_len := by rw [hlv, hen, length_set, hw.live_len]
      mem_order := by
        intro o'
        rw [hor, hlv, getD_set (by rw [hw.live_len]; exact hw.lt ho),
          hw.placed.nodup.mem_erase_iff, hw.mem_order]
        split
        · rename_i h; simp [h]
        · rename_i h; simp [Ne.symm h]
      byKey_iff := by
        intro key o'
        rw [hby, ExtTreeMap.getElem?_erase, hor, hw.placed.nodup.mem_erase_iff, he]
        simp only [Std.compare_eq_iff_eq]
        split
        · rename_i hkey
          subst hkey
          -- a second live block under the key would be the same ordinal
          simp only [reduceCtorEq, false_iff, not_and, and_imp]
          intro hne hmem hsm
          have h := (hw.byKey_iff _ _).mpr ⟨hmem, hsm⟩
          rw [(hw.byKey_iff _ _).mpr ⟨ho, rfl⟩] at h
          exact hne (Option.some.inj h).symm
        · rename_i hkey
          rw [hw.byKey_iff]
          refine ⟨fun h => ⟨⟨?_, h.1⟩, h.2⟩, fun h => ⟨h.1.2, h.2⟩⟩
          rintro rfl
          exact hkey h.2
      postings_lt := by rw [hpo, hen]; exact hw.postings_lt }

end Retire

/-! ### Attaching the one block that the order lacks -/

/-- What `attach` needs: everything agrees but for `o`, which is live and keyed and
not yet in the order. -/
structure Lacks (l : BlockList) (o : Nat) : Prop where
  placed : Placed l
  columns : Columns l l.order.length
  sorted : Sorted l
  lt : o < l.entries.length
  notin : o ∉ l.order
  live_len : l.live.length = l.entries.length
  live_iff : ∀ ordinal, (ordinal = o ∨ ordinal ∈ l.order) ↔ l.live.getD ordinal false = true
  byKey_iff : ∀ (key : String) (ordinal : Nat), l.byKey[key]? = some ordinal ↔
    (ordinal = o ∨ ordinal ∈ l.order) ∧ (l.entry ordinal).objectKey = key
  postings_lt : ∀ (fp : SeriesFingerprint) (ordinals : List Nat), l.postings[fp]? = some ordinals →
    ∀ ordinal ∈ ordinals, ordinal < l.entries.length

variable {o : Nat}

theorem Lacks.attach_wf {l : BlockList} (h : Lacks l o) : Wf (l.attach o) := by
  obtain ⟨hco, hpl⟩ := attach_spec h.placed h.lt h.notin h.columns
  -- two blocks with one place in the order have one key, so they are one block
  have hne : ∀ other ∈ l.order, (l.entry other).orderKey ≠ (l.entry o).orderKey := by
    intro other ho heq
    have hkey := (blockOrderKey_inj heq).2.2
    have h₁ := (h.byKey_iff _ other).mpr ⟨.inr ho, hkey⟩
    rw [(h.byKey_iff _ o).mpr ⟨.inl rfl, rfl⟩] at h₁
    exact h.notin (Option.some.inj h₁ ▸ ho)
  exact
    { placed := hpl
      columns := hco
      sorted := h.sorted.attach hne
      live_len := by simpa using h.live_len
      mem_order := fun ordinal => by rw [mem_attach_order, attach_live]; exact h.live_iff ordinal
      byKey_iff := fun key ordinal => by
        rw [mem_attach_order, attach_byKey, attach_entry]; exact h.byKey_iff key ordinal
      postings_lt := by rw [attach_postings, attach_entries]; exact h.postings_lt }

/-! ### Appending a block -/

section Append

variable {l : BlockList} {block : BlockMeta} {fps : ExtTreeSet SeriesFingerprint} {digest : UInt64}

theorem getElem?_pushPostings {n : Nat} {fp : SeriesFingerprint} (pushed : List SeriesFingerprint) :
    ∀ (postings : ExtTreeMap SeriesFingerprint (List Nat)), pushed.Nodup →
      (pushPostings postings n pushed)[fp]? =
        if fp ∈ pushed then some (postings[fp]?.getD [] ++ [n]) else postings[fp]? := by
  induction pushed with
  | nil => intro postings _; rfl
  | cons first rest ih =>
    intro postings hnd
    obtain ⟨hno, hr⟩ := nodup_cons.mp hnd
    change (pushPostings _ n rest)[fp]? = _
    rw [ih _ hr, ExtTreeMap.getElem?_alter]
    simp only [Std.compare_eq_iff_eq, mem_cons]
    by_cases hfp : first = fp
    · subst hfp; simp [hno]
    · simp [hfp, Ne.symm hfp]

theorem getElem?_push_postings (fp : SeriesFingerprint) :
    (l.push block fps digest).postings[fp]? =
      if fp ∈ fps then some (l.postings[fp]?.getD [] ++ [l.entries.length])
      else l.postings[fp]? := by
  rw [push, getElem?_pushPostings _ _ (Collections.nodup_toList fps)]
  simp only [ExtTreeSet.mem_toList]

theorem push_entry_old (h : o < l.entries.length) :
    (l.push block fps digest).entry o = l.entry o := by
  simp [entry, push, getD_eq_getElem?_getD, getElem?_append_left h]

theorem push_entry_new :
    (l.push block fps digest).entry l.entries.length = entryOf block fps digest := by
  simp [entry, push, getD_eq_getElem?_getD]

theorem push_fingerprints_old (h : o < l.entries.length) :
    fingerprintsOf (l.push block fps digest).postings o = fingerprintsOf l.postings o := by
  refine ExtTreeSet.ext_mem fun fp => ?_
  rw [mem_fingerprintsOf, mem_fingerprintsOf, getElem?_push_postings]
  have hne : o ≠ l.entries.length := by omega
  split
  · cases l.postings[fp]? with
    | none => simp [hne]
    | some os => simp [hne]
  · rfl

theorem push_fingerprints_new (hw : Wf l) :
    fingerprintsOf (l.push block fps digest).postings l.entries.length = fps := by
  refine ExtTreeSet.ext_mem fun fp => ?_
  rw [mem_fingerprintsOf, getElem?_push_postings]
  split
  · rename_i h; simp [h]
  · rename_i h
    simp only [h, iff_false, not_exists, not_and]
    intro os hos hmem
    have := hw.postings_lt fp os hos _ hmem
    omega

theorem push_record_old (h : o < l.entries.length) :
    (l.push block fps digest).record o = l.record o :=
  record_congr (push_entry_old h) (push_fingerprints_old h)

theorem push_placed (hw : Wf l) : Placed (l.push block fps digest) where
  nodup := hw.placed.nodup
  lt o ho := by
    have := hw.placed.lt o ho
    simp only [push, length_append, length_singleton]
    omega
  len := by simp [push, hw.placed.len]
  absent := by
    intro o ho
    have hold := hw.placed.absent o ho
    simp only [push, getD_eq_getElem?_getD, getElem?_append] at hold ⊢
    split
    · exact hold
    · cases h : o - l.position.length <;> simp

theorem push_columns (hw : Wf l) : Columns (l.push block fps digest) l.order.length where
  starts_len := hw.columns.starts_len
  ends_len := hw.columns.ends_len
  start i hi := by
    rw [show (l.push block fps digest).order = l.order from rfl,
      push_entry_old (hw.lt (getD_mem_order hi))]
    exact hw.columns.start i hi
  stop i hi := by
    have hen : (l.push block fps digest).endsMax (i + 1) = l.endsMax (i + 1) := by
      refine foldl_ext _ _ _ fun acc o ho => ?_
      rw [push_entry_old (hw.lt (mem_of_mem_take ho))]
    rw [hen]
    exact hw.columns.stop i hi
  place i hi := by
    have hlt : l.order.getD i 0 < l.position.length := by
      rw [hw.placed.len]; exact hw.lt (getD_mem_order hi)
    have hpl := hw.columns.place i hi
    simp only [push, getD_eq_getElem?_getD] at hpl hlt ⊢
    rwa [getElem?_append_left hlt]

theorem push_lacks (hw : Wf l) (free : l.byKey[block.objectKey]? = none) :
    Lacks (l.push block fps digest) l.entries.length where
  placed := push_placed hw
  columns := push_columns hw
  sorted := hw.sorted.of_sublist (List.Sublist.refl _) fun o ho => push_entry_old (hw.lt ho)
  lt := by simp [push]
  notin h := absurd (hw.lt h) (lt_irrefl _)
  live_len := by simp [push, hw.live_len]
  live_iff := by
    intro o
    change _ ∨ o ∈ l.order ↔ _
    rw [hw.mem_order, push, getD_eq_getElem?_getD, getD_eq_getElem?_getD,
      getElem?_append, hw.live_len]
    split
    · rename_i hlt; simp [Nat.ne_of_lt hlt]
    · rename_i hge
      have hno : l.live[o]? = none := by rw [List.getElem?_eq_none_iff, hw.live_len]; omega
      rw [hno]
      rcases Nat.eq_or_lt_of_le (Nat.le_of_not_lt hge) with rfl | hgt
      · simp
      · have : o ≠ l.entries.length := by omega
        have hlen : [true].length ≤ o - l.entries.length := by simp; omega
        simp [this, getElem?_eq_none hlen]
  byKey_iff := by
    intro key o
    change (l.byKey.insert block.objectKey l.entries.length)[key]? = some o ↔
      (_ ∨ o ∈ l.order) ∧ _
    rw [ExtTreeMap.getElem?_insert]
    simp only [Std.compare_eq_iff_eq]
    split
    · rename_i hkey
      subst hkey
      refine ⟨fun h => ?_, fun h => ?_⟩
      · cases h
        exact ⟨.inl rfl, by rw [push_entry_new]; rfl⟩
      · rcases h.1 with rfl | hmem
        · rfl
        · rw [push_entry_old (hw.lt hmem)] at h
          rw [(hw.byKey_iff _ o).mpr ⟨hmem, h.2⟩] at free
          exact absurd free (by simp)
    · rename_i hkey
      rw [hw.byKey_iff]
      refine ⟨fun h => ⟨.inr h.1, by rw [push_entry_old (hw.lt h.1)]; exact h.2⟩, fun h => ?_⟩
      rcases h.1 with rfl | hmem
      · rw [push_entry_new] at h
        exact absurd h.2 hkey
      · rw [push_entry_old (hw.lt hmem)] at h
        exact ⟨hmem, h.2⟩
  postings_lt := by
    intro fp os hos o ho
    have hlen : (l.push block fps digest).entries.length = l.entries.length + 1 := by simp [push]
    rw [hlen]
    rw [getElem?_push_postings] at hos
    split at hos
    · cases hos
      rcases mem_append.mp ho with ho | ho
      · cases hh : l.postings[fp]? with
        | none => simp [hh] at ho
        | some held =>
          have := hw.postings_lt fp held hh o (by simpa [hh] using ho)
          omega
      · simp only [mem_singleton] at ho
        omega
    · have := hw.postings_lt fp os hos o ho
      omega

end Append

/-! ### Restating a block -/

section Restate

variable {l : BlockList} {o : Nat} {block : BlockMeta}

theorem restateEntry_entry (hlt : o < l.entries.length) (o' : Nat) :
    (l.restateEntry o block).entry o' =
      if o = o' then
        { l.entry o with
          minTs := block.minTs
          maxTs := block.maxTs
          rowCount := block.rowCount
          level := block.level }
      else l.entry o' := by
  rw [entry, restateEntry, getD_set hlt]
  rfl

theorem restateEntry_objectKey (hlt : o < l.entries.length) (o' : Nat) :
    ((l.restateEntry o block).entry o').objectKey = (l.entry o').objectKey := by
  rw [restateEntry_entry hlt]
  split
  · rename_i h; subst h; rfl
  · rfl

theorem restateEntry_placed (hw : Wf l) : Placed (l.restateEntry o block) where
  nodup := hw.placed.nodup
  lt ordinal h := by simpa [restateEntry] using hw.placed.lt ordinal h
  len := by simpa [restateEntry] using hw.placed.len
  absent := hw.placed.absent

/-- With unchanged bounds the entry stays where it is. -/
theorem restateEntry_wf (hw : Wf l) (ho : o ∈ l.order) (hmin : (l.entry o).minTs = block.minTs)
    (hmax : (l.entry o).maxTs = block.maxTs) : Wf (l.restateEntry o block) := by
  have hlt := hw.lt ho
  have hst : ∀ o', ((l.restateEntry o block).entry o').minTs = (l.entry o').minTs := fun o' => by
    rw [restateEntry_entry hlt]; split
    · rename_i h; subst h; exact hmin.symm
    · rfl
  have hsto : ∀ o', ((l.restateEntry o block).entry o').maxTs = (l.entry o').maxTs := fun o' => by
    rw [restateEntry_entry hlt]; split
    · rename_i h; subst h; exact hmax.symm
    · rfl
  exact
    { placed := restateEntry_placed hw
      columns :=
        { starts_len := hw.columns.starts_len
          ends_len := hw.columns.ends_len
          start := fun i hi => by rw [hst]; exact hw.columns.start i hi
          stop := fun i hi => by
            simp only [endsMax, hsto]
            exact hw.columns.stop i hi
          place := hw.columns.place }
      sorted := by
        simp only [Sorted, BlockEntry.orderKey, hst, hsto, restateEntry_objectKey hlt]
        exact hw.sorted
      live_len := by simpa [restateEntry] using hw.live_len
      mem_order := hw.mem_order
      byKey_iff := fun key ordinal => by
        rw [restateEntry_objectKey hlt]; exact hw.byKey_iff key ordinal
      postings_lt := by simpa [restateEntry] using hw.postings_lt }

/-- With other bounds the entry leaves the order. Only the columns before its old
position are still right when it does. -/
theorem restateEntry_lacks (hw : Wf l) (ho : o ∈ l.order) :
    Lacks ((l.restateEntry o block).detach o).2 o := by
  have hlt := hw.lt ho
  obtain ⟨p, hp, heq, hpos⟩ := hw.position ho
  have hot : ∀ i < p, o ≠ l.order.getD i 0 := by
    intro i hi h
    rw [← heq, getD_eq_getElem _ _ hp, getD_eq_getElem _ _ (by omega)] at h
    exact absurd (hw.placed.nodup.getElem_inj_iff.mp h) (by omega)
  have hpr : Columns (l.restateEntry o block) p :=
    { starts_len := hw.columns.starts_len
      ends_len := hw.columns.ends_len
      start := fun i hi => by
        rw [show (l.restateEntry o block).order = l.order from rfl, restateEntry_entry hlt,
          if_neg (hot i hi)]
        exact hw.columns.start i (by omega)
      stop := fun i hi => by
        have hen : (l.restateEntry o block).endsMax (i + 1) = l.endsMax (i + 1) := by
          refine foldl_ext _ _ _ fun acc o' ho' => ?_
          obtain ⟨j, hj, rfl⟩ := getElem_of_mem ho'
          rw [length_take] at hj
          rw [restateEntry_entry hlt, if_neg]
          have := hot j (by omega)
          rw [getD_eq_getElem _ _ (by omega)] at this
          rw [getElem_take]
          exact this
        rw [hen]
        exact hw.columns.stop i (by omega)
      place := fun i hi => hw.columns.place i (by omega) }
  obtain ⟨hor, hco, hpl⟩ := detach_erase (restateEntry_placed hw) hp heq hpos hpr
  have hmem : ∀ o', o' ∈ ((l.restateEntry o block).detach o).2.order ↔ o' ≠ o ∧ o' ∈ l.order :=
    fun o' => by rw [hor]; exact hw.placed.nodup.mem_erase_iff
  have hba : ∀ o', o' = o ∨ (o' ≠ o ∧ o' ∈ l.order) ↔ o' ∈ l.order := fun o' => by
    by_cases h : o' = o
    · subst h; simp [ho]
    · simp [h]
  exact
    { placed := hpl
      columns := hco
      sorted := hw.sorted.of_sublist (by rw [hor]; exact erase_sublist) fun o' ho' => by
        rw [detach_entry, restateEntry_entry hlt, if_neg (Ne.symm ((hmem o').mp ho').1)]
      lt := by simpa [restateEntry] using hlt
      notin := fun h => ((hmem o).mp h).1 rfl
      live_len := by simpa [restateEntry] using hw.live_len
      live_iff := fun o' => by rw [hmem, hba, detach_live]; exact hw.mem_order o'
      byKey_iff := fun key o' => by
        rw [hmem, hba, detach_byKey, detach_entry, restateEntry_objectKey hlt]
        exact hw.byKey_iff key o'
      postings_lt := by simpa [restateEntry] using hw.postings_lt }

theorem restate_wf (hw : Wf l) (ho : o ∈ l.order) (block : BlockMeta) : Wf (l.restate o block) := by
  simp only [restate]
  split
  · exact (restateEntry_lacks hw ho).attach_wf
  · rename_i h
    push Not at h
    exact restateEntry_wf hw ho h.1 h.2

theorem restate_fields (l : BlockList) (o : Nat) (block : BlockMeta) :
    (l.restate o block).entries = (l.restateEntry o block).entries ∧
      (l.restate o block).byKey = l.byKey ∧ (l.restate o block).postings = l.postings := by
  simp only [restate]
  split <;> simp [restateEntry]

end Restate

end BlockList

end KrabkaO11y.Blockstore
