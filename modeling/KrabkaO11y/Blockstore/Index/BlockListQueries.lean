import KrabkaO11y.Blockstore.Index.BlockListEdits

/-!
The queries of a well-formed block list are walks over its records.

The time window is conservative (`overlapping_window`): dropping what lies outside it
drops no block that overlaps. Marking the postings stops early once every block of
the window is marked; `markFingerprints_spec` shows that the unread postings could
not have added one.
-/

open Std (ExtTreeMap ExtTreeSet)

namespace KrabkaO11y.Blockstore.BlockList

open List

/-! ### The order is the walk -/

section Walk

variable {l : BlockList} {m : Registry}

variable {r : BlockRecord}

theorem Refines.mem_values (h : Refines l m) :
    (∃ key : String, m[key]? = some r) ↔ ∃ o ∈ l.order, l.record o = r := by
  simp only [h.lookup, Option.map_eq_some_iff, h.wf.byKey_iff]
  exact ⟨fun ⟨_, o, ho, hr⟩ => ⟨o, ho.1, hr⟩, fun ⟨o, ho, hr⟩ => ⟨_, o, ⟨ho, rfl⟩, hr⟩⟩

theorem Refines.key_eq (h : Refines l m) {key : String} (hr : m[key]? = some r) :
    r.objectKey = key := by
  rw [h.lookup] at hr
  obtain ⟨o, ho, rfl⟩ := Option.map_eq_some_iff.mp hr
  exact ((h.wf.byKey_iff _ _).mp ho).2

theorem Wf.sorted_records (hw : Wf l) :
    (l.order.map l.record).Pairwise fun left right => left.orderKey < right.orderKey :=
  pairwise_map.mpr hw.sorted

theorem Refines.nodup_values (h : Refines l m) : (m.toList.map (·.2)).Nodup := by
  refine List.Nodup.map_on (fun x hx y hy heq => ?_) ?_
  · have hx' := h.key_eq (ExtTreeMap.mem_toList_iff_getElem?_eq_some.mp hx)
    have hy' := h.key_eq (ExtTreeMap.mem_toList_iff_getElem?_eq_some.mp hy)
    exact Prod.ext (by rw [← hx', ← hy', heq]) heq
  · exact (ExtTreeMap.distinct_keys_toList (t := m)).imp fun hne heq => hne (by simp [heq])

/-- No two live blocks share an object key. -/
theorem Wf.nodup_keys (hw : Wf l) : (l.order.map fun o => (l.entry o).objectKey).Nodup := by
  refine List.Nodup.map_on (fun o ho o' ho' heq => ?_) hw.placed.nodup
  have hone := (hw.byKey_iff _ o).mpr ⟨ho, heq⟩
  rw [(hw.byKey_iff _ o').mpr ⟨ho', rfl⟩, Option.some_inj] at hone
  exact hone.symm

/-- The time order lists the records of the map in the order of a walk. -/
theorem Refines.walk (h : Refines l m) : m.walk = l.order.map l.record := by
  have hpm : List.Perm m.walk (l.order.map l.record) := by
    refine (mergeSort_perm _ _).trans ((perm_ext_iff_of_nodup h.nodup_values
      (h.wf.sorted_records.imp fun hlt heq => absurd (heq ▸ hlt) (lt_irrefl _))).mpr fun r => ?_)
    rw [mem_map, mem_map, ← h.mem_values]
    exact ⟨fun ⟨x, hx, hr⟩ => ⟨x.1, hr ▸ ExtTreeMap.mem_toList_iff_getElem?_eq_some.mp hx⟩,
      fun ⟨key, hr⟩ => ⟨(key, r), ExtTreeMap.mem_toList_iff_getElem?_eq_some.mpr hr, rfl⟩⟩
  refine hpm.eq_of_pairwise ?_ (Collections.pairwise_mergeSort_key BlockRecord.orderKey _)
    (h.wf.sorted_records.imp fun hlt => hlt.le)
  intro a b ha hb hab hba
  obtain ⟨o, ho, rfl⟩ := mem_map.mp (hpm.mem_iff.mp ha)
  obtain ⟨o', ho', rfl⟩ := mem_map.mp hb
  have hkey := (blockOrderKey_inj (le_antisymm hab hba)).2.2
  rw [inj_on_of_nodup_map h.wf.nodup_keys ho ho' hkey]

theorem Refines.mem_walk (h : Refines l m) :
    r ∈ m.walk ↔ ∃ key : String, m[key]? = some r := by
  rw [h.walk, mem_map, h.mem_values]

theorem Refines.levelOf (h : Refines l m) (key : String) : l.levelOf key = m.levelOf key := by
  rw [BlockList.levelOf, Registry.levelOf, h.lookup, Option.map_map]
  rfl

end Walk

/-! ### The time window -/

section Window

variable {l : BlockList} {minTs maxTs : Int64}

theorem endsMax_mono {i j : Nat} (h : i ≤ j) : l.endsMax i ≤ l.endsMax j := by
  have hgr : ∀ (os : List Nat) (acc : Int64),
      acc ≤ os.foldl (fun acc o => max acc (l.entry o).maxTs) acc := by
    intro os
    induction os with
    | nil => intro acc; exact Std.le_refl _
    | cons o os ih => intro acc; exact Std.le_trans Std.left_le_max (ih _)
  have hsp : l.order.take j = l.order.take i ++ (l.order.take j).drop i := by
    conv_lhs => rw [← take_append_drop i (l.order.take j)]
    rw [take_take, Nat.min_eq_left h]
  rw [endsMax, endsMax, hsp, foldl_append]
  exact hgr _ _

theorem maxTs_le_endsMax {i : Nat} (hi : i < l.order.length) :
    (l.entry (l.order.getD i 0)).maxTs ≤ l.endsMax (i + 1) := by
  rw [endsMax_succ hi]
  exact Std.right_le_max

theorem Wf.starts_sorted (hw : Wf l) : l.minStart.Pairwise (· ≤ ·) := by
  rw [pairwise_iff_getElem]
  intro i j hi hj hij
  have hi' : i < l.order.length := hw.columns.starts_len ▸ hi
  have hj' : j < l.order.length := hw.columns.starts_len ▸ hj
  have hlt := pairwise_iff_getElem.mp hw.sorted i j hi' hj' hij
  rw [← getD_eq_getElem _ 0 hi, ← getD_eq_getElem _ 0 hj, hw.columns.start i hi',
    hw.columns.start j hj', getD_eq_getElem _ _ hi', getD_eq_getElem _ _ hj']
  exact minTs_le_of_blockOrderKey_le hlt.le

theorem Wf.ends_sorted (hw : Wf l) : l.maxEnd.Pairwise (· ≤ ·) := by
  rw [pairwise_iff_getElem]
  intro i j hi hj hij
  rw [← getD_eq_getElem _ 0 hi, ← getD_eq_getElem _ 0 hj,
    hw.columns.stop i (hw.columns.ends_len ▸ hi), hw.columns.stop j (hw.columns.ends_len ▸ hj)]
  exact endsMax_mono (by omega)

/-- The bounds of the window, and that no block outside it overlaps. -/
theorem Wf.window (hw : Wf l) (minTs maxTs : Int64) :
    (l.window minTs maxTs).start ≤ (l.window minTs maxTs).stop ∧
      (l.window minTs maxTs).stop ≤ l.order.length ∧
      ∀ i < l.order.length, (l.entry (l.order.getD i 0)).overlaps minTs maxTs = true →
        (l.window minTs maxTs).start ≤ i ∧ i < (l.window minTs maxTs).stop := by
  obtain ⟨hle, hsto, hbef, ha⟩ := Verified.overlapWindow_spec
    (hw.columns.ends_len.trans hw.columns.starts_len.symm) hw.starts_sorted hw.ends_sorted minTs
    maxTs
  rw [hw.columns.starts_len] at hsto ha
  refine ⟨hle, hsto, fun i hi hov => ?_⟩
  simp only [BlockEntry.overlaps, Bool.and_eq_true, decide_eq_true_eq] at hov
  constructor
  · by_contra hlt
    have hend := hbef i (not_le.mp hlt)
    rw [hw.columns.stop i hi] at hend
    have := maxTs_le_endsMax (l := l) hi
    grind
  · by_contra hge
    have hst := ha i (not_lt.mp hge) hi
    rw [hw.columns.start i hi] at hst
    grind

/-- Filtering the window for overlap is filtering the whole order. -/
theorem Wf.overlapping_window (hw : Wf l) :
    (l.orderSlice (l.window minTs maxTs).start (l.window minTs maxTs).stop).filter
        (fun o => (l.entry o).overlaps minTs maxTs) =
      l.order.filter fun o => (l.entry o).overlaps minTs maxTs := by
  obtain ⟨hle, hst, hin⟩ := hw.window minTs maxTs
  set lo := (l.window minTs maxTs).start
  set hi := (l.window minTs maxTs).stop
  have hcut : ∀ i (h : i < l.order.length), ¬ (lo ≤ i ∧ i < hi) →
      ¬ (l.entry l.order[i]).overlaps minTs maxTs = true := fun i h hout hov =>
    hout (hin i h (by rwa [getD_eq_getElem _ _ h]))
  have hsp : l.order = l.order.take lo ++ (l.orderSlice lo hi ++ l.order.drop hi) := by
    rw [orderSlice, ← append_assoc]
    conv_lhs => rw [← take_append_drop hi l.order]
    congr 1
    conv_lhs => rw [← take_append_drop lo (l.order.take hi)]
    rw [take_take, Nat.min_eq_left hle]
  conv_rhs => rw [hsp]
  rw [filter_append, filter_append]
  have hft : (l.order.take lo).filter (fun o => (l.entry o).overlaps minTs maxTs) = [] := by
    refine filter_eq_nil_iff.mpr fun o ho => ?_
    obtain ⟨i, hi', rfl⟩ := getElem_of_mem ho
    rw [getElem_take]
    exact hcut i _ (by rw [length_take] at hi'; omega)
  have hba : (l.order.drop hi).filter (fun o => (l.entry o).overlaps minTs maxTs) = [] := by
    refine filter_eq_nil_iff.mpr fun o ho => ?_
    obtain ⟨i, hi', rfl⟩ := getElem_of_mem ho
    rw [getElem_drop]
    exact hcut _ _ (by omega)
  rw [hft, hba, nil_append, append_nil]

end Window

/-! ### Marking -/

section Marking

variable {l : BlockList} {lo hi : Nat}

theorem Wf.mem_orderSlice (hw : Wf l) {o : Nat} :
    o ∈ l.orderSlice lo hi ↔ ∃ p, l.position.getD o none = some p ∧ lo ≤ p ∧ p < hi := by
  constructor
  · intro ho
    obtain ⟨i, hlen, rfl⟩ := getElem_of_mem ho
    rw [orderSlice, length_drop, length_take] at hlen
    have hpl := hw.columns.place (lo + i) (by omega)
    rw [getD_eq_getElem l.order _ (by omega)] at hpl
    refine ⟨lo + i, ?_, by omega, by omega⟩
    simpa only [orderSlice, getElem_drop, getElem_take] using hpl
  · rintro ⟨p, hpos, hlo, hhi⟩
    have ho : o ∈ l.order := by
      by_contra hout
      rw [hw.placed.absent o hout] at hpos
      exact absurd hpos (by simp)
    obtain ⟨p', hp', heq, hpos'⟩ := hw.position ho
    obtain rfl : p' = p := by rw [hpos] at hpos'; exact (Option.some.inj hpos').symm
    rw [← heq, getD_eq_getElem _ _ hp', orderSlice, mem_drop_iff_getElem]
    refine ⟨p' - lo, by rw [length_take]; omega, ?_⟩
    simp only [getElem_take]
    congr 1
    omega

theorem orderSlice_sublist : (l.orderSlice lo hi).Sublist l.order :=
  (drop_sublist _ _).trans (take_sublist _ _)

theorem orderSlice_subset {o : Nat} (ho : o ∈ l.orderSlice lo hi) : o ∈ l.order :=
  orderSlice_sublist.subset ho

theorem orderSlice_nodup (hw : Wf l) : (l.orderSlice lo hi).Nodup :=
  hw.placed.nodup.sublist orderSlice_sublist

/-- The marks: as many as the list has ordinals, `found` of them in the window. -/
structure Marks (l : BlockList) (lo hi : Nat) (hit : List Bool) (found : Nat) : Prop where
  len : hit.length = l.entries.length
  count : (l.orderSlice lo hi).countP (fun o => hit.getD o false) = found

theorem Marks.set (hw : Wf l) {hit : List Bool} {found o : Nat} (h : Marks l lo hi hit found)
    (ho : o ∈ l.orderSlice lo hi) (fresh : hit.getD o false = false) :
    Marks l lo hi (hit.set o true) (found + 1) := by
  have hlt : o < hit.length := by
    rw [h.len]
    exact hw.lt (orderSlice_subset ho)
  refine ⟨by simp [h.len], ?_⟩
  have hsp := perm_cons_erase ho
  have hno : o ∉ (l.orderSlice lo hi).erase o := (orderSlice_nodup hw).not_mem_erase
  have hct := h.count
  rw [hsp.countP_eq, countP_cons, fresh] at hct
  rw [hsp.countP_eq, countP_cons, getD_set hlt]
  simp only [Bool.false_eq_true, if_false, Nat.add_zero, if_true] at hct ⊢
  rw [← hct, Nat.add_right_cancel_iff]
  refine countP_congr fun o' ho' => ?_
  have hne : o ≠ o' := fun heq => hno (heq ▸ ho')
  rw [getD_set hlt, if_neg hne]

/-- What marking one posting list does. -/
theorem markOrdinals_spec (hw : Wf l) (hhi : hi ≤ l.order.length) (os : List Nat) :
    ∀ (hit : List Bool) (found : Nat), Marks l lo hi hit found →
      ∃ hit' found' full, l.markOrdinals lo hi os hit found = (hit', found', full) ∧
        Marks l lo hi hit' found' ∧
        (∀ o, hit'.getD o false = true →
          hit.getD o false = true ∨ o ∈ l.orderSlice lo hi ∧ o ∈ os) ∧
        (∀ o, hit.getD o false = true → hit'.getD o false = true) ∧
        ∀ o ∈ l.orderSlice lo hi, full = true ∨ o ∈ os → hit'.getD o false = true := by
  induction os with
  | nil =>
    intro hit found h
    exact ⟨hit, found, false, rfl, h, fun o ho => .inl ho, fun o ho => ho, by simp⟩
  | cons first rest ih =>
    intro hit found h
    rw [markOrdinals]
    cases hpos : l.position.getD first none with
    | none =>
      obtain ⟨hit', found', full, heq, hm, hsd, hkp, hall⟩ := ih hit found h
      refine ⟨hit', found', full, heq, hm, fun o ho => ?_, hkp, fun o ho hc => hall o ho ?_⟩
      · exact (hsd o ho).imp_right fun h => ⟨h.1, mem_cons_of_mem _ h.2⟩
      · refine hc.imp_right fun hc => (mem_cons.mp hc).resolve_left ?_
        rintro rfl
        obtain ⟨p, hp, -⟩ := hw.mem_orderSlice.mp ho
        rw [hpos] at hp
        exact absurd hp (by simp)
    | some p =>
      simp only
      have hsl : first ∈ l.orderSlice lo hi ↔ lo ≤ p ∧ p < hi := by
        rw [hw.mem_orderSlice, hpos]
        simp
      split
      · -- outside the window, or marked before
        rename_i hsk
        obtain ⟨hit', found', full, heq, hm, hsd, hkp, hall⟩ := ih hit found h
        refine ⟨hit', found', full, heq, hm, fun o ho => ?_, hkp, fun o ho hc => ?_⟩
        · exact (hsd o ho).imp_right fun h => ⟨h.1, mem_cons_of_mem _ h.2⟩
        · by_cases hfi : o = first
          · subst hfi
            have := hsl.mp ho
            exact hkp _ (by rcases hsk with h | h | h <;> [omega; omega; exact h])
          · exact hall o ho (hc.imp_right fun hc => (mem_cons.mp hc).resolve_left hfi)
      · rename_i hfs
        push Not at hfs
        obtain ⟨hlo, hlt, hnew⟩ := hfs
        have hin : first ∈ l.orderSlice lo hi := hsl.mpr ⟨hlo, hlt⟩
        have hset := h.set hw hin (by simpa using hnew)
        have hfl : first < hit.length := by
          rw [h.len]; exact hw.lt (orderSlice_subset hin)
        have hone : ∀ o, (hit.set first true).getD o false = true ↔
            o = first ∨ hit.getD o false = true := fun o => by
          rw [getD_set hfl]
          by_cases hf : first = o
          · simp [hf]
          · simp [hf, Ne.symm hf]
        split
        · rename_i hfu
          -- every block of the window is marked
          refine ⟨_, _, _, rfl, hset, fun o ho => ?_, fun o ho => (hone o).mpr (.inr ho),
            fun o ho _ => ?_⟩
          · rcases (hone o).mp ho with rfl | ho
            · exact .inr ⟨hin, by simp⟩
            · exact .inl ho
          · have hlen : (l.orderSlice lo hi).length = hi - lo := by
              rw [orderSlice, length_drop, length_take]; omega
            have hct := hset.count
            rw [hfu, ← hlen] at hct
            exact (countP_eq_length.mp hct) o ho
        · obtain ⟨hit', found', full, heq, hm, hsd, hkp, hall⟩ := ih _ _ hset
          refine ⟨hit', found', full, heq, hm, fun o ho => ?_,
            fun o ho => hkp o ((hone o).mpr (.inr ho)), fun o ho hc => ?_⟩
          · rcases hsd o ho with h | h
            · rcases (hone o).mp h with rfl | h
              · exact .inr ⟨hin, by simp⟩
              · exact .inl h
            · exact .inr ⟨h.1, mem_cons_of_mem _ h.2⟩
          · by_cases hfi : o = first
            · exact hkp o ((hone o).mpr (.inl hfi))
            · exact hall o ho (hc.imp_right fun hc => (mem_cons.mp hc).resolve_left hfi)

/-- The marks after the fingerprints of a query: the blocks of the window that carry
one of them, whether or not the loop ran to its end. -/
theorem markFingerprints_spec (hw : Wf l) (hhi : hi ≤ l.order.length)
    (fps : List SeriesFingerprint) :
    ∀ (hit : List Bool) (found : Nat), Marks l lo hi hit found →
      (∀ o, (l.markFingerprints lo hi fps hit found).getD o false = true →
        hit.getD o false = true ∨ ∃ fp ∈ fps, fp ∈ fingerprintsOf l.postings o) ∧
      (∀ o, hit.getD o false = true →
        (l.markFingerprints lo hi fps hit found).getD o false = true) ∧
      ∀ o ∈ l.orderSlice lo hi, (∃ fp ∈ fps, fp ∈ fingerprintsOf l.postings o) →
        (l.markFingerprints lo hi fps hit found).getD o false = true := by
  induction fps with
  | nil => intro hit found _; exact ⟨fun o ho => .inl ho, fun o ho => ho, by simp⟩
  | cons fp rest ih =>
    intro hit found h
    rw [markFingerprints]
    cases hos : l.postings[fp]? with
    | none =>
      have hno : ∀ o, fp ∉ fingerprintsOf l.postings o := fun o hin => by
        obtain ⟨os, h, -⟩ := mem_fingerprintsOf.mp hin
        rw [hos] at h
        exact absurd h (by simp)
      simpa only [exists_mem_cons_iff, hno, false_or] using ih hit found h
    | some os =>
      have hin : ∀ o, fp ∈ fingerprintsOf l.postings o ↔ o ∈ os := fun o => by
        rw [mem_fingerprintsOf, hos]; simp
      obtain ⟨hit', found', full, heq, hm, hsd, hkp, hall⟩ :=
        markOrdinals_spec hw hhi os hit found h
      simp only [heq, exists_mem_cons_iff, hin]
      cases full with
      | true =>
        exact ⟨fun o ho => (hsd o ho).imp_right fun h => .inl h.2, hkp,
          fun o ho _ => hall o ho (.inl rfl)⟩
      | false =>
        obtain ⟨hsd', hkp', hall'⟩ := ih hit' found' hm
        refine ⟨fun o ho => ?_, fun o ho => hkp' o (hkp o ho), fun o ho hc => ?_⟩
        · rcases hsd' o ho with h | h
          · exact (hsd o h).imp_right fun h => .inl h.2
          · exact .inr (.inr h)
        · rcases hc with hc | hc
          · exact hkp' o (hall o ho (.inr hc))
          · exact hall' o ho hc

end Marking

/-! ### The queries -/

section Queries

variable {l : BlockList} {m : Registry} {minTs maxTs : Int64}

/-- The blocks that overlap a range are the same on both sides. -/
theorem Refines.overlapping (h : Refines l m) :
    m.overlapping minTs maxTs =
      (l.order.filter fun o => (l.entry o).overlaps minTs maxTs).map l.record := by
  rw [Registry.overlapping, h.walk, filter_map]
  rfl

theorem keysInWindow_eq {lo hi : Nat} (keep : Nat → Bool) :
    l.keysInWindow lo hi minTs maxTs keep =
      ((((l.orderSlice lo hi).filter fun o => (l.entry o).overlaps minTs maxTs).filter keep).map
        fun o => (l.entry o).objectKey) := by
  rw [keysInWindow, filter_map, map_map, filter_filter, filter_filter]
  congr 2
  funext o
  exact Bool.and_comm _ _

theorem Refines.blocksInRange (h : Refines l m) :
    l.blocksInRange minTs maxTs = m.blocksInRange minTs maxTs := by
  rw [BlockList.blocksInRange, Registry.blocksInRange, h.overlapping, keysInWindow_eq,
    h.wf.overlapping_window, filter_true, map_map]
  rfl

theorem Refines.timeBounds (h : Refines l m) :
    l.timeBounds minTs maxTs = m.timeBounds minTs maxTs := by
  rw [BlockList.timeBounds, Registry.timeBounds, h.overlapping, ordinalsOverlapping,
    h.wf.overlapping_window, foldl_map, foldl_map]
  rfl

theorem record_carries {o : Nat} {fps : ExtTreeSet SeriesFingerprint} :
    (l.record o).carries fps = true ↔ ∃ fp ∈ fps.toList, fp ∈ fingerprintsOf l.postings o := by
  simp only [BlockRecord.carries, any_eq_true, ExtTreeSet.contains_iff_mem]
  rfl

theorem Refines.candidateBlocks (h : Refines l m) (fps : ExtTreeSet SeriesFingerprint) :
    l.candidateBlocks fps minTs maxTs = m.candidateBlocks fps minTs maxTs := by
  obtain ⟨hle, hsto, -⟩ := h.wf.window minTs maxTs
  rw [Registry.candidateBlocks, h.overlapping, filter_map, map_map,
    ← h.wf.overlapping_window]
  simp only [BlockList.candidateBlocks]
  set lo := (l.window minTs maxTs).start
  set hi := (l.window minTs maxTs).stop
  split
  · rename_i hem
    rcases hem with hge | hfps
    · have : l.orderSlice lo hi = [] := by
        rw [orderSlice, drop_eq_nil_iff, length_take]; omega
      simp [this]
    · have hno : ∀ o, (l.record o).carries fps = false := fun o => by
        rw [BlockRecord.carries, any_eq_false]
        simp [ExtTreeSet.isEmpty_iff.mp hfps]
      simp [Function.comp_def, hno]
  · have hst : Marks l lo hi (List.replicate l.entries.length false) 0 := by
      refine ⟨by simp, countP_eq_zero.mpr fun o _ => ?_⟩
      simp only [getD_eq_getElem?_getD, getElem?_replicate]
      split <;> simp
    obtain ⟨hsd, -, hall⟩ := markFingerprints_spec h.wf hsto fps.toList _ _ hst
    rw [keysInWindow_eq]
    congr 1
    refine filter_congr fun o ho => ?_
    have hin : o ∈ l.orderSlice lo hi := (mem_filter.mp ho).1
    rw [Bool.eq_iff_iff]
    change _ ↔ (l.record o).carries fps = true
    rw [record_carries]
    refine ⟨fun hhit => (hsd o hhit).resolve_left ?_, hall o hin⟩
    simp only [getD_eq_getElem?_getD, getElem?_replicate]
    split <;> simp

end Queries

/-! ### The full listing -/

section Metas

variable {l : BlockList} {m : Registry} {o : Nat}

theorem getElem?_foldl_push (fp : SeriesFingerprint) (hlive : l.live.getD o false = true)
    (os : List Nat) : ∀ byOrdinal : ExtTreeMap Nat (List SeriesFingerprint),
    (os.foldl (fun byOrdinal ordinal =>
        if l.live.getD ordinal false then
          byOrdinal.alter ordinal fun held => some (held.getD [] ++ [fp])
        else byOrdinal) byOrdinal)[o]?.getD [] =
      byOrdinal[o]?.getD [] ++ List.replicate (os.count o) fp := by
  induction os with
  | nil => intro byOrdinal; simp
  | cons first rest ih =>
    intro byOrdinal
    rw [foldl_cons, ih]
    by_cases hf : first = o
    · subst hf
      rw [if_pos hlive, ExtTreeMap.getElem?_alter]
      simp [replicate_succ]
    · rw [count_cons_of_ne hf]
      split
      · rw [ExtTreeMap.getElem?_alter]
        simp [hf]
      · rfl

/-- One pass over the postings collects, for a live block, its fingerprint once for
every time a posting list names it. -/
theorem fingerprintsByOrdinal_eq (hlive : l.live.getD o false = true) :
    l.fingerprintsByOrdinal[o]?.getD [] =
      l.postings.toList.flatMap fun posting => List.replicate (posting.2.count o) posting.1 := by
  suffices hfo : ∀ (postings : List (SeriesFingerprint × List Nat))
      (byOrdinal : ExtTreeMap Nat (List SeriesFingerprint)),
      (postings.foldl (fun byOrdinal posting => posting.2.foldl
        (fun byOrdinal ordinal =>
          if l.live.getD ordinal false then
            byOrdinal.alter ordinal fun held => some (held.getD [] ++ [posting.1])
          else byOrdinal) byOrdinal) byOrdinal)[o]?.getD [] =
        byOrdinal[o]?.getD [] ++
          postings.flatMap fun posting => List.replicate (posting.2.count o) posting.1 by
    have := hfo l.postings.toList ∅
    simpa [fingerprintsByOrdinal] using this
  intro postings
  induction postings with
  | nil => intro byOrdinal; simp
  | cons posting rest ih =>
    intro byOrdinal
    rw [foldl_cons, ih, getElem?_foldl_push posting.1 hlive, flatMap_cons,
      append_assoc]

theorem mem_fingerprintsByOrdinal (hlive : l.live.getD o false = true) {fp : SeriesFingerprint} :
    fp ∈ l.fingerprintsByOrdinal[o]?.getD [] ↔ fp ∈ fingerprintsOf l.postings o := by
  rw [fingerprintsByOrdinal_eq hlive, mem_flatMap, mem_fingerprintsOf]
  constructor
  · rintro ⟨⟨fp', os⟩, hmem, hfp⟩
    obtain ⟨hne, rfl⟩ := mem_replicate.mp hfp
    exact ⟨os, ExtTreeMap.mem_toList_iff_getElem?_eq_some.mp hmem,
      count_pos_iff.mp (Nat.pos_of_ne_zero hne)⟩
  · rintro ⟨os, hos, ho⟩
    exact ⟨(fp, os), ExtTreeMap.mem_toList_iff_getElem?_eq_some.mpr hos,
      mem_replicate.mpr ⟨Nat.pos_iff_ne_zero.mp (count_pos_iff.mpr ho), rfl⟩⟩

/-- With no ordinal twice in a posting list, the pass lists the set in ascending order. -/
theorem fingerprintsByOrdinal_toList (hlive : l.live.getD o false = true)
    (hd : DistinctPostings l.postings) :
    l.fingerprintsByOrdinal[o]?.getD [] = (fingerprintsOf l.postings o).toList := by
  have hone : l.fingerprintsByOrdinal[o]?.getD [] =
      (l.postings.toList.filter fun posting => posting.2.contains o).map (·.1) := by
    rw [fingerprintsByOrdinal_eq hlive]
    have hnd : ∀ posting ∈ l.postings.toList, posting.2.Nodup := fun posting h =>
      hd posting.1 posting.2 (ExtTreeMap.mem_toList_iff_getElem?_eq_some.mp h)
    generalize l.postings.toList = postings at hnd
    induction postings with
    | nil => rfl
    | cons posting rest ih =>
      rw [flatMap_cons, ih fun p hp => hnd p (mem_cons_of_mem _ hp)]
      by_cases ho : o ∈ posting.2
      · simp [ho, count_eq_one_of_mem (hnd posting (by simp)) ho]
      · simp [ho, count_eq_zero_of_not_mem ho]
  refine (Collections.toList_eq_of_ordered ?_ fun fp => mem_fingerprintsByOrdinal hlive).symm
  rw [hone, pairwise_map]
  exact ExtTreeMap.ordered_keys_toList.filter _

/-- The listing, with each block's fingerprints read as a set, is the walk. -/
theorem Refines.metas_records (h : Refines l m) (tenant : String) :
    (l.metas tenant).map BlockRecord.ofMeta = m.walk := by
  rw [h.walk, metas, map_map]
  refine map_congr_left fun o ho => ?_
  have hset : ExtTreeSet.ofList (l.fingerprintsByOrdinal[o]?.getD []) =
      fingerprintsOf l.postings o := ExtTreeSet.ext_mem fun fp => by
    rw [ExtTreeSet.mem_ofList, contains_iff_mem,
      mem_fingerprintsByOrdinal ((h.wf.mem_order o).mp ho)]
  simp only [Function.comp_apply, BlockRecord.ofMeta, record, hset]

/-- The listing itself, when no posting list names an ordinal twice. -/
theorem Refines.metas (h : Refines l m) (hd : DistinctPostings l.postings) (tenant : String) :
    l.metas tenant = m.walk.map (BlockRecord.toMeta tenant) := by
  rw [h.walk, BlockList.metas, map_map]
  refine map_congr_left fun o ho => ?_
  simp only [Function.comp_apply, BlockRecord.toMeta, record,
    fingerprintsByOrdinal_toList ((h.wf.mem_order o).mp ho) hd]

end Metas

end KrabkaO11y.Blockstore.BlockList
