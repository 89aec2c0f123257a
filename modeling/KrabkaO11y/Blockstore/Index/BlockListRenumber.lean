import KrabkaO11y.Blockstore.Index.BlockListEdits

/-!
Decoding a block list (`ofRepr`) and renumbering it (`compacted`). Decoding yields
the records of the decoded entries, a later registration of a key winning, and
renumbering keeps the records.
-/

open Std (ExtTreeMap ExtTreeSet)

namespace KrabkaO11y.Blockstore

open List

namespace BlockList

/-! ### Decoding -/

section Decode

/-- A later registration of a key supersedes an earlier one. -/
theorem getElem?_rebuildKeys {l : BlockList} (hlive : ∀ o < l.entries.length, l.live.getD o false)
    (key : String) (o : Nat) :
    l.rebuildKeys[key]? = some o ↔ o < l.entries.length ∧ (l.entry o).objectKey = key ∧
      ∀ later < l.entries.length, o < later → (l.entry later).objectKey ≠ key := by
  suffices h : ∀ n ≤ l.entries.length,
      ((List.range n).foldl (fun byKey ordinal =>
        if l.live.getD ordinal false then byKey.insert (l.entry ordinal).objectKey ordinal
        else byKey) (∅ : ExtTreeMap String Nat))[key]? = some o ↔
        o < n ∧ (l.entry o).objectKey = key ∧
          ∀ later < n, o < later → (l.entry later).objectKey ≠ key from h _ le_rfl
  intro n
  induction n with
  | zero => simp
  | succ n ih =>
    intro hn
    rw [range_succ, foldl_append, foldl_cons, foldl_nil, if_pos (hlive n hn),
      ExtTreeMap.getElem?_insert]
    simp only [Std.compare_eq_iff_eq]
    split
    · rename_i hkey
      -- the newest ordinal has the key, so it is the one recorded
      refine ⟨fun h => ?_, fun h => ?_⟩
      · cases h
        exact ⟨by omega, hkey, fun later hl hlt => by omega⟩
      · rcases Nat.lt_or_eq_of_le (Nat.le_of_lt_succ h.1) with hlt | rfl
        · exact absurd hkey (h.2.2 n (by omega) hlt)
        · rfl
    · rename_i hkey
      rw [ih (by omega)]
      refine ⟨fun h => ⟨by omega, h.2.1, fun later hl hlt => ?_⟩, fun h => ⟨?_, h.2.1,
        fun later hl => h.2.2 later (by omega)⟩⟩
      · rcases Nat.lt_or_eq_of_le (Nat.le_of_lt_succ hl) with hn' | rfl
        · exact h.2.2 later hn' hlt
        · exact hkey
      · rcases Nat.lt_or_eq_of_le (Nat.le_of_lt_succ h.1) with hlt | rfl
        · exact hlt
        · exact absurd h.2.1 hkey

variable {l : BlockList}

@[simp] theorem rebuildDerived_entries : l.rebuildDerived.entries = l.entries := by
  simp [rebuildDerived]
@[simp] theorem rebuildDerived_postings : l.rebuildDerived.postings = l.postings := by
  simp [rebuildDerived]
@[simp] theorem rebuildDerived_byKey : l.rebuildDerived.byKey = l.rebuildKeys := by
  simp [rebuildDerived]
@[simp] theorem rebuildDerived_entry (o : Nat) : l.rebuildDerived.entry o = l.entry o := by
  simp [entry]

theorem mem_rebuildDerived_order {o : Nat} : o ∈ l.rebuildDerived.order ↔
    o < l.entries.length ∧ l.rebuildKeys[(l.entry o).objectKey]? = some o := by
  simp [rebuildDerived, (mergeSort_perm _ _).mem_iff]

theorem rebuildDerived_wf (hlive : ∀ o < l.entries.length, l.live.getD o false)
    (hpostings : ∀ (fp : SeriesFingerprint) (os : List Nat), l.postings[fp]? = some os →
      ∀ o ∈ os, o < l.entries.length) :
    Wf l.rebuildDerived := by
  have hnd : l.rebuildDerived.order.Nodup := by
    simp only [rebuildDerived, refreshFrom_order]
    exact (mergeSort_perm _ _).nodup_iff.mpr (nodup_range.filter _)
  have hlt : ∀ o ∈ l.rebuildDerived.order, o < l.entries.length := fun o h =>
    (mem_rebuildDerived_order.mp h).1
  -- the refresh starts at 0, so it asks nothing of the cleared columns
  have hco : Columns l.rebuildDerived l.rebuildDerived.order.length ∧
      Placed l.rebuildDerived := by
    rw [show l.rebuildDerived.order.length = _ from congrArg List.length (refreshFrom_order _ 0)]
    refine refreshFrom_columns ⟨?_, ?_, by simp, fun o _ => ?_⟩ 0 (Nat.zero_le _)
      (Nat.zero_le _) (Nat.zero_le _) (fun i hi => absurd hi (Nat.not_lt_zero i))
      (fun i hi => absurd hi (Nat.not_lt_zero i)) (fun i hi => absurd hi (Nat.not_lt_zero i))
    · simpa [rebuildDerived] using hnd
    · simpa [rebuildDerived] using hlt
    · simp only [getD_eq_getElem?_getD, getElem?_replicate]
      split <;> rfl
  have hso : l.rebuildDerived.order.Pairwise
      fun left right => (l.entry left).orderKey ≤ (l.entry right).orderKey := by
    simp only [rebuildDerived, refreshFrom_order]
    exact Collections.pairwise_mergeSort_key (fun o => (l.entry o).orderKey) _
  have hst : Sorted l.rebuildDerived := by
    refine (hso.and hnd).imp_of_mem fun {a b} ha hb h => ?_
    simp only [rebuildDerived_entry]
    refine lt_of_le_of_ne h.1 fun heq => h.2 ?_
    have hkey := (blockOrderKey_inj heq).2.2
    have := (mem_rebuildDerived_order.mp ha).2
    rw [hkey, (mem_rebuildDerived_order.mp hb).2] at this
    exact (Option.some.inj this).symm
  exact
    { placed := hco.2
      columns := hco.1
      sorted := hst
      live_len := by simp [rebuildDerived]
      mem_order := by
        intro o
        rw [mem_rebuildDerived_order]
        simp only [rebuildDerived, refreshFrom_live, getD_eq_getElem?_getD, getElem?_map]
        by_cases h : o < l.entries.length
        · simp [h]
        · simp [h]
      byKey_iff := by
        intro key o
        rw [mem_rebuildDerived_order, rebuildDerived_byKey, rebuildDerived_entry]
        refine ⟨fun h => ?_, fun h => h.2 ▸ h.1.2⟩
        have hkey := (getElem?_rebuildKeys hlive key o).mp h
        exact ⟨⟨hkey.1, hkey.2.1 ▸ h⟩, hkey.2.1⟩
      postings_lt := by rw [rebuildDerived_entries, rebuildDerived_postings]; exact hpostings }

/-- A list that `ofRepr` starts from: every entry live. -/
theorem live_replicate {n o : Nat} (h : o < n) : (List.replicate n true).getD o false = true := by
  simp [getD_eq_getElem?_getD, h]

variable {repr : BlockListRepr}

theorem ofRepr_wf (hb : repr.Bounded) : Wf (ofRepr repr) :=
  rebuildDerived_wf (fun _ ho => live_replicate ho) hb

theorem ofRepr_record (o : Nat) : (ofRepr repr).record o = repr.record o :=
  record_congr (by simp [ofRepr, entry]) (by simp [ofRepr])

theorem getElem?_ofRepr_byKey (key : String) (o : Nat) :
    (ofRepr repr).byKey[key]? = some o ↔ o < repr.entries.length ∧
      (repr.record o).objectKey = key ∧
      ∀ later < repr.entries.length, o < later → (repr.record later).objectKey ≠ key := by
  rw [ofRepr, rebuildDerived_byKey, getElem?_rebuildKeys fun _ ho => live_replicate ho]
  rfl

theorem ofRepr_lookup (key : String) :
    (Registry.ofRepr repr)[key]? = ((ofRepr repr).byKey[key]?).map repr.record := by
  rw [Registry.ofRepr, Collections.getElem?_foldl_insert _ repr.record key _ ∅ ∅ (by simp), ofRepr,
    rebuildDerived_byKey, rebuildKeys]
  congr 2
  refine foldl_ext _ _ _ fun m o ho => ?_
  rw [if_pos (live_replicate (mem_range.mp ho))]
  rfl

/-- Decoding yields the records of the bytes. -/
theorem ofRepr_refines (hb : repr.Bounded) :
    Refines (ofRepr repr) (Registry.ofRepr repr) where
  wf := ofRepr_wf hb
  lookup key := by
    rw [ofRepr_lookup, show (ofRepr repr).record = repr.record from funext ofRepr_record]

end Decode

/-! ### Renumbering -/

section Compact

variable {l : BlockList}

/-- The state of the renumbering loop once it has kept the ordinals `kept`. -/
structure Renumbered (l : BlockList) (kept : List Nat)
    (state : ExtTreeMap Nat Nat × List BlockEntry) : Prop where
  nodup : kept.Nodup
  entries : state.2 = kept.map l.entry
  remap : ∀ o i : Nat, state.1[o]? = some i ↔ kept[i]? = some o

theorem Renumbered.step {kept : List Nat} {state : ExtTreeMap Nat Nat × List BlockEntry}
    (h : Renumbered l kept state) {o : Nat} (hnew : o ∉ kept) :
    Renumbered l (kept ++ [o].filter fun o => l.live.getD o false) (l.compactOrdinal state o) := by
  unfold compactOrdinal
  by_cases hlv : l.live.getD o false = true
  · simp only [if_pos hlv, filter_cons, filter_nil]
    refine ⟨?_, by simp [h.entries], fun o' i => ?_⟩
    · rw [nodup_append]
      exact ⟨h.nodup, by simp, by simpa using fun a ha => (fun e => hnew (e ▸ ha) : a ≠ o)⟩
    · have hlen : state.2.length = kept.length := by simp [h.entries]
      rw [ExtTreeMap.getElem?_insert, hlen]
      simp only [Std.compare_eq_iff_eq]
      split
      · rename_i heq
        subst heq
        rw [Option.some_inj, getElem?_append]
        split
        · rename_i hi
          refine ⟨fun h => by omega, fun h => absurd (mem_of_getElem? h) hnew⟩
        · rename_i hi
          rw [getElem?_singleton]
          split <;> simp <;> omega
      · rename_i hne
        rw [h.remap, getElem?_append]
        split
        · rfl
        · rename_i hi
          rw [getElem?_singleton, getElem?_eq_none (by omega)]
          split <;> simp [hne]
  · simpa only [if_neg hlv, filter_cons, filter_nil, append_nil] using h

theorem renumbered_range (n : Nat) :
    Renumbered l ((List.range n).filter fun o => l.live.getD o false)
      ((List.range n).foldl l.compactOrdinal (∅, [])) := by
  induction n with
  | zero => exact ⟨by simp, by simp, by simp⟩
  | succ n ih =>
    rw [range_succ, filter_append, foldl_append, foldl_cons, foldl_nil]
    exact ih.step (by simp)

/-- The ordinals that a renumbering keeps, in the order it keeps them. -/
def liveOrdinals (l : BlockList) : List Nat :=
  (List.range l.entries.length).filter fun o => l.live.getD o false

/-- The bytes that `compacted` decodes. -/
def compactedRepr (l : BlockList) : BlockListRepr :=
  let state := (List.range l.entries.length).foldl l.compactOrdinal (∅, [])
  ⟨state.2, l.postings.filterMap fun _ ordinals => remapOrdinals state.1 ordinals⟩

theorem compacted_eq : l.compacted = ofRepr l.compactedRepr := rfl

theorem compactedRepr_entries : l.compactedRepr.entries = l.liveOrdinals.map l.entry :=
  (renumbered_range _).entries

/-- The ordinals `kept` of `l`, renumbered from zero. -/
structure CutAlong (l : BlockList) (kept : List Nat) (repr : BlockListRepr) : Prop where
  nodup : kept.Nodup
  entries : repr.entries = kept.map l.entry
  postings : ∀ (fp : SeriesFingerprint) (i : Nat),
    (∃ os, repr.postings[fp]? = some os ∧ i ∈ os) ↔
      ∃ os o, l.postings[fp]? = some os ∧ o ∈ os ∧ kept[i]? = some o

section Cut

variable {kept : List Nat} {repr : BlockListRepr}

theorem CutAlong.bounded (h : CutAlong l kept repr) : repr.Bounded := by
  intro fp os hos i hi
  obtain ⟨_, o, _, _, hk⟩ := (h.postings fp i).mp ⟨os, hos, hi⟩
  rw [h.entries, length_map]
  exact (List.getElem?_eq_some_iff.mp hk).1

theorem CutAlong.record (h : CutAlong l kept repr) {i o : Nat} (hi : kept[i]? = some o) :
    repr.record i = l.record o := by
  refine record_congr ?_ ?_
  · simp [entry, h.entries, getD_eq_getElem?_getD, hi]
  · refine ExtTreeSet.ext_mem fun fp => ?_
    rw [mem_fingerprintsOf, mem_fingerprintsOf, h.postings]
    simp only [hi, Option.some.injEq]
    constructor
    · rintro ⟨os, o', hos, ho', heq⟩
      exact ⟨os, hos, heq ▸ ho'⟩
    · rintro ⟨os, hos, ho⟩
      exact ⟨os, o, hos, ho, rfl⟩

/-- Live blocks have distinct keys, so every kept entry is the last of its key. -/
theorem CutAlong.getElem?_byKey (h : CutAlong l kept repr) (hw : Wf l)
    (live : ∀ o ∈ kept, o ∈ l.order) (key : String) (i : Nat) :
    (ofRepr repr).byKey[key]? = some i ↔
      ∃ o, kept[i]? = some o ∧ (l.entry o).objectKey = key := by
  have hlen : repr.entries.length = kept.length := by rw [h.entries, length_map]
  have hget : ∀ j < kept.length, ∃ o, kept[j]? = some o ∧ repr.record j = l.record o :=
    fun j hj => ⟨_, getElem?_eq_getElem hj, h.record (getElem?_eq_getElem hj)⟩
  rw [getElem?_ofRepr_byKey, hlen]
  constructor
  · rintro ⟨hi, hkey, -⟩
    obtain ⟨o, ho, hrec⟩ := hget i hi
    exact ⟨o, ho, by rw [hrec] at hkey; exact hkey⟩
  · rintro ⟨o, ho, hkey⟩
    have hi := (List.getElem?_eq_some_iff.mp ho).1
    refine ⟨hi, by rw [h.record ho]; exact hkey, fun j hj hlt hsm => ?_⟩
    obtain ⟨o', ho', hrec⟩ := hget j hj
    rw [hrec] at hsm
    have hone := (hw.byKey_iff key o').mpr ⟨live o' (mem_of_getElem? ho'), hsm⟩
    rw [(hw.byKey_iff key o).mpr ⟨live o (mem_of_getElem? ho), hkey⟩, Option.some_inj] at hone
    rw [← hone, ← ho] at ho'
    have := (getElem?_inj hj h.nodup).mp ho'
    omega

end Cut

theorem compactedRepr_cut : CutAlong l l.liveOrdinals l.compactedRepr where
  nodup := (renumbered_range l.entries.length).nodup
  entries := compactedRepr_entries
  postings fp i := by
    have hr := renumbered_range (l := l) l.entries.length
    simp only [compactedRepr, ExtTreeMap.getElem?_filterMap']
    cases l.postings[fp]? with
    | none => simp
    | some os =>
      simp only [Option.bind_some, remapOrdinals]
      have hmem : i ∈ os.filterMap (fun o =>
          ((List.range l.entries.length).foldl l.compactOrdinal (∅, [])).1[o]?) ↔
          ∃ o ∈ os, l.liveOrdinals[i]? = some o := by
        simp only [mem_filterMap, hr.remap]
        rfl
      split
      · rename_i hem
        rw [List.isEmpty_iff.mp hem] at hmem
        simpa using hmem
      · simpa using hmem

theorem mem_liveOrdinals (hw : Wf l) {o : Nat} : o ∈ l.liveOrdinals ↔ o ∈ l.order := by
  rw [liveOrdinals, mem_filter, mem_range, ← hw.mem_order]
  exact ⟨fun h => h.2, fun h => ⟨hw.lt h, h⟩⟩

theorem getElem?_compacted_byKey (hw : Wf l) (key : String) (i : Nat) :
    l.compacted.byKey[key]? = some i ↔
      ∃ o, l.liveOrdinals[i]? = some o ∧ (l.entry o).objectKey = key :=
  compactedRepr_cut.getElem?_byKey hw (fun _ ho => (mem_liveOrdinals hw).mp ho) key i

/-- Renumbering keeps the records. -/
theorem Refines.compacted {m : Registry} (h : Refines l m) : Refines l.compacted m := by
  refine ⟨ofRepr_wf compactedRepr_cut.bounded, fun key => ?_⟩
  rw [h.lookup]
  cases hkey : l.byKey[key]? with
  | some o =>
    obtain ⟨hmem, hnm⟩ := (h.wf.byKey_iff key o).mp hkey
    obtain ⟨i, hi⟩ := mem_iff_getElem?.mp ((mem_liveOrdinals h.wf).mpr hmem)
    rw [(getElem?_compacted_byKey h.wf key i).mpr ⟨o, hi, hnm⟩]
    simp only [Option.map_some, compacted_eq, ofRepr_record, compactedRepr_cut.record hi]
  | none =>
    cases hnew : l.compacted.byKey[key]? with
    | none => rfl
    | some i =>
      obtain ⟨o, ho, hnm⟩ := (getElem?_compacted_byKey h.wf key i).mp hnew
      have := (h.wf.byKey_iff key o).mpr
        ⟨(mem_liveOrdinals h.wf).mp (mem_of_getElem? ho), hnm⟩
      rw [hkey] at this
      exact absurd this (by simp)

theorem Refines.compactIfMostlyDead {m : Registry} (h : Refines l m) :
    Refines l.compactIfMostlyDead m := by
  unfold BlockList.compactIfMostlyDead
  split
  · exact h.compacted
  · exact h

end Compact

end BlockList

end KrabkaO11y.Blockstore
