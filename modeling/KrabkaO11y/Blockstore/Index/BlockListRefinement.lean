import KrabkaO11y.Blockstore.Index.BlockListRenumber
import KrabkaO11y.Blockstore.Index.BlockListQueries

/-!
Every operation of a block list keeps `Refines`, so after any sequence of insertions
and removals every query answers as a walk over the last registered, not since
removed record of each key does (`queries_refine_registry`).

A restated block keeps its posting lists when size and digest agree; that is the one
place where `NoCollision` is used. The size and digest of a decoded entry are those that it
records, which the decoder does not compare with its postings: an entry that records those of
another set is not registered again with that set.
-/

open Std (ExtTreeMap ExtTreeSet)

namespace KrabkaO11y.Blockstore

open List

namespace BlockList

/-! ### The operations -/

section Operations

variable {l : BlockList} {m : Registry} {rs : List Registration} {block : BlockMeta}

variable {o : Nat}

/-- Retiring an ordinal erases the record under its key. -/
theorem Refines.retire (h : Refines l m) (ho : o ∈ l.order) :
    Refines (l.retire o).2 (m.erase (l.entry o).objectKey) := by
  obtain ⟨-, entries, postings, -, byKey⟩ := retire_fields h.wf ho
  refine ⟨retire_wf h.wf ho, fun key => ?_⟩
  have hrec : (l.retire o).2.record = l.record := funext fun o' =>
    record_congr (by simp only [entry, entries]) (by rw [postings])
  rw [byKey, hrec, ExtTreeMap.getElem?_erase, ExtTreeMap.getElem?_erase, h.lookup]
  split <;> rfl

/-- Retiring registers nothing. -/
theorem Registered.retire (hw : Wf l) (h : Registered l rs) (ho : o ∈ l.order) :
    Registered (l.retire o).2 rs := by
  obtain ⟨-, entries, postings, -, -⟩ := retire_fields hw ho
  intro o' ho'
  rw [(retire_order hw ho).1] at ho'
  have := h o' (mem_of_mem_erase ho')
  simpa only [registration, entry, entries, postings] using this

theorem Registered.compactIfMostlyDead (hw : Wf l) (h : Registered l rs) :
    Registered l.compactIfMostlyDead rs := by
  unfold BlockList.compactIfMostlyDead
  split
  · intro i hi
    have hkey := ((ofRepr_wf compactedRepr_cut.bounded).byKey_iff _ i).mpr ⟨hi, rfl⟩
    obtain ⟨o, ho, -⟩ := (getElem?_compacted_byKey hw _ i).mp hkey
    have he : l.compacted.entry i = l.entry o := by
      simp [compacted_eq, ofRepr, entry, compactedRepr_entries, getD_eq_getElem?_getD, ho]
    have hfps : fingerprintsOf l.compacted.postings i = fingerprintsOf l.postings o :=
      congrArg BlockRecord.fingerprints ((ofRepr_record i).trans (compactedRepr_cut.record ho))
    rw [registration, he, hfps]
    exact h o ((mem_liveOrdinals hw).mp (mem_of_getElem? ho))
  · exact h

/-- A block registered under a free key. -/
theorem Refines.append (h : Refines l m) (hr : Registered l rs)
    (hmem : Registration.ofMeta block ∈ rs) (free : l.byKey[block.objectKey]? = none) :
    Refines (l.append block (ExtTreeSet.ofList block.fingerprints)
        (fingerprintSetDigest (ExtTreeSet.ofList block.fingerprints).toList))
        (m.register block) ∧
      Registered (l.append block (ExtTreeSet.ofList block.fingerprints)
        (fingerprintSetDigest (ExtTreeSet.ofList block.fingerprints).toList)) rs := by
  set fps := ExtTreeSet.ofList block.fingerprints with hfps
  set digest := fingerprintSetDigest fps.toList with hdig
  have hattach : Wf ((l.push block fps digest).attach l.entries.length) :=
    (push_lacks h.wf free).attach_wf
  have hrec : ∀ o, ((l.push block fps digest).attach l.entries.length).record o =
      (l.push block fps digest).record o := fun o => record_congr (by simp) (by simp)
  have hnew : (l.push block fps digest).record l.entries.length = .ofMeta block := by
    simp only [record, push_entry_new, push_fingerprints_new h.wf]
    rfl
  have grown : Refines ((l.push block fps digest).attach l.entries.length) (m.register block) := by
    refine ⟨hattach, fun key => ?_⟩
    rw [attach_byKey, Registry.register, ExtTreeMap.getElem?_insert,
      show (l.push block fps digest).byKey = l.byKey.insert block.objectKey l.entries.length
        from rfl,
      ExtTreeMap.getElem?_insert, h.lookup]
    split
    · rw [Option.map_some, hrec, hnew]
    · cases hkey : l.byKey[key]? with
      | none => rfl
      | some o =>
        rw [Option.map_some, Option.map_some, hrec,
          push_record_old (h.wf.lt ((h.wf.byKey_iff _ _).mp hkey).1)]
  refine ⟨grown.compactIfMostlyDead, Registered.compactIfMostlyDead hattach fun o ho => ?_⟩
  simp only [registration, attach_entry, attach_postings]
  rcases mem_attach_order.mp ho with rfl | ho
  · rw [push_entry_new, push_fingerprints_new h.wf]
    exact hmem
  · rw [push_entry_old (h.wf.lt ho), push_fingerprints_old (h.wf.lt ho)]
    exact hr o ho

/-- Restating keeps size, digest and set. -/
theorem Registered.restate (hw : Wf l) (hr : Registered l rs) (ho : o ∈ l.order)
    (block : BlockMeta) : Registered (l.restate o block) rs := by
  obtain ⟨entries, byKey, postings⟩ := restate_fields l o block
  have he : ∀ o', (l.restate o block).entry o' = (l.restateEntry o block).entry o' :=
    fun o' => by simp only [entry, entries]
  intro o' ho'
  have hmem : o' ∈ l.order := by
    have := ((restate_wf hw ho block).byKey_iff _ o').mpr ⟨ho', rfl⟩
    rw [byKey] at this
    exact ((hw.byKey_iff _ _).mp this).1
  have := hr o' hmem
  simp only [registration, he, restateEntry_entry (hw.lt ho), postings] at this ⊢
  split
  · rename_i heq; subst heq; exact this
  · exact this

/-- A block restated with the size and digest its entry has: the sets agree, so only
the other fields change. -/
theorem Refines.restate (h : Refines l m) (hr : Registered l rs) (hn : NoCollision rs)
    (hmem : Registration.ofMeta block ∈ rs) (hkey : l.byKey[block.objectKey]? = some o)
    (hsize : (l.entry o).fingerprintCount =
      UInt64.ofNat (ExtTreeSet.ofList block.fingerprints).size)
    (hdig : (l.entry o).fingerprintDigest =
      fingerprintSetDigest (ExtTreeSet.ofList block.fingerprints).toList) :
    Refines (l.restate o block) (m.register block) := by
  obtain ⟨ho, name⟩ := (h.wf.byKey_iff _ _).mp hkey
  have hlt := h.wf.lt ho
  obtain ⟨entries, hbyKey, hpostings⟩ := restate_fields l o block
  have sets : fingerprintsOf l.postings o = ExtTreeSet.ofList block.fingerprints :=
    hn _ (hr o ho) _ hmem name hsize hdig
  have he : ∀ o', (l.restate o block).entry o' = (l.restateEntry o block).entry o' :=
    fun o' => by simp only [entry, entries]
  refine ⟨restate_wf h.wf ho block, fun key => ?_⟩
  rw [hbyKey, Registry.register, ExtTreeMap.getElem?_insert, h.lookup]
  simp only [Std.compare_eq_iff_eq]
  split
  · rename_i heq
    subst heq
    rw [hkey, Option.map_some, Option.some_inj]
    simp only [record, he, restateEntry_entry hlt, hpostings, sets, name, if_true]
    rfl
  · rename_i hne
    cases other : l.byKey[key]? with
    | none => rfl
    | some o' =>
      have diff : o ≠ o' := by
        rintro rfl
        exact hne (name.symm.trans ((h.wf.byKey_iff _ _).mp other).2)
      rw [Option.map_some, Option.map_some, Option.some_inj]
      refine record_congr ?_ (by rw [hpostings])
      rw [he, restateEntry_entry hlt, if_neg diff]

/-- A retired key is free to be attached again. -/
theorem retire_frees (hw : Wf l) (hkey : l.byKey[block.objectKey]? = some o) :
    (l.retire o).2.byKey[block.objectKey]? = none := by
  obtain ⟨ho, name⟩ := (hw.byKey_iff _ _).mp hkey
  rw [(retire_fields hw ho).2.2.2.2, name]
  simp

/-- One insertion keeps the structures in agreement, whatever its set collides with. -/
theorem Refines.insert_wf (h : Refines l m) (hr : Registered l rs)
    (hmem : Registration.ofMeta block ∈ rs) :
    Wf (l.insert block) ∧ Registered (l.insert block) rs := by
  simp only [BlockList.insert]
  cases hkey : l.byKey[block.objectKey]? with
  | none => exact (h.append hr hmem hkey).imp Refines.wf id
  | some o =>
    have ho := ((h.wf.byKey_iff _ _).mp hkey).1
    simp only
    split
    · exact ⟨restate_wf h.wf ho block, hr.restate h.wf ho block⟩
    · exact ((h.retire ho).append (hr.retire h.wf ho) hmem (retire_frees h.wf hkey)).imp
        Refines.wf id

/-- One insertion registers the block. -/
theorem Refines.insert (h : Refines l m) (hr : Registered l rs) (hn : NoCollision rs)
    (hmem : Registration.ofMeta block ∈ rs) : Refines (l.insert block) (m.register block) := by
  simp only [BlockList.insert]
  cases hkey : l.byKey[block.objectKey]? with
  | none => exact (h.append hr hmem hkey).1
  | some o =>
    obtain ⟨ho, name⟩ := (h.wf.byKey_iff _ _).mp hkey
    simp only
    split
    · rename_i same
      exact h.restate hr hn hmem hkey same.1 same.2
    · -- the old ordinal is retired, which frees the key for a new one
      have happend :=
        ((h.retire ho).append (hr.retire h.wf ho) hmem (retire_frees h.wf hkey)).1
      have hover :
          Registry.register (m.erase (l.entry o).objectKey) block = m.register block := by
        refine ExtTreeMap.ext_getElem? fun key => ?_
        simp only [Registry.register, ExtTreeMap.getElem?_insert, ExtTreeMap.getElem?_erase, name]
        split <;> rfl
      rwa [hover] at happend

/-- Removing a key erases its record, if there is one. -/
theorem Refines.removeKey {n : Nat} (h : Refines l m) (hr : Registered l rs) (key : String) :
    Refines (BlockList.removeKey (n, l) key).2 (m.erase key) ∧
      Registered (BlockList.removeKey (n, l) key).2 rs := by
  simp only [BlockList.removeKey]
  cases hkey : l.byKey[key]? with
  | some o =>
    obtain ⟨ho, rfl⟩ := (h.wf.byKey_iff _ _).mp hkey
    exact ⟨h.retire ho, hr.retire h.wf ho⟩
  | none =>
    have same : m.erase key = m := by
      refine ExtTreeMap.ext_getElem? fun k => ?_
      rw [ExtTreeMap.getElem?_erase]
      simp only [Std.compare_eq_iff_eq]
      split
      · rename_i heq; subst heq; rw [h.lookup, hkey]; rfl
      · rfl
    rw [same]
    exact ⟨h, hr⟩

/-- Removing keys erases their records and registers nothing. -/
theorem Refines.remove (h : Refines l m) (hr : Registered l rs) (keys : ExtTreeSet String) :
    Refines (l.remove keys).2 (m.removeAll keys) ∧ Registered (l.remove keys).2 rs := by
  suffices hfold : ∀ (ks : List String) (n : Nat) (l : BlockList) (m : Registry), Refines l m →
      Registered l rs → Refines (ks.foldl BlockList.removeKey (n, l)).2
          (ks.foldl (fun m key => m.erase key) m) ∧
        Registered (ks.foldl BlockList.removeKey (n, l)).2 rs by
    obtain ⟨h', hr'⟩ := hfold keys.toList 0 l m h hr
    exact ⟨h'.compactIfMostlyDead, Registered.compactIfMostlyDead h'.wf hr'⟩
  intro ks
  induction ks with
  | nil => intro n l m h hr; exact ⟨h, hr⟩
  | cons key ks ih =>
    intro n l m h hr
    obtain ⟨h', hr'⟩ := h.removeKey (n := n) hr key
    exact ih _ _ _ h' hr'

end Operations

/-! ### The order within posting lists -/

/-- Every posting list is pairwise related. -/
def PairwisePostings (r : Nat → Nat → Prop)
    (postings : ExtTreeMap SeriesFingerprint (List Nat)) : Prop :=
  ∀ (fp : SeriesFingerprint) (ordinals : List Nat), postings[fp]? = some ordinals →
    ordinals.Pairwise r

/-- A relation that depends only on how two ordinals compare, and holds of ascending ones:
being distinct, or ascending. -/
structure OrderInvariant (r : Nat → Nat → Prop) : Prop where
  of_lt : ∀ a b, a < b → r a b
  transfer : ∀ a b a' b', (a < b ↔ a' < b') → (b < a ↔ b' < a') → r a b → r a' b'

theorem orderInvariant_ne : OrderInvariant (· ≠ ·) := ⟨by omega, by omega⟩

theorem orderInvariant_lt : OrderInvariant (· < ·) := ⟨by omega, by omega⟩

theorem orderInvariant_le : OrderInvariant (· ≤ ·) := ⟨by omega, by omega⟩

section Postings

variable {r : Nat → Nat → Prop} {l : BlockList} {m : Registry} {block : BlockMeta}

section

variable (hr : OrderInvariant r)
include hr

/-- Renumbering along an ascending list keeps how ordinals compare. -/
theorem OrderInvariant.renumber {kept : List Nat}
    (hk : kept.Pairwise (· < ·)) {remap : Nat → Option Nat}
    (hremap : ∀ o i, remap o = some i → kept[i]? = some o) {ordinals : List Nat}
    (h : ordinals.Pairwise r) : (ordinals.filterMap remap).Pairwise r := by
  have compare : ∀ {i j o o' : Nat}, kept[i]? = some o → kept[j]? = some o' → (i < j ↔ o < o') := by
    intro i j o o' hi hj
    obtain ⟨hilt, rfl⟩ := List.getElem?_eq_some_iff.mp hi
    obtain ⟨hjlt, rfl⟩ := List.getElem?_eq_some_iff.mp hj
    rw [pairwise_iff_getElem] at hk
    constructor
    · exact fun hlt => hk i j hilt hjlt hlt
    · intro hlt
      rcases lt_trichotomy i j with h | h | h
      · exact h
      · subst h; omega
      · have := hk j i hjlt hilt h; omega
  rw [pairwise_filterMap]
  refine h.imp fun hrel i hi j hj => ?_
  exact hr.transfer _ _ _ _ (compare (hremap _ _ hi) (hremap _ _ hj)).symm
    (compare (hremap _ _ hj) (hremap _ _ hi)).symm hrel

/-- Compaction keeps how posting lists are ordered. -/
theorem compacted_pairwise (h : PairwisePostings r l.postings) :
    PairwisePostings r l.compacted.postings := by
  intro fp os hos
  rw [compacted_eq, ofRepr, rebuildDerived_postings, compactedRepr,
    ExtTreeMap.getElem?_filterMap'] at hos
  obtain ⟨held, hh, hk⟩ := Option.bind_eq_some_iff.mp hos
  simp only [remapOrdinals] at hk
  split at hk
  · exact absurd hk (by simp)
  · cases hk
    have hasc : l.liveOrdinals.Pairwise (· < ·) := pairwise_lt_range.filter _
    refine hr.renumber hasc (fun o i hi => ?_) (h fp held hh)
    exact ((renumbered_range (l := l) _).remap o i).mp hi

theorem compactIfMostlyDead_pairwise (h : PairwisePostings r l.postings) :
    PairwisePostings r l.compactIfMostlyDead.postings := by
  unfold BlockList.compactIfMostlyDead
  split
  · exact compacted_pairwise hr h
  · exact h

/-- A new ordinal is greater than all in its posting lists. -/
theorem append_pairwise (hw : Wf l) (h : PairwisePostings r l.postings)
    (fps : ExtTreeSet SeriesFingerprint) (digest : UInt64) :
    PairwisePostings r (l.append block fps digest).postings := by
  refine compactIfMostlyDead_pairwise hr fun fp os hos => ?_
  rw [attach_postings, getElem?_push_postings] at hos
  split at hos
  · cases hos
    cases hh : l.postings[fp]? with
    | none => simp
    | some held =>
      rw [Option.getD_some, pairwise_append]
      refine ⟨h fp held hh, by simp, fun o ho o' ho' => hr.of_lt _ _ ?_⟩
      have := hw.postings_lt fp held hh o ho
      rwa [mem_singleton.mp ho']
  · exact h fp os hos

theorem insert_pairwise (hw : Wf l) (h : PairwisePostings r l.postings) :
    PairwisePostings r (l.insert block).postings := by
  simp only [BlockList.insert]
  cases hkey : l.byKey[block.objectKey]? with
  | none => exact append_pairwise hr hw h _ _
  | some o =>
    have ho := ((hw.byKey_iff _ _).mp hkey).1
    simp only
    split
    · rw [(restate_fields l o block).2.2]; exact h
    · refine append_pairwise hr (retire_wf hw ho) ?_ _ _
      rw [(retire_fields hw ho).2.2.1]; exact h

end

/-- Removal leaves the postings; the dead ordinals in them are skipped. -/
theorem removeKey_postings (hw : Wf l) (n : Nat) (key : String) :
    (BlockList.removeKey (n, l) key).2.postings = l.postings := by
  simp only [BlockList.removeKey]
  cases hkey : l.byKey[key]? with
  | none => rfl
  | some o => exact (retire_fields hw ((hw.byKey_iff _ _).mp hkey).1).2.2.1

theorem removeKey_wf (hw : Wf l) (n : Nat) (key : String) :
    Wf (BlockList.removeKey (n, l) key).2 := by
  simp only [BlockList.removeKey]
  cases hkey : l.byKey[key]? with
  | none => exact hw
  | some o => exact retire_wf hw ((hw.byKey_iff _ _).mp hkey).1

theorem remove_pairwise (hr : OrderInvariant r) (hw : Wf l) (h : PairwisePostings r l.postings)
    (keys : ExtTreeSet String) : PairwisePostings r (l.remove keys).2.postings := by
  suffices hfold : ∀ (ks : List String) (n : Nat) (l : BlockList), Wf l →
      PairwisePostings r l.postings →
      PairwisePostings r (ks.foldl BlockList.removeKey (n, l)).2.postings from
    compactIfMostlyDead_pairwise hr (hfold keys.toList 0 l hw h)
  intro ks
  induction ks with
  | nil => intro n l _ h; exact h
  | cons key ks ih =>
    intro n l hw h
    exact ih _ _ (removeKey_wf hw n key) ((removeKey_postings hw n key).symm ▸ h)

end Postings

/-! ### Whole runs -/

/-- The edits of a block list. -/
inductive Edit where
  | insert (block : BlockMeta)
  | remove (keys : ExtTreeSet String)

def Edit.apply (l : BlockList) : Edit → BlockList
  | .insert block => l.insert block
  | .remove keys => (l.remove keys).2

/-- What the edit means for the records. -/
def Edit.register (m : Registry) : Edit → Registry
  | .insert block => m.register block
  | .remove keys => m.removeAll keys

def Edit.registrations : Edit → List Registration
  | .insert block => [.ofMeta block]
  | .remove _ => []

/-- Where a block list starts: empty, or decoded. -/
def start : Option BlockListRepr → BlockList
  | none => {}
  | some repr => ofRepr repr

def startRegistry : Option BlockListRepr → Registry
  | none => ∅
  | some repr => Registry.ofRepr repr

/-- The sets that a list starts with, each with its own size and digest. -/
def startRegistrations : Option BlockListRepr → List Registration
  | none => []
  | some repr => (List.range repr.entries.length).map fun ordinal => .ofRecord (repr.record ordinal)

section Runs

variable {l : BlockList} {m : Registry} {rs : List Registration}

theorem empty_wf : Wf {} where
  placed := ⟨by simp, by simp, rfl, by simp⟩
  columns := ⟨rfl, rfl, by simp, by simp, by simp⟩
  sorted := by simp [Sorted]
  live_len := rfl
  mem_order := by simp
  byKey_iff := by simp
  postings_lt := by simp

/-- An empty list, or a decoded one that records its own sets, refines its registry. -/
theorem start_refines (from? : Option BlockListRepr) (bounded : ∀ repr ∈ from?, repr.Bounded)
    (own : ∀ repr ∈ from?, RecordsOwnSets repr) :
    Refines (start from?) (startRegistry from?) ∧
      Registered (start from?) (startRegistrations from?) := by
  cases from? with
  | none => exact ⟨⟨empty_wf, by simp [start, startRegistry]⟩, by simp [Registered, start]⟩
  | some repr =>
    have refines := ofRepr_refines (bounded repr rfl)
    refine ⟨refines, fun o ho => ?_⟩
    have below : o < repr.entries.length := by simpa [ofRepr] using refines.wf.lt ho
    exact mem_map.mpr ⟨o, mem_range.mpr below, (own repr rfl o below).symm⟩

/-! The ordinals in use: an edit adds at most one. -/

theorem length_compactIfMostlyDead_le (l : BlockList) :
    l.compactIfMostlyDead.entries.length ≤ l.entries.length := by
  rw [compactIfMostlyDead]
  split
  · rw [compacted_eq, ofRepr, rebuildDerived_entries, compactedRepr_entries, length_map]
    exact (length_filter_le _ _).trans_eq length_range
  · exact le_rfl

/-- An insertion uses at most one new ordinal. -/
theorem length_insert_le (hw : Wf l) (block : BlockMeta) :
    (l.insert block).entries.length ≤ l.entries.length + 1 := by
  have append : ∀ (l : BlockList) fps digest,
      (l.append block fps digest).entries.length ≤ l.entries.length + 1 := by
    intro l fps digest
    refine (length_compactIfMostlyDead_le _).trans_eq ?_
    rw [attach_entries, push, length_append, length_singleton]
  simp only [BlockList.insert]
  cases hkey : l.byKey[block.objectKey]? with
  | none => exact append l _ _
  | some o =>
    simp only
    split
    · simp [(restate_fields l o block).1, restateEntry]
    · rw [← (retire_fields hw ((hw.byKey_iff _ _).mp hkey).1).2.1]
      exact append _ _ _

theorem length_remove_le (hw : Wf l) (keys : ExtTreeSet String) :
    (l.remove keys).2.entries.length ≤ l.entries.length := by
  suffices same : ∀ (ks : List String) (n : Nat) (l : BlockList), Wf l →
      (ks.foldl BlockList.removeKey (n, l)).2.entries = l.entries from
    (length_compactIfMostlyDead_le _).trans_eq (by rw [same _ _ l hw])
  intro ks
  induction ks with
  | nil => exact fun _ _ _ => rfl
  | cons key ks ih =>
    intro n l hw
    refine (ih _ _ (removeKey_wf hw n key)).trans ?_
    simp only [BlockList.removeKey]
    cases hkey : l.byKey[key]? with
    | none => rfl
    | some o => exact (retire_fields hw ((hw.byKey_iff _ _).mp hkey).1).2.1

/-- A run of edits keeps the relation. -/
theorem Refines.edits (hn : NoCollision rs) (edits : List Edit) :
    ∀ {l : BlockList} {m : Registry}, Refines l m → Registered l rs →
      (∀ edit ∈ edits, ∀ r ∈ edit.registrations, r ∈ rs) →
      Refines (edits.foldl Edit.apply l) (edits.foldl Edit.register m) ∧
        (DistinctPostings l.postings → DistinctPostings (edits.foldl Edit.apply l).postings) ∧
        (edits.foldl Edit.apply l).entries.length ≤ l.entries.length + edits.length := by
  induction edits with
  | nil => intro l m h _ _; exact ⟨h, id, le_rfl⟩
  | cons edit edits ih =>
    intro l m h hr hmem
    have rest : ∀ e ∈ edits, ∀ r ∈ e.registrations, r ∈ rs := fun e he =>
      hmem e (mem_cons_of_mem _ he)
    rw [length_cons]
    cases edit with
    | insert block =>
      have hb : Registration.ofMeta block ∈ rs :=
        hmem (.insert block) mem_cons_self _ (mem_singleton.mpr rfl)
      obtain ⟨hrun, distinct, ordinals⟩ := ih (h.insert hr hn hb) (h.insert_wf hr hb).2 rest
      refine ⟨hrun, fun hd => distinct (insert_pairwise orderInvariant_ne h.wf hd), ?_⟩
      have := length_insert_le h.wf block
      simp only [foldl_cons, Edit.apply] at ordinals ⊢
      omega
    | remove keys =>
      obtain ⟨h', hr'⟩ := h.remove hr keys
      obtain ⟨hrun, distinct, ordinals⟩ := ih h' hr' rest
      refine ⟨hrun, fun hd => distinct (remove_pairwise orderInvariant_ne h.wf hd keys), ?_⟩
      have := length_remove_le h.wf keys
      simp only [foldl_cons, Edit.apply] at ordinals ⊢
      omega

/-- After any edits of an empty list, or of a decoded one whose entries record the size and
digest of their own sets, every query answers as a walk over the records does, and the walk
names each key once, in the order of start, end and key. The ordinals in use are at most those
at first and one for each edit. -/
theorem queries_refine_registry (from? : Option BlockListRepr) (edits : List Edit)
    (bounded : ∀ repr ∈ from?, repr.Bounded) (own : ∀ repr ∈ from?, RecordsOwnSets repr)
    (apart : NoCollision (startRegistrations from? ++ edits.flatMap Edit.registrations)) :
    let l := edits.foldl Edit.apply (start from?)
    let m := edits.foldl Edit.register (startRegistry from?)
    (∀ fps minTs maxTs, l.candidateBlocks fps minTs maxTs = m.candidateBlocks fps minTs maxTs) ∧
      (∀ minTs maxTs, l.blocksInRange minTs maxTs = m.blocksInRange minTs maxTs) ∧
      (∀ tenant, (l.metas tenant).map BlockRecord.ofMeta = m.walk ∧
        ∀ block ∈ l.metas tenant, block.tenant = tenant) ∧
      ((∀ repr ∈ from?, DistinctPostings repr.postings) →
        ∀ tenant, l.metas tenant = m.walk.map (BlockRecord.toMeta tenant)) ∧
      (∀ minTs maxTs, l.timeBounds minTs maxTs = m.timeBounds minTs maxTs) ∧
      (∀ key, l.levelOf key = m.levelOf key) ∧ l.len = m.walk.length ∧
      (m.walk.Pairwise fun left right => left.orderKey < right.orderKey) ∧
      (m.walk.map (·.objectKey)).Nodup ∧
      (∀ r, r ∈ m.walk ↔ m[r.objectKey]? = some r) ∧
      l.entries.length ≤ (start from?).entries.length + edits.length := by
  intro l m
  obtain ⟨first, registered⟩ := start_refines from? bounded own
  obtain ⟨h, distinct, ordinals⟩ := first.edits apart edits
    (fun o ho => mem_append_left _ (registered o ho))
    (fun edit he r hr => mem_append_right _ (mem_flatMap.mpr ⟨edit, he, hr⟩))
  refine ⟨fun fps _ _ => h.candidateBlocks fps, fun _ _ => h.blocksInRange,
    fun tenant => ⟨h.metas_records tenant, by simp [BlockList.metas]⟩, fun hd => ?_,
    fun _ _ => h.timeBounds, h.levelOf, ?_, ?_, ?_, fun r => ?_, ordinals⟩
  · refine h.metas (distinct ?_)
    cases from? with
    | none => intro fp os hos; simp [start] at hos
    | some repr => simpa [start, ofRepr] using hd repr rfl
  · rw [h.walk, length_map]; rfl
  · rw [h.walk]; exact h.wf.sorted_records
  · rw [h.walk, map_map]
    exact h.wf.nodup_keys
  · rw [h.mem_walk]
    constructor
    · rintro ⟨key, hr⟩
      exact h.key_eq hr ▸ hr
    · intro hr
      exact ⟨_, hr⟩

/-- One decoded block that records the digest of `{7}`, with the posting of a fingerprint. -/
def sampleRepr (fp : SeriesFingerprint) : BlockListRepr where
  entries := [⟨"a", 0, 5, 3, 1, fingerprintSetDigest [7], .ingested⟩]
  postings := ExtTreeMap.ofList [(fp, [0])]

/-- A second block, the first one moved in time, and the second one dropped. -/
def sampleEdits : List Edit :=
  [.insert ⟨"t", "b", 2, 9, 4, [8, 7], .ingested⟩, .insert ⟨"t", "a", 20, 30, 3, [7], .ingested⟩,
    .remove (ExtTreeSet.ofList ["b"])]

theorem sampleRepr_postings {posted fp : SeriesFingerprint} {os : List Nat} :
    (sampleRepr posted).postings[fp]? = some os ↔ fp = posted ∧ os = [0] := by
  have entries : (sampleRepr posted).postings.toList = [(posted, [0])] := rfl
  rw [← ExtTreeMap.mem_toList_iff_getElem?_eq_some, entries, mem_singleton, Prod.mk.injEq]

theorem sampleRepr_bounded (posted : SeriesFingerprint) : (sampleRepr posted).Bounded := by
  intro fp os hos o ho
  rw [(sampleRepr_postings.mp hos).2, mem_singleton] at ho
  subst ho
  exact Nat.zero_lt_one

theorem sampleRepr_set (posted : SeriesFingerprint) :
    fingerprintsOf (sampleRepr posted).postings 0 = ExtTreeSet.ofList [posted] := by
  refine ExtTreeSet.ext_mem fun fp => ?_
  rw [mem_fingerprintsOf, ExtTreeSet.mem_ofList]
  simp only [sampleRepr_postings, contains_iff_mem, mem_singleton]
  constructor
  · rintro ⟨_, h, -⟩
    exact h.1
  · intro h
    exact ⟨[0], ⟨h, rfl⟩, by simp⟩

/-- The sets under "a" are those of the posted fingerprint and of 7, and "b" is registered once. -/
theorem sample_noCollision {posted : SeriesFingerprint}
    (h : posted = 7 ∨ fingerprintSetDigest [posted] ≠ fingerprintSetDigest [7]) :
    NoCollision (startRegistrations (some (sampleRepr posted)) ++
      sampleEdits.flatMap Edit.registrations) := by
  have cases : ∀ r ∈ startRegistrations (some (sampleRepr posted)) ++
      sampleEdits.flatMap Edit.registrations,
      (r.objectKey = "b" ∧ r.fingerprints = ExtTreeSet.ofList [(8 : SeriesFingerprint), 7]) ∨
        r.objectKey = "a" ∧
        ∃ fp, (fp = posted ∨ fp = 7) ∧ r.fingerprints = ExtTreeSet.ofList [fp] ∧
          r.digest = fingerprintSetDigest [fp] := by
    intro r hr
    rcases mem_append.mp hr with hr | hr
    · obtain ⟨o, ho, rfl⟩ := mem_map.mp hr
      obtain rfl : o = 0 := Nat.lt_one_iff.mp (mem_range.mp ho)
      refine .inr ⟨rfl, posted, .inl rfl, sampleRepr_set posted, ?_⟩
      exact congrArg (fun set => fingerprintSetDigest set.toList) (sampleRepr_set posted)
    · simp only [sampleEdits, Edit.registrations, flatMap_cons, flatMap_nil, cons_append,
        nil_append, append_nil, mem_cons, not_mem_nil, or_false] at hr
      rcases hr with rfl | rfl
      · exact .inl ⟨rfl, rfl⟩
      · exact .inr ⟨rfl, 7, .inr rfl, rfl, rfl⟩
  intro r hr r' hr' key _ digest
  rcases cases r hr with ⟨hk, set⟩ | ⟨hk, fp, hfp, set, own⟩ <;>
    rcases cases r' hr' with ⟨hk', set'⟩ | ⟨hk', fp', hfp', set', own'⟩
  · rw [set, set']
  · exact absurd (hk.symm.trans (key.trans hk')) (by decide)
  · exact absurd (hk.symm.trans (key.trans hk')) (by decide)
  · rw [own, own'] at digest
    have same : fp = fp' := by
      rcases hfp with rfl | rfl <;> rcases hfp' with rfl | rfl
      · rfl
      · exact h.resolve_right fun hne => hne digest
      · exact (h.resolve_right fun hne => hne digest.symm).symm
      · rfl
    rw [set, set', same]

theorem sampleRepr_recordsOwnSets : RecordsOwnSets (sampleRepr 7) := by
  intro o ho
  obtain rfl : o = 0 := Nat.lt_one_iff.mp ho
  rw [registration, ofRepr, rebuildDerived_postings, rebuildDerived_entry, Registration.ofRecord,
    BlockListRepr.record, record]
  simp only [sampleRepr_set]
  rfl

/-- The entry of "a" records its own set, so restating it keeps the right postings. -/
theorem queries_refine_registry_restated :
    RecordsOwnSets (sampleRepr 7) ∧ NoCollision (startRegistrations (some (sampleRepr 7)) ++
        sampleEdits.flatMap Edit.registrations) ∧
      (sampleEdits.foldl Edit.apply (start (some (sampleRepr 7)))).candidateBlocks
        (ExtTreeSet.ofList [(7 : SeriesFingerprint)]) 20 30 = ["a"] := by
  have apart := @sample_noCollision 7 (.inl rfl)
  have answers := queries_refine_registry (some (sampleRepr 7)) sampleEdits
    (fun repr h => by cases h; exact sampleRepr_bounded 7)
    (fun repr h => by cases h; exact sampleRepr_recordsOwnSets) apart
  exact ⟨sampleRepr_recordsOwnSets, apart, (answers.1 _ _ _).trans (by decide +kernel)⟩

/-- The entry of "a" records the digest of `{7}` and its postings give `{8}`: registered with
`{7}`, "a" keeps its postings and is not found by 7. -/
theorem restated_entry_keeps_foreign_postings :
    NoCollision (startRegistrations (some (sampleRepr 8)) ++
        sampleEdits.flatMap Edit.registrations) ∧
      (sampleRepr 8).Bounded ∧
      (sampleEdits.foldl Edit.apply (start (some (sampleRepr 8)))).candidateBlocks
        (ExtTreeSet.ofList [(7 : SeriesFingerprint)]) 20 30 = [] ∧
      (sampleEdits.foldl Edit.register (startRegistry (some (sampleRepr 8)))).candidateBlocks
        (ExtTreeSet.ofList [(7 : SeriesFingerprint)]) 20 30 = ["a"] :=
  ⟨sample_noCollision (.inr (by decide)), sampleRepr_bounded 8, by decide +kernel,
    by decide +kernel⟩

end Runs

end BlockList

end KrabkaO11y.Blockstore
