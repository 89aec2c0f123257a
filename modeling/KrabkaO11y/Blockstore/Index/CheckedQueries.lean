import KrabkaO11y.Collections.Fallible
import KrabkaO11y.Blockstore.Index.BlockListQueries

/-!
The queries of a block list with every access of a vector checked: `none` where the source
would go out of bounds. On a well-formed list they are the queries
(`candidateBlocksChecked_eq` and the like).
-/

open Std (ExtTreeMap ExtTreeSet)

namespace KrabkaO11y.Blockstore

open Option Collections List

/-- `Verified.bisect` with a test that reads a vector. -/
def bisectChecked (goRight : ℕ → Option Bool) : ℕ → ℕ → ℕ → Option ℕ
  | 0, lower, _ => some lower
  | fuel + 1, lower, upper =>
    if lower < upper then do
      let middle := lower + (upper - lower) / 2
      if ← goRight middle then bisectChecked goRight fuel (middle + 1) upper
      else bisectChecked goRight fuel lower middle
    else some lower

theorem bisectChecked_eq {test : ℕ → Option Bool} {goRight : ℕ → Bool} :
    ∀ (fuel lower upper : ℕ), (∀ i < upper, test i = some (goRight i)) →
      bisectChecked test fuel lower upper = some (Verified.bisect goRight fuel lower upper) := by
  intro fuel
  induction fuel with
  | zero => exact fun _ _ _ => rfl
  | succ fuel ih =>
    intro lower upper h
    rw [bisectChecked, Verified.bisect]
    split
    · have hmid := h (lower + (upper - lower) / 2) (by omega)
      simp only [hmid, bind_eq_bind, bind_some]
      split
      · exact ih _ upper h
      · exact ih lower _ fun i hi => h i (by omega)
    · rfl

namespace BlockList

def windowChecked (l : BlockList) (minTs maxTs : Int64) : Option Verified.OverlapWindow := do
  let stop ← bisectChecked (fun i => (l.minStart[i]?).map fun start => decide (start ≤ maxTs))
    l.minStart.length 0 l.minStart.length
  let start ← bisectChecked (fun i => (l.maxEnd[i]?).map fun stop => decide (stop < minTs)) stop 0
    stop
  some ⟨start, stop⟩

/-- `order[lo..hi]`. -/
def orderSliceChecked (l : BlockList) (lo hi : ℕ) : Option (List ℕ) :=
  if lo ≤ hi ∧ hi ≤ l.order.length then some (l.orderSlice lo hi) else none

def keysInWindowChecked (l : BlockList) (lo hi : ℕ) (minTs maxTs : Int64)
    (keep : ℕ → Option Bool) : Option (List String) := do
  let ordinals ← l.orderSliceChecked lo hi
  let kept ← filterChecked keep ordinals
  let entries ← kept.mapM fun ordinal => l.entries[ordinal]?
  some ((entries.filter (·.overlaps minTs maxTs)).map (·.objectKey))

def markOrdinalsChecked (l : BlockList) (lo hi : ℕ) : List ℕ → List Bool → ℕ →
    Option (List Bool × ℕ × Bool)
  | [], hit, found => some (hit, found, false)
  | ordinal :: rest, hit, found => do
    match ← l.position[ordinal]? with
    | none => l.markOrdinalsChecked lo hi rest hit found
    | some position =>
      if position < lo ∨ position ≥ hi then l.markOrdinalsChecked lo hi rest hit found
      else if ← hit[ordinal]? then l.markOrdinalsChecked lo hi rest hit found
      else if found + 1 = hi - lo then some (hit.set ordinal true, found + 1, true)
      else l.markOrdinalsChecked lo hi rest (hit.set ordinal true) (found + 1)

def markFingerprintsChecked (l : BlockList) (lo hi : ℕ) : List SeriesFingerprint → List Bool → ℕ →
    Option (List Bool)
  | [], hit, _ => some hit
  | fingerprint :: rest, hit, found =>
    match l.postings[fingerprint]? with
    | none => l.markFingerprintsChecked lo hi rest hit found
    | some ordinals => do
      match ← l.markOrdinalsChecked lo hi ordinals hit found with
      | (hit, _, true) => some hit
      | (hit, found, false) => l.markFingerprintsChecked lo hi rest hit found

def candidateBlocksChecked (l : BlockList) (fps : ExtTreeSet SeriesFingerprint)
    (minTs maxTs : Int64) : Option (List String) := do
  let window ← l.windowChecked minTs maxTs
  if window.start ≥ window.stop ∨ fps.isEmpty = true then some []
  else
    let hit ← l.markFingerprintsChecked window.start window.stop fps.toList
      (List.replicate l.entries.length false) 0
    l.keysInWindowChecked window.start window.stop minTs maxTs fun ordinal => hit[ordinal]?

def fingerprintsByOrdinalChecked (l : BlockList) :
    Option (ExtTreeMap ℕ (List SeriesFingerprint)) :=
  l.postings.toList.foldlM
    (fun byOrdinal posting => posting.2.foldlM
      (fun byOrdinal ordinal => (l.live[ordinal]?).map fun live =>
        if live then byOrdinal.alter ordinal fun held => some (held.getD [] ++ [posting.1])
        else byOrdinal)
      byOrdinal)
    ∅

def metasChecked (l : BlockList) (tenant : String) : Option (List BlockMeta) := do
  let fingerprints ← l.fingerprintsByOrdinalChecked
  l.order.mapM fun ordinal => (l.entries[ordinal]?).map fun entry =>
    { tenant := tenant
      objectKey := entry.objectKey
      minTs := entry.minTs
      maxTs := entry.maxTs
      rowCount := entry.rowCount
      fingerprints := fingerprints[ordinal]?.getD []
      level := entry.level }

/-- Whether an ordinal of a posting list is live: the list is read up to the first. -/
def anyLiveChecked (l : BlockList) : List ℕ → Option Bool
  | [] => some false
  | ordinal :: rest => do
    if ← l.live[ordinal]? then some true else l.anyLiveChecked rest

def liveFingerprintsChecked (l : BlockList) : Option (ExtTreeSet SeriesFingerprint) :=
  (filterChecked (fun posting => l.anyLiveChecked posting.2) l.postings.toList).map fun postings =>
    ExtTreeSet.ofList (postings.map Prod.fst)

section Wf

variable {l : BlockList}

theorem getElem?_entries (hw : Wf l) {ordinal : ℕ} (h : ordinal ∈ l.order) :
    l.entries[ordinal]? = some (l.entry ordinal) := by
  have hlt := hw.placed.lt ordinal h
  rw [entry, getD_eq_getElem _ _ hlt, getElem?_eq_getElem hlt]

theorem getElem?_eq_some_getD {α : Type} {xs : List α} {i : ℕ} (h : i < xs.length) (fill : α) :
    xs[i]? = some (xs.getD i fill) := by
  rw [getD_eq_getElem _ _ h, getElem?_eq_getElem h]

theorem windowChecked_eq (hw : Wf l) (minTs maxTs : Int64) :
    l.windowChecked minTs maxTs = some (l.window minTs maxTs) := by
  have hst : (l.window minTs maxTs).stop ≤ l.minStart.length := by
    rw [hw.columns.starts_len]
    exact (hw.window minTs maxTs).2.1
  have hup : bisectChecked (fun i => (l.minStart[i]?).map fun start => decide (start ≤ maxTs))
      l.minStart.length 0 l.minStart.length = some (l.window minTs maxTs).stop :=
    bisectChecked_eq _ _ _ fun i hi => by rw [getElem?_eq_some_getD hi 0]; rfl
  have hlo : bisectChecked (fun i => (l.maxEnd[i]?).map fun stop => decide (stop < minTs))
      (l.window minTs maxTs).stop 0 (l.window minTs maxTs).stop =
        some (l.window minTs maxTs).start :=
    bisectChecked_eq _ _ _ fun i hi => by
      rw [getElem?_eq_some_getD (by rw [hw.columns.ends_len, ← hw.columns.starts_len]; omega) 0]
      rfl
  rw [windowChecked, hup]
  change (bisectChecked _ _ _ _).bind _ = _
  rw [hlo]
  rfl

variable {lo hi : ℕ}

theorem length_markOrdinals : ∀ (ordinals : List ℕ) (hit : List Bool) (found : ℕ),
    (l.markOrdinals lo hi ordinals hit found).1.length = hit.length := by
  intro ordinals
  induction ordinals with
  | nil => exact fun _ _ => rfl
  | cons ordinal rest ih =>
    intro hit found
    rw [markOrdinals]
    split
    · exact ih hit found
    · split
      · exact ih hit found
      · split
        · exact length_set
        · exact (ih _ _).trans length_set

theorem markOrdinalsChecked_eq : ∀ (ordinals : List ℕ) (hit : List Bool) (found : ℕ),
    (∀ ordinal ∈ ordinals, ordinal < l.position.length) →
    (∀ ordinal ∈ ordinals, ordinal < hit.length) →
    l.markOrdinalsChecked lo hi ordinals hit found =
      some (l.markOrdinals lo hi ordinals hit found) := by
  intro ordinals
  induction ordinals with
  | nil => exact fun _ _ _ _ => rfl
  | cons ordinal rest ih =>
    intro hit found hpos hhit
    have hr := fun o ho => hpos o (mem_cons_of_mem ordinal ho)
    have hr' := fun o ho => hhit o (mem_cons_of_mem ordinal ho)
    have hset := ih (hit.set ordinal true) (found + 1) hr fun o ho => by
      rw [length_set]
      exact hr' o ho
    rw [markOrdinalsChecked, markOrdinals,
      getElem?_eq_some_getD (hpos ordinal mem_cons_self) none]
    simp only [bind_eq_bind, bind_some]
    cases l.position.getD ordinal none with
    | none => exact ih hit found hr hr'
    | some position =>
      simp only [getElem?_eq_some_getD (hhit ordinal mem_cons_self) false, bind_some]
      by_cases hout : position < lo ∨ position ≥ hi
      · rw [if_pos hout, if_pos (hout.elim .inl fun h => .inr (.inl h))]
        exact ih hit found hr hr'
      · rw [if_neg hout]
        by_cases hma : hit.getD ordinal false = true
        · rw [if_pos hma, if_pos (.inr (.inr hma))]
          exact ih hit found hr hr'
        · have hk : ¬(position < lo ∨ position ≥ hi ∨ hit.getD ordinal false = true) :=
            fun h => (or_assoc.mpr h).elim hout hma
          rw [if_neg hma, if_neg hk]
          split
          · rfl
          · exact hset

/-- What a query marks has one flag for each entry. -/
theorem markFingerprintsChecked_eq (hw : Wf l) : ∀ (fps : List SeriesFingerprint)
    (hit : List Bool) (found : ℕ), hit.length = l.entries.length →
    l.markFingerprintsChecked lo hi fps hit found =
        some (l.markFingerprints lo hi fps hit found) ∧
      (l.markFingerprints lo hi fps hit found).length = l.entries.length := by
  intro fps
  induction fps with
  | nil => exact fun hit _ hlen => ⟨rfl, hlen⟩
  | cons fp fps ih =>
    intro hit found hlen
    rw [markFingerprintsChecked, markFingerprints]
    cases hpo : l.postings[fp]? with
    | none => exact ih hit found hlen
    | some ordinals =>
      have hlt := hw.postings_lt fp ordinals hpo
      have hma := @markOrdinalsChecked_eq l lo hi ordinals hit found
        (fun o ho => hw.placed.len ▸ hlt o ho) (fun o ho => hlen ▸ hlt o ho)
      have hle := @length_markOrdinals l lo hi ordinals hit found
      simp only [hma, bind_eq_bind, bind_some]
      revert hle
      rcases l.markOrdinals lo hi ordinals hit found with ⟨marked, count, done⟩
      intro hle
      cases done with
      | true => exact ⟨rfl, hle.trans hlen⟩
      | false => exact ih marked count (hle.trans hlen)

theorem keysInWindowChecked_eq (hw : Wf l) (hle : lo ≤ hi) (hhi : hi ≤ l.order.length)
    (minTs maxTs : Int64) {keep : ℕ → Option Bool} {test : ℕ → Bool}
    (hkeep : ∀ ordinal ∈ l.order, keep ordinal = some (test ordinal)) :
    l.keysInWindowChecked lo hi minTs maxTs keep =
      some (l.keysInWindow lo hi minTs maxTs test) := by
  have hmem : ∀ ordinal ∈ l.orderSlice lo hi, ordinal ∈ l.order := fun ordinal h =>
    mem_of_mem_take (mem_of_mem_drop h)
  rw [keysInWindowChecked, orderSliceChecked, if_pos ⟨hle, hhi⟩]
  simp only [bind_eq_bind, bind_some]
  rw [filterChecked_eq fun ordinal h => hkeep ordinal (hmem ordinal h), bind_some,
    mapM_eq_some_map fun ordinal h =>
      getElem?_entries hw (hmem ordinal (mem_of_mem_filter h))]
  rfl

/-- A query for candidates stays within the vectors. -/
theorem candidateBlocksChecked_eq (hw : Wf l) (fps : ExtTreeSet SeriesFingerprint)
    (minTs maxTs : Int64) :
    l.candidateBlocksChecked fps minTs maxTs = some (l.candidateBlocks fps minTs maxTs) := by
  obtain ⟨hle, hst, -⟩ := hw.window minTs maxTs
  rw [candidateBlocksChecked, windowChecked_eq hw, candidateBlocks]
  simp only [bind_eq_bind, bind_some]
  split
  · rfl
  · obtain ⟨hma, hlen⟩ := markFingerprintsChecked_eq hw fps.toList
      (List.replicate l.entries.length false) 0 length_replicate
    rw [hma, bind_some]
    exact keysInWindowChecked_eq hw hle hst minTs maxTs fun ordinal h =>
      getElem?_eq_some_getD (by rw [hlen]; exact hw.placed.lt ordinal h) false

theorem getElem?_live (hw : Wf l) {fp : SeriesFingerprint} {ordinals : List ℕ}
    (h : (fp, ordinals) ∈ l.postings.toList) :
    ∀ ordinal ∈ ordinals, l.live[ordinal]? = some (l.live.getD ordinal false) := by
  intro ordinal hor
  refine getElem?_eq_some_getD ?_ false
  rw [hw.live_len]
  exact hw.postings_lt fp ordinals (ExtTreeMap.mem_toList_iff_getElem?_eq_some.mp h) ordinal hor

/-- Listing the blocks stays within the vectors. -/
theorem metasChecked_eq (hw : Wf l) (tenant : String) :
    l.metasChecked tenant = some (l.metas tenant) := by
  have hfps : l.fingerprintsByOrdinalChecked = some l.fingerprintsByOrdinal := by
    refine foldlM_eq_some_foldl (fun byOrdinal posting hpo => ?_) ∅
    refine foldlM_eq_some_foldl (fun byOrdinal ordinal hor => ?_) byOrdinal
    rw [getElem?_live hw hpo ordinal hor]
    rfl
  rw [metasChecked, hfps]
  exact mapM_eq_some_map fun ordinal h => by rw [getElem?_entries hw h]; rfl

/-- Listing the live fingerprints stays within the vectors. -/
theorem liveFingerprintsChecked_eq (hw : Wf l) :
    l.liveFingerprintsChecked = some l.liveFingerprints := by
  have hany : ∀ {ordinals : List ℕ},
      (∀ ordinal ∈ ordinals, l.live[ordinal]? = some (l.live.getD ordinal false)) →
      l.anyLiveChecked ordinals = some (ordinals.any fun ordinal => l.live.getD ordinal false) := by
    intro ordinals
    induction ordinals with
    | nil => exact fun _ => rfl
    | cons ordinal rest ih =>
      intro h
      rw [anyLiveChecked, h ordinal mem_cons_self, any_cons]
      simp only [bind_eq_bind, bind_some]
      rw [ih fun o ho => h o (mem_cons_of_mem _ ho)]
      cases l.live.getD ordinal false <;> rfl
  rw [liveFingerprintsChecked, filterChecked_eq fun posting hpo =>
    hany (getElem?_live hw hpo), map_some, liveFingerprints,
    ← ExtTreeMap.map_fst_toList_eq_keys, ExtTreeMap.toList_filter]

end Wf

end BlockList

end KrabkaO11y.Blockstore
