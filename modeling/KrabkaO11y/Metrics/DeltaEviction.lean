import KrabkaO11y.Collections.FirstK
import KrabkaO11y.Metrics.DeltaAccumulator

/-!
Eviction as the accumulator performs it (`evict_if_over_cap` in
`crates/metrics/src/otlp/delta_state.rs`): one pass over the streams, with a heap as large as
the excess, or with a running minimum where one stream is too many.

It evicts what removing the oldest stream again and again would (`heap_evicts_oldest`).
-/

namespace KrabkaO11y.Metrics.DeltaAccumulator

open Collections List

variable {κ V H : Type} [LinearOrder κ]

/-- A stream in the order of eviction: by last seen, sums before histograms, by key. -/
abbrev OldestStream (κ : Type) := ℕ ×ₗ Bool ×ₗ κ

section

variable (acc : DeltaAccumulator κ V H)

/-- The streams in the order of iteration. -/
def oldestStreams : List (OldestStream κ) :=
  acc.streams.map fun stream => toLex (stream.1, toLex stream.2)

def evictStream (stream : OldestStream κ) :
    DeltaAccumulator κ V H :=
  acc.evict ((ofLex stream).1, ofLex (ofLex stream).2)

def size : Nat :=
  acc.sums.size + acc.histograms.size

/-- The streams to evict. `min_by_key` returns the first of equal minima. -/
def victims (excess : Nat) (streams : List (OldestStream κ)) : List (OldestStream κ) :=
  if excess = 1 then (streams.argmin fun stream => (ofLex stream).1).toList
  else streams.foldl (pushBounded (· ≤ ·) excess) []

/-- `evict_if_over_cap`, with its heap. -/
def evictWithHeap (maxStreams : Nat) :
    DeltaAccumulator κ V H :=
  if maxStreams = 0 then acc
  else
    let excess := acc.size - maxStreams
    if excess = 0 then acc
    else (victims excess acc.oldestStreams).foldl evictStream acc

/-- The stream that comes before all the others. -/
def oldest : Option (OldestStream κ) :=
  acc.oldestStreams.find? fun stream =>
    acc.oldestStreams.all fun other => stream ≤ other

end

/-- Removes the oldest stream while the bound does not hold. -/
def evictUntil (maxStreams : Nat) : Nat → DeltaAccumulator κ V H → DeltaAccumulator κ V H
  | 0, acc => acc
  | fuel + 1, acc =>
    if acc.size ≤ maxStreams then acc
    else
      match acc.oldest with
      | some stream => evictUntil maxStreams fuel (acc.evictStream stream)
      | none => acc

/-- What eviction is for; a bound of zero is none. -/
def removeOldest (acc : DeltaAccumulator κ V H) (maxStreams : Nat) :
    DeltaAccumulator κ V H :=
  if maxStreams = 0 then acc else evictUntil maxStreams acc.size acc

/-! ### Streams -/

variable {acc : DeltaAccumulator κ V H} {stream : OldestStream κ}
  {rest : List (OldestStream κ)}

theorem mem_oldestStreams {seen : Nat} {kind : Bool} {key : κ} :
    toLex (seen, toLex (kind, key)) ∈ acc.oldestStreams ↔
      (if kind then (acc.histograms[key]?).map DeltaHistogramState.lastSeen
        else (acc.sums[key]?).map DeltaState.lastSeen) = some seen := by
  cases kind <;>
    simp [oldestStreams, streams, Std.ExtTreeMap.mem_toList_iff_getElem?_eq_some, and_comm]

/-- Sums come before histograms, each by ascending key. -/
theorem pairwise_oldestStreams (acc : DeltaAccumulator κ V H) :
    acc.oldestStreams.Pairwise fun a b => (ofLex a).2 < (ofLex b).2 := by
  rw [oldestStreams, streams, pairwise_map]
  refine pairwise_append.mpr ⟨pairwise_map.mpr ?_, pairwise_map.mpr ?_, ?_⟩
  · refine Std.ExtTreeMap.ordered_keys_toList.imp fun hlt => ?_
    exact Prod.Lex.toLex_lt_toLex.mpr (.inr ⟨rfl, compare_lt_iff_lt.mp hlt⟩)
  · refine Std.ExtTreeMap.ordered_keys_toList.imp fun hlt => ?_
    exact Prod.Lex.toLex_lt_toLex.mpr (.inr ⟨rfl, compare_lt_iff_lt.mp hlt⟩)
  · intro a ha b hb
    obtain ⟨_, -, rfl⟩ := mem_map.mp ha
    obtain ⟨_, -, rfl⟩ := mem_map.mp hb
    exact Prod.Lex.toLex_lt_toLex.mpr (.inl Bool.false_lt_true)

theorem nodup_oldestStreams (acc : DeltaAccumulator κ V H) :
    acc.oldestStreams.Nodup :=
  (pairwise_oldestStreams acc).imp fun hlt heq => absurd (heq ▸ hlt) (lt_irrefl _)

theorem length_oldestStreams (acc : DeltaAccumulator κ V H) :
    acc.oldestStreams.length = acc.size := by
  simp [oldestStreams, streams, size]

/-- An evicted stream is gone, and nothing else. -/
theorem perm_evictStream (h : acc.oldestStreams.Perm (stream :: rest)) :
    (acc.evictStream stream).oldestStreams.Perm rest := by
  obtain ⟨hst, hr⟩ := nodup_cons.mp (h.nodup_iff.mp (nodup_oldestStreams acc))
  refine (perm_ext_iff_of_nodup (nodup_oldestStreams _) hr).mpr ?_
  intro other
  have hmem : other ∈ rest ↔ other ∈ acc.oldestStreams ∧ other ≠ stream := by
    rw [h.mem_iff, mem_cons]
    constructor
    · exact fun hin => ⟨.inr hin, fun heq => hst (heq ▸ hin)⟩
    · exact fun hin => hin.1.resolve_left hin.2
  have hh : stream ∈ acc.oldestStreams := h.mem_iff.mpr mem_cons_self
  rw [hmem]
  obtain ⟨seen, kind, key⟩ := other
  obtain ⟨seen', kind', key'⟩ := stream
  -- a stream under the evicted kind and key is the evicted one
  have hsm : kind = kind' → key = key' →
      toLex (seen, toLex (kind, key)) ∈ acc.oldestStreams → seen = seen' := by
    rintro rfl rfl hin
    exact Option.some.inj ((mem_oldestStreams.mp hin).symm.trans (mem_oldestStreams.mp hh))
  have hev : toLex (seen, toLex (kind, key)) ∈ (acc.evictStream
      (toLex (seen', toLex (kind', key')))).oldestStreams ↔
        toLex (seen, toLex (kind, key)) ∈ acc.oldestStreams ∧
          ¬ (kind = kind' ∧ key = key') := by
    rw [mem_oldestStreams, mem_oldestStreams, evictStream, evict]
    rcases eq_or_ne key' key with rfl | hkey
    · cases kind <;> cases kind' <;> simp
    · cases kind <;> cases kind' <;> simp [Std.ExtTreeMap.getElem?_erase, hkey, hkey.symm]
  refine hev.trans (and_congr_right fun hin => not_congr ?_)
  constructor
  · rintro ⟨rfl, rfl⟩
    rw [hsm rfl rfl hin]
  · intro heq
    cases heq
    exact ⟨rfl, rfl⟩

theorem size_evictStream (h : acc.oldestStreams.Perm (stream :: rest)) :
    (acc.evictStream stream).size + 1 = acc.size := by
  rw [← length_oldestStreams, ← length_oldestStreams, (perm_evictStream h).length_eq, h.length_eq]
  rfl

theorem evictStream_comm (acc : DeltaAccumulator κ V H) (a b : OldestStream κ) :
    (acc.evictStream a).evictStream b = (acc.evictStream b).evictStream a := by
  have her : ∀ {γ : Type} (m : Std.ExtTreeMap κ γ) (k k' : κ),
      (m.erase k).erase k' = (m.erase k').erase k := by
    intro γ m k k'
    refine Std.ExtTreeMap.ext_getElem? fun key => ?_
    simp only [Std.ExtTreeMap.getElem?_erase]
    split <;> split <;> rfl
  rw [evictStream, evictStream, evictStream, evictStream]
  generalize ((ofLex a).1, ofLex (ofLex a).2) = first, ((ofLex b).1, ofLex (ofLex b).2) = second
  obtain ⟨-, kind, key⟩ := first
  obtain ⟨-, kind', key'⟩ := second
  cases kind <;> cases kind' <;> simp [evict, her _ key' key]

/-! ### The oldest streams -/

/-- Of streams seen at one time the one listed first is the oldest. -/
theorem argmin_le {streams : List (OldestStream κ)}
    (h : streams.Pairwise fun a b => (ofLex a).2 < (ofLex b).2)
    (found : streams.argmin (fun stream => (ofLex stream).1) = some stream) :
    ∀ other ∈ streams, stream ≤ other := by
  induction streams generalizing stream with
  | nil => exact nofun
  | cons first rest ih =>
    obtain ⟨hf, hr⟩ := pairwise_cons.mp h
    rw [argmin_cons] at found
    cases hmin : rest.argmin fun stream => (ofLex stream).1 with
    | none =>
      rw [hmin] at found
      cases found
      simp [argmin_eq_none.mp hmin]
    | some least =>
      rw [hmin] at found
      dsimp only at found
      split at found
      · rename_i hlt
        cases found
        exact forall_mem_cons.mpr ⟨Prod.Lex.le_iff.mpr (.inl hlt), ih hr hmin⟩
      · rename_i hle
        cases found
        refine forall_mem_cons.mpr ⟨le_rfl, fun other ho => Prod.Lex.le_iff.mpr ?_⟩
        have hse := (not_lt.mp hle).trans (le_of_mem_argmin ho hmin)
        exact hse.lt_or_eq.imp_right fun heq => ⟨heq, (hf other ho).le⟩

/-- Both branches select the oldest streams. -/
theorem victims_perm (excess : Nat) (acc : DeltaAccumulator κ V H) :
    (victims excess acc.oldestStreams).Perm
      (firstK (· ≤ ·) excess acc.oldestStreams) := by
  rw [victims]
  split
  · rename_i hone
    subst hone
    cases hmin : acc.oldestStreams.argmin fun stream => (ofLex stream).1 with
    | none =>
      rw [argmin_eq_none.mp hmin]
      exact .nil
    | some found =>
      have hle := argmin_le (pairwise_oldestStreams acc) hmin
      obtain ⟨before, after, hsp⟩ := append_of_mem (argmin_mem hmin)
      have hpm : acc.oldestStreams.Perm ([found] ++ (before ++ after)) := by
        rw [hsp]
        exact perm_middle
      refine perm_firstK hpm fun a ha b hb => ?_
      rw [mem_singleton.mp ha]
      exact hle b (hpm.mem_iff.mpr (mem_append_right _ hb))
  · exact foldl_pushBounded_perm excess acc.oldestStreams

theorem oldest_eq (perm : acc.oldestStreams.Perm (stream :: rest))
    (sorted : (stream :: rest).Pairwise (· ≤ ·)) : acc.oldest = some stream := by
  have hall : ∀ other ∈ acc.oldestStreams, stream ≤ other := fun other ho =>
    forall_mem_cons.mpr ⟨le_rfl, (pairwise_cons.mp sorted).1⟩ other
      (perm.mem_iff.mp ho)
  have hmem : stream ∈ acc.oldestStreams := perm.mem_iff.mpr mem_cons_self
  cases hfi : acc.oldest with
  | none => exact absurd (by simpa using hall) (find?_eq_none.mp hfi stream hmem)
  | some found =>
    have hfd : ∀ other ∈ acc.oldestStreams, found ≤ other := by
      simpa using find?_some hfi
    rw [le_antisymm (hfd stream hmem) (hall found (mem_of_find?_eq_some hfi))]

/-- Removing the oldest stream again and again removes the first of the order. -/
theorem evictUntil_eq (maxStreams : Nat) : ∀ (fuel : Nat) (acc : DeltaAccumulator κ V H),
    acc.size - maxStreams ≤ fuel →
      evictUntil maxStreams fuel acc =
        (firstK (· ≤ ·) (acc.size - maxStreams)
          acc.oldestStreams).foldl evictStream acc ∧
      (evictUntil maxStreams fuel acc).size ≤ maxStreams := by
  intro fuel
  induction fuel with
  | zero =>
    intro acc hfu
    rw [Nat.le_zero.mp hfu]
    exact ⟨rfl, Nat.sub_eq_zero_iff_le.mp (Nat.le_zero.mp hfu)⟩
  | succ fuel ih =>
    intro acc hfu
    rw [evictUntil]
    split
    · rename_i hle
      rw [Nat.sub_eq_zero_of_le hle]
      exact ⟨rfl, hle⟩
    · rename_i hov
      cases hsor : acc.oldestStreams.insertionSort (· ≤ ·) with
      | nil =>
        have hlen := congrArg List.length hsor
        rw [length_insertionSort, length_oldestStreams, length_nil] at hlen
        omega
      | cons stream rest =>
        have hpm := (hsor ▸ perm_insertionSort (· ≤ ·) acc.oldestStreams).symm
        have hso := hsor ▸ pairwise_insertionSort (· ≤ ·) acc.oldestStreams
        have hsz := size_evictStream hpm
        -- what is left sorts to the rest
        have hr : (acc.evictStream stream).oldestStreams.insertionSort (· ≤ ·) = rest :=
          ((perm_insertionSort _ _).trans (perm_evictStream hpm)).eq_of_pairwise
            (fun _ _ _ _ => le_antisymm) (pairwise_insertionSort _ _)
            (pairwise_cons.mp hso).2
        obtain ⟨heq, hbd⟩ := ih (acc.evictStream stream) (by omega)
        have hex : acc.size - maxStreams =
            (acc.evictStream stream).size - maxStreams + 1 := by omega
        simp only [oldest_eq hpm hso]
        refine ⟨heq.trans ?_, hbd⟩
        rw [firstK, firstK, hsor, hr, hex, take_succ_cons, foldl_cons]

/-- The heap evicts the first streams of the order. -/
theorem evictWithHeap_eq (acc : DeltaAccumulator κ V H) (maxStreams : Nat) :
    acc.evictWithHeap maxStreams = if maxStreams = 0 then acc
      else (firstK (· ≤ ·) (acc.size - maxStreams) acc.oldestStreams).foldl evictStream acc := by
  rw [evictWithHeap]
  split
  · rfl
  dsimp only
  split
  · rename_i hnone
    rw [hnone]
    rfl
  · exact (victims_perm _ acc).foldl_eq' (fun a _ b _ z => evictStream_comm z a b) acc

/-- Where streams are listed by kind and key, a stable sort by the time goes by all three. -/
theorem insertionSort_lastSeen {streams : List (OldestStream κ)}
    (h : streams.Pairwise fun a b => (ofLex a).2 < (ofLex b).2) :
    (streams.insertionSort fun a b => (ofLex a).1 ≤ (ofLex b).1) =
      streams.insertionSort (· ≤ ·) := by
  have hinsert : ∀ (a : OldestStream κ) (ys : List (OldestStream κ)),
      (∀ b ∈ ys, (ofLex a).2 < (ofLex b).2) →
        ys.orderedInsert (fun a b => (ofLex a).1 ≤ (ofLex b).1) a =
          ys.orderedInsert (· ≤ ·) a := by
    intro a ys hlater
    induction ys with
    | nil => rfl
    | cons b ys ih =>
      obtain ⟨hb, hlater⟩ := forall_mem_cons.mp hlater
      have hle : (ofLex a).1 ≤ (ofLex b).1 ↔ a ≤ b := by
        rw [Prod.Lex.le_iff, le_iff_lt_or_eq]
        exact or_congr_right (and_iff_left hb.le).symm
      simp only [orderedInsert_cons, hle, ih hlater]
  induction streams with
  | nil => rfl
  | cons a streams ih =>
    obtain ⟨hfirst, hrest⟩ := pairwise_cons.mp h
    rw [insertionSort_cons, insertionSort_cons, ih hrest]
    exact hinsert a _ fun b hb => hfirst b ((mem_insertionSort _).mp hb)

/-- What the bound of a request evicts is what the heap does. -/
theorem evictIfOverCap_eq_evictWithHeap (acc : DeltaAccumulator κ V H) (maxStreams : Nat) :
    acc.evictIfOverCap maxStreams = acc.evictWithHeap maxStreams := by
  have hsorted : (acc.streams.insertionSort fun a b => a.1 ≤ b.1).map
      (fun stream => toLex (stream.1, toLex stream.2)) =
        acc.oldestStreams.insertionSort (· ≤ ·) := by
    rw [← insertionSort_lastSeen (pairwise_oldestStreams acc), oldestStreams]
    exact map_insertionSort _ _ _ _ fun _ _ _ _ => Iff.rfl
  rw [evictWithHeap_eq, evictIfOverCap, firstK, ← hsorted, ← map_take, foldl_map]
  rfl

/-- The heap evicts what removing the oldest stream until the bound holds would, and leaves every
other stream as it is. -/
theorem heap_evicts_oldest (acc : DeltaAccumulator κ V H) (maxStreams : Nat) :
    acc.evictWithHeap maxStreams = acc.removeOldest maxStreams ∧
      (acc.evictWithHeap maxStreams).Within acc ∧
      (maxStreams = 0 ∨ (acc.evictWithHeap maxStreams).size ≤ maxStreams) := by
  obtain ⟨huntil, hbound⟩ := evictUntil_eq maxStreams _ acc (Nat.sub_le _ maxStreams)
  have hwithin : ∀ streams : List (OldestStream κ),
      (streams.foldl evictStream acc).Within acc := by
    intro streams
    have hmap := within_foldl_evict
      (streams.map fun stream => ((ofLex stream).1, ofLex (ofLex stream).2)) acc
    rwa [foldl_map] at hmap
  rw [evictWithHeap_eq, removeOldest]
  split
  · rename_i hzero
    exact ⟨rfl, .refl _, .inl hzero⟩
  · rw [← huntil]
    exact ⟨rfl, huntil ▸ hwithin _, .inr hbound⟩

end KrabkaO11y.Metrics.DeltaAccumulator
