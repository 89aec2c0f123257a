import KrabkaO11y.Verified.ShardRange

/-!
The shards of a time-sharded index (`index/index_shard_range.rs` and the grid part of
`index_snapshot.rs`).

A record belongs to every grid slot that its span crosses, or to the unbounded shard
when there are too many of them. `exists_shard_of_tick` is what a windowed read rests
on: every tick of the span lies in one of the record's shards.
-/

open Std (ExtTreeMap)

namespace KrabkaO11y.Blockstore

open Verified

/-- An inclusive span of ticks. -/
structure IndexShardRange where
  start : Int64
  stop : Int64
deriving DecidableEq, Repr, Inhabited

namespace IndexShardRange

/-- By start, then by end. -/
instance : Ord IndexShardRange := ⟨compareLex (compareOn start) (compareOn stop)⟩

instance : Std.TransOrd IndexShardRange :=
  inferInstanceAs (Std.TransCmp (compareLex (compareOn start) (compareOn stop)))

instance : Std.LawfulEqOrd IndexShardRange where
  eq_of_compare {a b} h := by
    change compareLex (compareOn start) (compareOn stop) a b = .eq at h
    simp only [compareLex_eq_eq, compareOn, Std.compare_eq_iff_eq] at h
    cases a
    cases b
    simp_all

def overlaps (range : IndexShardRange) (minTs maxTs : Int64) : Bool :=
  decide (range.start ≤ maxTs) && decide (range.stop ≥ minTs)

theorem overlaps_iff {range : IndexShardRange} {minTs maxTs : Int64} :
    range.overlaps minTs maxTs = true ↔ range.start ≤ maxTs ∧ minTs ≤ range.stop := by
  simp [overlaps]

end IndexShardRange

/-- The shard that holds records whose spans cannot fit the bounded grid. -/
def unboundedShardRange : IndexShardRange := ⟨Int64.minValue, Int64.maxValue⟩

/-- Most grid slots one record may span before it is widened into the unbounded shard. -/
def maxShardSlotsPerRecord : Int64 := 32

/-- The span of grid slot `slot`, clamped where the grid runs off the ends of an `i64`. -/
def shardRangeOfSlot (slot width : Int64) : IndexShardRange :=
  ⟨(shardRange slot width).start, (shardRange slot width).stop⟩

/-- The bounds of a span are swapped when they are the wrong way round. -/
def spanLow (minTs maxTs : Int64) : Int64 := if minTs > maxTs then maxTs else minTs

def spanHigh (minTs maxTs : Int64) : Int64 := if minTs > maxTs then minTs else maxTs

/-- The shards a record spanning `[minTs, maxTs]` belongs to. -/
def shardRangesForSpan (minTs maxTs width : Int64) : List IndexShardRange :=
  let width := max width 1
  let slots := boundedShardSlots (divEuclid (spanLow minTs maxTs) width)
    (divEuclid (spanHigh minTs maxTs) width) maxShardSlotsPerRecord
  if slots.isEmpty then [unboundedShardRange] else slots.map fun slot => shardRangeOfSlot slot width

section Grid

variable {minTs maxTs width t : Int64} {range : IndexShardRange}

/-- The ticks between the two bounds of a span, whichever way round they are. -/
def InSpan (minTs maxTs t : Int64) : Prop :=
  (minTs ≤ t ∧ t ≤ maxTs) ∨ (maxTs ≤ t ∧ t ≤ minTs)

theorem one_le_max (width : Int64) : 1 ≤ (max width 1).toInt := by
  have h : (1 : Int64) ≤ max width 1 := by
    change 1 ≤ if width ≤ 1 then 1 else width
    split <;> grind
  simpa using Int64.le_iff_toInt_le.mp h

/-- The bounds of a span in order, and the ticks between them. -/
theorem inSpan_iff :
    InSpan minTs maxTs t ↔ spanLow minTs maxTs ≤ t ∧ t ≤ spanHigh minTs maxTs := by
  unfold InSpan spanLow spanHigh
  split <;> grind

theorem divEuclid_mono {a b : Int64} (hw : 1 ≤ width.toInt) (h : a ≤ b) :
    (divEuclid a width).toInt ≤ (divEuclid b width).toInt := by
  rw [toInt_divEuclid hw, toInt_divEuclid hw]
  exact Int.ediv_le_ediv (by omega) (Int64.le_iff_toInt_le.mp h)

/-- The slots of a span: what bounds each of them. -/
theorem slot_bounds {lo hi slot : Int64} (hw : 1 ≤ width.toInt) (hle : lo ≤ hi)
    (h : slot ∈ boundedShardSlots (divEuclid lo width)
      (divEuclid hi width) maxShardSlotsPerRecord) :
    lo.toInt < slot.toInt * width.toInt + width.toInt ∧ slot.toInt * width.toInt < 2 ^ 63 := by
  obtain ⟨-, h₁, h₂⟩ := (mem_boundedShardSlots (divEuclid_mono hw hle)).mp h
  have hlo := (divEuclid_bounds (t := lo) hw).2
  have hhi := (divEuclid_bounds (t := hi) hw).1
  have htop := hi.toInt_lt
  constructor
  · calc lo.toInt < (divEuclid lo width).toInt * width.toInt + width.toInt := hlo
      _ ≤ slot.toInt * width.toInt + width.toInt := by
          have := Int.mul_le_mul_of_nonneg_right h₁ (show 0 ≤ width.toInt by omega)
          omega
  · calc slot.toInt * width.toInt ≤ (divEuclid hi width).toInt * width.toInt :=
          Int.mul_le_mul_of_nonneg_right h₂ (by omega)
      _ ≤ hi.toInt := hhi
      _ < 2 ^ 63 := htop

theorem shardRangeOfSlot_nonempty {slot : Int64} (hw : 1 ≤ width.toInt)
    (htop : slot.toInt * width.toInt < 2 ^ 63) :
    (shardRangeOfSlot slot width).start ≤ (shardRangeOfSlot slot width).stop := by
  obtain ⟨hst, hsto⟩ := shardRange_toInt hw htop
  rw [Int64.le_iff_toInt_le]
  change (shardRange slot width).start.toInt ≤ (shardRange slot width).stop.toInt
  rw [hst, hsto]
  omega

theorem spanLow_le_spanHigh (minTs maxTs : Int64) : spanLow minTs maxTs ≤ spanHigh minTs maxTs := by
  unfold spanLow spanHigh
  split <;> grind

/-- Every shard of a record has a tick. -/
theorem shardRangesForSpan_nonempty (h : range ∈ shardRangesForSpan minTs maxTs width) :
    range.start ≤ range.stop := by
  simp only [shardRangesForSpan] at h
  split at h
  · rw [List.mem_singleton.mp h]
    decide
  · obtain ⟨slot, hsl, rfl⟩ := List.mem_map.mp h
    exact shardRangeOfSlot_nonempty (one_le_max width)
      (slot_bounds (one_le_max width) (spanLow_le_spanHigh minTs maxTs) hsl).2

/-- Every tick of a record's span lies in one of the record's shards. -/
theorem exists_shard_of_tick (width : Int64) (ht : InSpan minTs maxTs t) :
    ∃ range ∈ shardRangesForSpan minTs maxTs width, range.start ≤ t ∧ t ≤ range.stop := by
  have hw := one_le_max width
  obtain ⟨hlo, hhi⟩ := inSpan_iff.mp ht
  simp only [shardRangesForSpan]
  split
  · exact ⟨unboundedShardRange, by simp, Int64.minValue_le t, Int64.le_maxValue t⟩
  · rename_i hsl
    refine ⟨shardRangeOfSlot (divEuclid t (max width 1)) (max width 1),
      List.mem_map_of_mem ((mem_boundedShardSlots
        (divEuclid_mono hw (spanLow_le_spanHigh minTs maxTs))).mpr ⟨fun hma => hsl ?_,
          divEuclid_mono hw hlo, divEuclid_mono hw hhi⟩),
      mem_shardRange_divEuclid hw⟩
    simp [boundedShardSlots, hma]

/-- No shard of a record is listed twice: only the lowest slot can be clamped. -/
theorem nodup_shardRangesForSpan : (shardRangesForSpan minTs maxTs width).Nodup := by
  have hw := one_le_max width
  have hle := spanLow_le_spanHigh minTs maxTs
  simp only [shardRangesForSpan]
  split
  · exact List.nodup_singleton _
  · refine List.Nodup.map_on (fun s hs s' hs' heq => ?_)
      (nodup_boundedShardSlots (divEuclid_mono hw hle))
    obtain ⟨hlo, htop⟩ := slot_bounds hw hle hs
    obtain ⟨hlo', htop'⟩ := slot_bounds hw hle hs'
    have hst := congrArg (fun range => range.start.toInt) heq
    simp only [shardRangeOfSlot, (shardRange_toInt hw htop).1,
      (shardRange_toInt hw htop').1] at hst
    have hbot := (spanLow minTs maxTs).le_toInt
    apply Int64.toInt_inj.mp
    rcases lt_trichotomy s.toInt s'.toInt with hlt | heq' | hlt
    · have := Int.mul_le_mul_of_nonneg_right (show s.toInt + 1 ≤ s'.toInt by omega)
        (show 0 ≤ (max width 1).toInt by omega)
      rw [add_mul, one_mul] at this
      omega
    · exact heq'
    · have := Int.mul_le_mul_of_nonneg_right (show s'.toInt + 1 ≤ s.toInt by omega)
        (show 0 ≤ (max width 1).toInt by omega)
      rw [add_mul, one_mul] at this
      omega

end Grid

end KrabkaO11y.Blockstore
