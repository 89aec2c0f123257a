import KrabkaO11y.Machine.Saturating

/-!
The time grid of sharded indexes (`crates/verified/src/shard_range.rs`,
`crates/verified/src/sharding.rs`): the span of a grid slot, and the slots between two
bounds up to a cap.

The checked and Euclidean operations of `i64` are defined through the integer they would
compute without a width.
-/

namespace KrabkaO11y.Verified

open Machine List Int64

/-- `i64::checked_mul`. -/
def checkedMul (a b : Int64) : Option Int64 :=
  if -2 ^ 63 ≤ a.toInt * b.toInt ∧ a.toInt * b.toInt < 2 ^ 63 then
    some (ofInt (a.toInt * b.toInt))
  else none

/-- `i64::div_euclid` with a positive divisor. -/
def divEuclid (a b : Int64) : Int64 := ofInt (a.toInt / b.toInt)

structure ShardTimeRange where
  start : Int64
  stop : Int64
deriving DecidableEq, Repr

/-- The span of grid slot `slot`, clamped where the grid runs off the ends of an `i64`. -/
def shardRange (slot width : Int64) : ShardTimeRange :=
  let start := (checkedMul slot width).getD minValue
  ⟨start, saturatingAdd start (width - 1)⟩

/-- The slots from `first` to `last`, or none when there are more than `maxSlots`. -/
def boundedShardSlots (first last maxSlots : Int64) : List Int64 :=
  if saturatingSub last first ≥ maxSlots then []
  else (List.range (last.toInt - first.toInt).toNat).map
    (fun i : Nat => ofInt (first.toInt + i)) ++ [last]

/-! ### Arithmetic -/

section Arithmetic

variable {a b width t : Int64}

theorem toInt_divEuclid (hw : 1 ≤ width.toInt) :
    (divEuclid t width).toInt = t.toInt / width.toInt := by
  have hlo := t.le_toInt
  have hhi := t.toInt_lt
  have h₁ : t.toInt / width.toInt ≤ 2 ^ 63 - 1 := by
    rcases le_total 0 t.toInt with h | h
    · exact (Int.ediv_le_self _ h).trans (by omega)
    · exact (Int.ediv_nonpos_of_nonpos_of_neg h (by omega)).trans (by norm_num)
  have h₂ : -2 ^ 63 ≤ t.toInt / width.toInt := by
    rw [Int.le_ediv_iff_mul_le (by omega)]
    nlinarith
  rw [divEuclid, toInt_ofInt_of_le h₂ (by omega)]

/-- The slot of `t` starts no later than `t`, and the next one starts after it. -/
theorem divEuclid_bounds (hw : 1 ≤ width.toInt) :
    (divEuclid t width).toInt * width.toInt ≤ t.toInt ∧
      t.toInt < (divEuclid t width).toInt * width.toInt + width.toInt := by
  rw [toInt_divEuclid hw]
  have h := Int.emod_add_mul_ediv t.toInt width.toInt
  have h₁ := Int.emod_nonneg t.toInt (show width.toInt ≠ 0 by omega)
  have h₂ := Int.emod_lt_of_pos t.toInt (show 0 < width.toInt by omega)
  rw [mul_comm]
  omega

theorem toInt_pred (hw : 1 ≤ width.toInt) : (width - 1).toInt = width.toInt - 1 := by
  rw [toInt_sub]
  have := width.toInt_lt
  have h1 : (1 : Int64).toInt = 1 := by decide
  rw [h1]
  simp only [Int.bmod]
  omega

end Arithmetic

section Range

variable {slot width t : Int64}

/-- The span of a slot that does not run off the top. -/
theorem shardRange_toInt (hw : 1 ≤ width.toInt) (htop : slot.toInt * width.toInt < 2 ^ 63) :
    (shardRange slot width).start.toInt = max (-2 ^ 63) (slot.toInt * width.toInt) ∧
      (shardRange slot width).stop.toInt =
        min (2 ^ 63 - 1) (max (-2 ^ 63) (slot.toInt * width.toInt) + width.toInt - 1) := by
  have hst : (shardRange slot width).start.toInt =
      max (-2 ^ 63) (slot.toInt * width.toInt) := by
    simp only [shardRange, checkedMul]
    split
    · rename_i h
      rw [Option.getD_some, toInt_ofInt_of_le h.1 h.2]; omega
    · rw [Option.getD_none, toInt_minValue]; omega
  refine ⟨hst, ?_⟩
  change (saturatingAdd (shardRange slot width).start (width - 1)).toInt = _
  rw [saturatingAdd, toInt_saturate, hst, toInt_pred hw]
  have := width.toInt_lt
  omega

/-- A tick lies in the span of its own slot. -/
theorem mem_shardRange_divEuclid (hw : 1 ≤ width.toInt) :
    (shardRange (divEuclid t width) width).start ≤ t ∧
      t ≤ (shardRange (divEuclid t width) width).stop := by
  obtain ⟨hle, hlt⟩ := divEuclid_bounds (t := t) hw
  have htop := t.toInt_lt
  have hbot := t.le_toInt
  obtain ⟨hst, hsto⟩ := shardRange_toInt hw (lt_of_le_of_lt hle htop)
  rw [le_iff_toInt_le, le_iff_toInt_le, hst, hsto]
  omega

variable {first last maxSlots : Int64}

theorem mem_boundedShardSlots (hle : first.toInt ≤ last.toInt) :
    slot ∈ boundedShardSlots first last maxSlots ↔
      ¬ saturatingSub last first ≥ maxSlots ∧
        first.toInt ≤ slot.toInt ∧ slot.toInt ≤ last.toInt := by
  have hlo := first.le_toInt
  have hhi := last.toInt_lt
  unfold boundedShardSlots
  split
  · rename_i h; simp [h]
  · rename_i h
    simp only [h, not_false_eq_true, true_and, mem_append, mem_map, mem_range,
      mem_singleton]
    constructor
    · rintro (⟨i, hi, rfl⟩ | rfl)
      · rw [toInt_ofInt_of_le (by omega) (by omega)]; omega
      · omega
    · rintro ⟨h₁, h₂⟩
      rcases Int.lt_or_eq_of_le h₂ with hlt | heq
      · refine .inl ⟨(slot.toInt - first.toInt).toNat, by omega, ?_⟩
        apply toInt_inj.mp
        rw [toInt_ofInt_of_le (by omega) (by omega)]; omega
      · exact .inr (toInt_inj.mp heq)

theorem nodup_boundedShardSlots (hle : first.toInt ≤ last.toInt) :
    (boundedShardSlots first last maxSlots).Nodup := by
  have hlo := first.le_toInt
  have hhi := last.toInt_lt
  unfold boundedShardSlots
  split
  · exact nodup_nil
  · refine nodup_append.mpr ⟨?_, nodup_singleton _, ?_⟩
    · refine List.Nodup.map_on (fun i hi j hj heq => ?_) nodup_range
      rw [mem_range] at hi hj
      have := congrArg toInt heq
      rw [toInt_ofInt_of_le (by omega) (by omega),
        toInt_ofInt_of_le (by omega) (by omega)] at this
      omega
    · intro x hx y hy heq
      obtain ⟨i, hi, rfl⟩ := mem_map.mp hx
      rw [mem_range] at hi
      rw [mem_singleton] at hy
      have := congrArg toInt (heq.trans hy)
      rw [toInt_ofInt_of_le (by omega) (by omega)] at this
      omega

end Range

end KrabkaO11y.Verified
