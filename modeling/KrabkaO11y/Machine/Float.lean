import Mathlib.Data.Rat.Defs
import Mathlib.Tactic

/-!
Integers and quotients as `f64`, rounded to the nearest and halfway cases to even, as bit
patterns; and the number that a pattern stands for. Integers up to `2 ^ 53` are exact.
-/

namespace KrabkaO11y.Machine

/-- `num / den` rounded to the nearest natural number, ties to even. -/
def roundDiv (num den : Nat) : Nat :=
  if den < 2 * (num % den) ∨ (2 * (num % den) = den ∧ num / den % 2 = 1) then num / den + 1
  else num / den

/-- The bits of the `f64` closest to `num / den`, which is zero or at least `2 ^ -64`. A
significand that rounds up to `2 ^ 53` carries into the exponent. -/
def f64OfRatio (num den : Nat) : Nat :=
  if num = 0 then 0
  else
    -- the exponent of `num / den`, plus 64
    let exponent := (num * 2 ^ 64 / den).log2
    (exponent + 958) * 2 ^ 52 + roundDiv (num * 2 ^ (116 - exponent)) (den * 2 ^ (exponent - 116))

/-- An integer as an `f64`: the sign and the bits of the closest magnitude. -/
def f64OfInt (n : Int) : BitVec 64 :=
  BitVec.ofNat 64 ((if n < 0 then 2 ^ 63 else 0) + f64OfRatio n.natAbs 1)

/-- The number that the bits of a finite `f64` stand for. -/
def f64Value (bits : BitVec 64) : ℚ :=
  let exponent : ℕ := bits.toNat / 2 ^ 52 % 2 ^ 11
  let fraction : ℕ := bits.toNat % 2 ^ 52
  let magnitude : ℚ :=
    if exponent = 0 then fraction * 2 ^ (-1074 : ℤ)
    else (2 ^ 52 + fraction : ℕ) * 2 ^ (exponent - 1075 : ℤ)
  if 2 ^ 63 ≤ bits.toNat then -magnitude else magnitude

/-- The top bit is the sign. -/
theorem f64Value_sign {magnitude : Nat} (range : magnitude < 2 ^ 63) :
    f64Value (BitVec.ofNat 64 (2 ^ 63 + magnitude)) = -f64Value (BitVec.ofNat 64 magnitude) := by
  have signed : (BitVec.ofNat 64 (2 ^ 63 + magnitude)).toNat = 2 ^ 63 + magnitude := by
    rw [BitVec.toNat_ofNat]
    omega
  have plain : (BitVec.ofNat 64 magnitude).toNat = magnitude := by
    rw [BitVec.toNat_ofNat]
    omega
  have exponent : (2 ^ 63 + magnitude) / 2 ^ 52 % 2 ^ 11 = magnitude / 2 ^ 52 % 2 ^ 11 := by omega
  have fraction : (2 ^ 63 + magnitude) % 2 ^ 52 = magnitude % 2 ^ 52 := by omega
  simp only [f64Value, signed, plain, exponent, fraction]
  rw [if_pos (Nat.le_add_right _ _), if_neg (Nat.not_le.mpr range)]

/-- The bits of an exponent and a significand with its leading bit. -/
theorem f64Value_ofNat {exponent significand : Nat} (low : 2 ^ 52 ≤ significand)
    (high : significand < 2 ^ 53) (range : exponent < 2046) :
    f64Value (BitVec.ofNat 64 (exponent * 2 ^ 52 + significand)) =
      significand * 2 ^ (exponent - 1074 : ℤ) := by
  obtain ⟨fraction, rfl⟩ := Nat.exists_eq_add_of_le low
  have bits : (BitVec.ofNat 64 (exponent * 2 ^ 52 + (2 ^ 52 + fraction))).toNat =
      (exponent + 1) * 2 ^ 52 + fraction := by
    rw [BitVec.toNat_ofNat]
    omega
  have field : ((exponent + 1) * 2 ^ 52 + fraction) / 2 ^ 52 % 2 ^ 11 = exponent + 1 := by omega
  have rest : ((exponent + 1) * 2 ^ 52 + fraction) % 2 ^ 52 = fraction := by omega
  have shift : ((exponent + 1 : ℕ) - 1075 : ℤ) = exponent - 1074 := by omega
  simp only [f64Value, bits, field, rest, shift]
  rw [if_neg (by omega), if_neg (by omega)]

theorem roundDiv_mul {n den : Nat} (pos : 0 < den) : roundDiv (n * den) den = n := by
  rw [roundDiv, Nat.mul_mod_left, Nat.mul_div_cancel _ pos, if_neg (by omega)]

/-- A positive integer up to `2 ^ 53` has a significand of 53 bits. -/
theorem f64OfRatio_exact {n : Nat} (pos : n ≠ 0) (bound : n ≤ 2 ^ 53) :
    ∃ exponent significand, f64OfRatio n 1 = exponent * 2 ^ 52 + significand ∧
      2 ^ 52 ≤ significand ∧ significand < 2 ^ 53 ∧ exponent < 2046 ∧
      (significand * 2 ^ (exponent - 1074 : ℤ) : ℚ) = n := by
  have le := Nat.log2_self_le pos
  have lt := Nat.lt_log2_self (n := n)
  set top := n.log2
  have exponent : (n * 2 ^ 64 / 1).log2 = top + 64 := by
    rw [Nat.div_one, Nat.log2_eq_iff (by omega), pow_add, show top + 64 + 1 = top + 1 + 64 by omega,
      pow_add 2 (top + 1)]
    exact ⟨Nat.mul_le_mul_right _ le, Nat.mul_lt_mul_of_pos_right lt (by positivity)⟩
  rw [f64OfRatio, if_neg pos, exponent]
  rcases Nat.lt_or_ge 52 top with big | small
  · -- only `2 ^ 53` itself has more than 53 bits
    have topEq : top = 53 := by
      have := (Nat.pow_le_pow_iff_right Nat.one_lt_two).mp (le.trans bound)
      omega
    rw [topEq] at le
    obtain rfl : n = 2 ^ 53 := Nat.le_antisymm bound le
    exact ⟨1075, 2 ^ 52, by rw [topEq]; decide +kernel, le_rfl, by norm_num, by norm_num,
      by norm_num⟩
  · have split : 2 ^ top * 2 ^ (52 - top) = 2 ^ 52 := by rw [← pow_add, Nat.add_sub_cancel' small]
    refine ⟨top + 1022, n * 2 ^ (52 - top), ?_, ?_, ?_, by omega, ?_⟩
    · dsimp only
      rw [show 116 - (top + 64) = 52 - top by omega, show top + 64 - 116 = 0 by omega,
        pow_zero, ← Nat.mul_one (n * _), Nat.one_mul, roundDiv_mul Nat.one_pos, Nat.mul_one]
    · rw [← split]
      exact Nat.mul_le_mul_right _ le
    · calc n * 2 ^ (52 - top) < 2 ^ (top + 1) * 2 ^ (52 - top) :=
            Nat.mul_lt_mul_of_pos_right lt (by positivity)
        _ = 2 ^ 53 := by rw [pow_succ', mul_assoc, split, ← pow_succ']
    · have shift : ((top + 1022 : ℕ) - 1074 : ℤ) = -((52 - top : ℕ) : ℤ) := by omega
      rw [shift, zpow_neg, zpow_natCast]
      push_cast
      field_simp

/-- Integers of magnitude up to `2 ^ 53` are exact. -/
theorem f64Value_f64OfInt {n : Int} (bound : n.natAbs ≤ 2 ^ 53) : f64Value (f64OfInt n) = n := by
  rcases eq_or_ne n 0 with rfl | nonzero
  · simp [f64OfInt, f64OfRatio, f64Value]
  · obtain ⟨exponent, significand, bits, low, high, range, value⟩ :=
      f64OfRatio_exact (Int.natAbs_ne_zero.mpr nonzero) bound
    have plain := f64Value_ofNat low high range
    rw [value, ← Int.cast_natCast, Int.natCast_natAbs] at plain
    rw [f64OfInt, bits]
    by_cases negative : n < 0
    · rw [if_pos negative, f64Value_sign (by omega), plain, abs_of_neg negative]
      push_cast
      ring
    · rw [if_neg negative, Nat.zero_add, plain, abs_of_nonneg (by omega)]

end KrabkaO11y.Machine
