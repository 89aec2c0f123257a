import Mathlib

/-!
Arithmetic on `i64` that saturates, and sums that wrap.
-/

namespace KrabkaO11y.Machine

/-- The integer in the range of `i64` closest to an integer. -/
def clamp (n : Int) : Int := max (-2 ^ 63) (min n (2 ^ 63 - 1))

def saturate (n : Int) : Int64 := Int64.ofInt (clamp n)

def saturatingSub (a b : Int64) : Int64 := saturate (a.toInt - b.toInt)

def saturatingAdd (a b : Int64) : Int64 := saturate (a.toInt + b.toInt)

theorem toInt_saturate (n : Int) : (saturate n).toInt = max (-2 ^ 63) (min n (2 ^ 63 - 1)) := by
  rw [saturate, clamp, Int64.toInt_ofInt_of_le (by omega) (by omega)]

theorem saturate_mono {m n : Int} (h : m ≤ n) : saturate m ≤ saturate n := by
  rw [Int64.le_iff_toInt_le, toInt_saturate, toInt_saturate]
  omega

theorem saturate_nonneg {n : Int} (h : 0 ≤ n) : 0 ≤ (saturate n).toInt := by
  rw [toInt_saturate]
  omega

theorem saturatingSub_mono {a b : Int64} (h : a ≤ b) (c : Int64) :
    saturatingSub a c ≤ saturatingSub b c := by
  rw [Int64.le_iff_toInt_le] at h
  exact saturate_mono (by omega)

theorem saturatingSub_anti {b c : Int64} (a : Int64) (h : b ≤ c) :
    saturatingSub a c ≤ saturatingSub a b := by
  rw [Int64.le_iff_toInt_le] at h
  exact saturate_mono (by omega)

theorem saturatingSub_self (a : Int64) : saturatingSub a a = 0 := by
  rw [saturatingSub, sub_self]
  rfl

/-- A sum wraps once, however it is added up. -/
theorem sum_eq_ofInt (values : List Int64) :
    values.sum = Int64.ofInt (values.map Int64.toInt).sum := by
  induction values with
  | nil => rfl
  | cons value rest ih =>
    rw [List.sum_cons, ih, List.map_cons, List.sum_cons, Int64.ofInt_add, Int64.ofInt_toInt]

theorem sum_perm {values values' : List Int64} (h : values.Perm values') :
    values.sum = values'.sum := by
  rw [sum_eq_ofInt, sum_eq_ofInt, (h.map _).sum_eq]

theorem toInt_sum {values : List Int64} (low : -2 ^ 63 ≤ (values.map Int64.toInt).sum)
    (high : (values.map Int64.toInt).sum < 2 ^ 63) :
    values.sum.toInt = (values.map Int64.toInt).sum := by
  rw [sum_eq_ofInt, Int64.toInt_ofInt_of_le low high]

end KrabkaO11y.Machine
