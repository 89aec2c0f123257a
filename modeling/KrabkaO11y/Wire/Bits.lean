import Mathlib

/-!
Bit strings, most significant bit first, and byte strings as bit strings.

`toBits w n` writes the low `w` bits of a number, and `ofBits` reads a bit string back as a
number. A wider string is that of the high part followed by that of the low part, which is
how numbers are taken apart and put together.
-/

namespace KrabkaO11y.Wire

open List

/-- The low `w` bits of a number, the highest first. -/
def toBits : Nat → Nat → List Bool
  | 0, _ => []
  | w + 1, n => n.testBit w :: toBits w n

/-- The number that some bits write. -/
def ofBits (bits : List Bool) : Nat := bits.foldl (fun n bit => 2 * n + bit.toNat) 0

@[simp] theorem length_toBits (w n : Nat) : (toBits w n).length = w := by
  induction w with
  | zero => rfl
  | succ w ih => rw [toBits, length_cons, ih]

theorem toBits_congr {w m n : Nat} (h : ∀ i < w, m.testBit i = n.testBit i) :
    toBits w m = toBits w n := by
  induction w with
  | zero => rfl
  | succ w ih => rw [toBits, toBits, h w w.lt_succ_self, ih fun i hi => h i (by omega)]

/-- Bits written alike are alike. -/
theorem testBit_of_toBits_eq {w m n : Nat} (h : toBits w m = toBits w n) :
    ∀ i < w, m.testBit i = n.testBit i := by
  induction w with
  | zero => exact fun i hi => absurd hi (Nat.not_lt_zero i)
  | succ w ih =>
    obtain ⟨hhd, hta⟩ := List.cons.inj h
    intro i hi
    rcases Nat.lt_succ_iff_lt_or_eq.mp hi with hlt | rfl
    · exact ih hta i hlt
    · exact hhd

theorem toBits_mod (w n : Nat) : toBits w (n % 2 ^ w) = toBits w n :=
  toBits_congr fun i hi => by rw [Nat.testBit_mod_two_pow, decide_eq_true hi, Bool.true_and]

theorem toBits_byte (n : Nat) : toBits 8 (n % 256) = toBits 8 n := toBits_mod 8 n

theorem toBits_zero (w : Nat) : toBits w 0 = List.replicate w false := by
  induction w with
  | zero => rfl
  | succ w ih => rw [toBits, ih, Nat.zero_testBit, replicate_succ]

theorem toBits_add (v w n : Nat) : toBits (v + w) n = toBits v (n >>> w) ++ toBits w n := by
  induction v with
  | zero => rw [Nat.zero_add]; rfl
  | succ v ih =>
    rw [Nat.add_right_comm, toBits, toBits, ih, Nat.testBit_shiftRight, Nat.add_comm w v,
      cons_append]

/-- Shifting left writes zeros below. -/
theorem toBits_shiftLeft (w k n : Nat) :
    toBits (w + k) (n <<< k) = toBits w n ++ List.replicate k false := by
  have hlow : toBits k (n <<< k) = toBits k 0 := toBits_congr fun i hi => by
    rw [Nat.testBit_shiftLeft, Nat.zero_testBit, decide_eq_false (Nat.not_le.mpr hi),
      Bool.false_and]
  rw [toBits_add, Nat.shiftLeft_shiftRight, hlow, toBits_zero]

/-- Or with a number below a bit leaves the bits from there on. -/
theorem or_shiftRight_of_lt {x y k : Nat} (h : y < 2 ^ k) : (x ||| y) >>> k = x >>> k := by
  rw [Nat.shiftRight_or_distrib, Nat.shiftRight_eq_div_pow y, Nat.div_eq_of_lt h, Nat.or_zero]

/-- Or with a number over bits that are zero writes its bits there. -/
theorem toBits_or_of_zero {x y k : Nat} (h : toBits k x = List.replicate k false) :
    toBits k (x ||| y) = toBits k y := by
  rw [← toBits_zero] at h
  refine toBits_congr fun i hi => ?_
  rw [Nat.testBit_or, testBit_of_toBits_eq h i hi, Nat.zero_testBit, Bool.false_or]

theorem foldl_ofBits (bits : List Bool) :
    ∀ n : Nat, bits.foldl (fun n bit => 2 * n + bit.toNat) n =
      n * 2 ^ bits.length + ofBits bits := by
  induction bits with
  | nil => intro n; simp [ofBits]
  | cons bit bits ih =>
    intro n
    have hcn : ofBits (bit :: bits) = (2 * 0 + bit.toNat) * 2 ^ bits.length + ofBits bits :=
      ih (2 * 0 + bit.toNat)
    rw [foldl_cons, ih, hcn, length_cons]
    ring

theorem ofBits_toBits (w n : Nat) : ofBits (toBits w n) = n % 2 ^ w := by
  induction w with
  | zero => rw [Nat.pow_zero, Nat.mod_one]; rfl
  | succ w ih =>
    have hsp : n % 2 ^ (w + 1) = n % 2 ^ w + 2 ^ w * (n / 2 ^ w % 2) := Nat.mod_mul
    rw [toBits, ofBits, foldl_cons, foldl_ofBits, ih, length_toBits, hsp,
      Nat.toNat_testBit]
    ring

theorem ofBits_toBits_of_lt {w n : Nat} (h : n < 2 ^ w) : ofBits (toBits w n) = n := by
  rw [ofBits_toBits, Nat.mod_eq_of_lt h]

/-! ### Byte strings -/

/-- The bits of some bytes. -/
def bitsOf (bytes : List Nat) : List Bool := bytes.flatMap (toBits 8)

theorem bitsOf_append (bytes bytes' : List Nat) :
    bitsOf (bytes ++ bytes') = bitsOf bytes ++ bitsOf bytes' := flatMap_append ..

theorem bitsOf_singleton (byte : Nat) : bitsOf [byte] = toBits 8 byte := append_nil _

theorem length_bitsOf (bytes : List Nat) : (bitsOf bytes).length = bytes.length * 8 := by
  induction bytes with
  | nil => rfl
  | cons byte bytes ih =>
    rw [bitsOf, flatMap_cons, length_append, length_toBits, ← bitsOf, ih,
      length_cons]
    omega

theorem getElem?_toBits {w n i : Nat} (h : i < w) :
    (toBits w n)[i]? = some (n.testBit (w - 1 - i)) := by
  induction w generalizing i with
  | zero => omega
  | succ w ih =>
    cases i with
    | zero => rfl
    | succ i =>
      rw [toBits, getElem?_cons_succ, ih (by omega)]
      congr 2
      omega

/-- The bit at a position is in the byte an eighth as far. -/
theorem getElem?_bitsOf (bytes : List Nat) (position : Nat) :
    (bitsOf bytes)[position]? =
      bytes[position / 8]?.map fun byte => byte.testBit (7 - position % 8) := by
  induction bytes generalizing position with
  | nil => rfl
  | cons byte bytes ih =>
    rw [bitsOf, flatMap_cons, ← bitsOf]
    rcases Nat.lt_or_ge position 8 with hlt | hge
    · rw [getElem?_append_left (by rwa [length_toBits]), getElem?_toBits hlt,
        Nat.div_eq_of_lt hlt, Nat.mod_eq_of_lt hlt]
      rfl
    · rw [getElem?_append_right (by rwa [length_toBits]), length_toBits, ih,
        show position / 8 = (position - 8) / 8 + 1 by omega,
        show position % 8 = (position - 8) % 8 by omega, getElem?_cons_succ]

end KrabkaO11y.Wire
