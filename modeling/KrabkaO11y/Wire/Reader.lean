import Mathlib

/-!
Readers of byte strings, and what it means for bytes to be read back.

`Decodes read bytes a` says that `read` takes exactly `bytes` off the front of its
input, whatever follows, and yields `a`. Sequencing two readers concatenates their
bytes, and a counted list is read back element by element.
-/

namespace KrabkaO11y.Wire

open List

/-- Takes a value off the front of the bytes that are left. -/
abbrev Reader (ε α : Type) := StateT (List UInt8) (Except ε) α

/-- `read` takes exactly `bytes` and yields `a`. -/
def Decodes {ε α : Type} (read : Reader ε α) (bytes : List UInt8) (a : α) : Prop :=
  ∀ rest, read.run (bytes ++ rest) = .ok (a, rest)

section Sequencing

variable {ε α β : Type}

theorem Decodes.pure (a : α) : Decodes (pure a : Reader ε α) [] a := fun _ => rfl

variable {read : Reader ε α} {a : α}

theorem Decodes.bind {next : α → Reader ε β} {front back : List UInt8} {b : β}
    (hfront : Decodes read front a) (hback : Decodes (next a) back b) :
    Decodes (read >>= next) (front ++ back) b := by
  intro rest
  rw [append_assoc, StateT.run_bind, hfront (back ++ rest)]
  exact hback rest

theorem Decodes.map {bytes : List UInt8} (h : Decodes read bytes a) (f : α → β) :
    Decodes (f <$> read) bytes (f a) := by
  intro rest
  rw [StateT.run_map, h rest]
  rfl

/-- Reads the whole input: what `Decodes` gives when nothing follows. -/
theorem Decodes.run {bytes : List UInt8} (h : Decodes read bytes a) :
    read.run bytes = .ok (a, []) := by
  simpa using h []

end Sequencing

section Many

variable {ε α σ : Type}

/-- Reads `n` elements, handing a state from each to the next. -/
def readMany (read : σ → Reader ε (α × σ)) : Nat → σ → Reader ε (List α)
  | 0, _ => pure []
  | n + 1, state => do
    let (a, state) ← read state
    let rest ← readMany read n state
    pure (a :: rest)

/-- The bytes of a list whose elements hand a state on, as `readMany` reads it. -/
def writeMany (write : σ → α → List UInt8) (next : σ → α → σ) : List α → σ → List UInt8
  | [], _ => []
  | a :: rest, state => write state a ++ writeMany write next rest (next state a)

/-- Every element is good in the state it is reached in. -/
def Along (good : σ → α → Prop) (next : σ → α → σ) : List α → σ → Prop
  | [], _ => True
  | a :: rest, state => good state a ∧ Along good next rest (next state a)

variable {write : σ → α → List UInt8} {next : σ → α → σ} {read : σ → Reader ε (α × σ)} {bound : Nat}

theorem decodes_readMany_along (good : σ → α → Prop)
    (h : ∀ state a, good state a → (write state a).length < bound →
      Decodes (read state) (write state a) (a, next state a)) :
    ∀ (xs : List α) (state : σ), Along good next xs state →
      (writeMany write next xs state).length < bound →
      Decodes (readMany read xs.length state) (writeMany write next xs state) xs := by
  intro xs
  induction xs with
  | nil => intro state _ _; exact Decodes.pure []
  | cons a rest ih =>
    intro state hgo hlen
    rw [writeMany, length_append] at hlen
    refine (h state a hgo.1 (by omega)).bind ?_
    simpa using (ih (next state a) hgo.2 (by omega)).map (List.cons a)

theorem along_of_forall {good : α → Prop} :
    ∀ (xs : List α) (state : σ), (∀ a ∈ xs, good a) → Along (fun _ => good) next xs state := by
  intro xs
  induction xs with
  | nil => intro _ _; exact trivial
  | cons a rest ih =>
    intro state h
    exact ⟨h a (by simp), ih _ fun b hb => h b (by simp [hb])⟩

theorem decodes_readMany (good : α → Prop)
    (h : ∀ state a, good a → (write state a).length < bound →
      Decodes (read state) (write state a) (a, next state a)) (xs : List α) (state : σ)
    (hgood : ∀ a ∈ xs, good a) (hlen : (writeMany write next xs state).length < bound) :
    Decodes (readMany read xs.length state) (writeMany write next xs state) xs :=
  decodes_readMany_along (fun _ => good) h xs state (along_of_forall xs state hgood) hlen

/-- Every element takes at least one byte, so a list takes at least its length. -/
theorem length_le_writeMany (h : ∀ state a, 0 < (write state a).length) :
    ∀ (xs : List α) (state : σ), xs.length ≤ (writeMany write next xs state).length := by
  intro xs
  induction xs with
  | nil => intro state; exact Nat.zero_le _
  | cons a rest ih =>
    intro state
    have := h state a
    have := ih (next state a)
    simp only [writeMany, length_append, length_cons]
    omega

/-- One element over and over, in a state it keeps. -/
theorem length_writeMany_replicate {state : σ} {a : α} (h : next state a = state) :
    ∀ n, (writeMany write next (List.replicate n a) state).length =
      n * (write state a).length := by
  intro n
  induction n with
  | zero => exact (Nat.zero_mul _).symm
  | succ n ih =>
    rw [replicate_succ, writeMany, length_append, h, ih]
    ring

end Many

/-! ### What a reader does on any input -/

section Inputs

variable {ε α β σ : Type}

/-- More bytes behind the input change what is left, and nothing else. -/
def Extends (read : Reader ε α) : Prop :=
  ∀ bytes more a rest, read.run bytes = .ok (a, rest) →
    read.run (bytes ++ more) = .ok (a, rest ++ more)

/-- Whatever is read has the property. -/
def Yields (read : Reader ε α) (good : α → Prop) : Prop :=
  ∀ bytes a rest, read.run bytes = .ok (a, rest) → good a

variable {read : Reader ε α} {next : α → Reader ε β}

/-- What a sequence has read, part by part. -/
theorem run_bind_eq_ok {bytes rest : List UInt8} {b : β}
    (h : (read >>= next).run bytes = .ok (b, rest)) :
    ∃ a middle, read.run bytes = .ok (a, middle) ∧ (next a).run middle = .ok (b, rest) := by
  rw [StateT.run_bind] at h
  cases hrd : read.run bytes with
  | error e => rw [hrd] at h; cases h
  | ok out => rw [hrd] at h; exact ⟨out.1, out.2, rfl, h⟩

theorem Extends.pure (a : α) : Extends (pure a : Reader ε α) := by
  intro bytes more b rest h
  cases h
  rfl

theorem Extends.throw (e : ε) : Extends (throw e : Reader ε α) := by
  intro bytes more b rest h
  cases h

theorem Extends.bind (h : Extends read) (hn : ∀ a, Extends (next a)) : Extends (read >>= next) := by
  intro bytes more b rest hrun
  obtain ⟨a, middle, hrd, hr⟩ := run_bind_eq_ok hrun
  rw [StateT.run_bind, h bytes more a middle hrd]
  exact hn a middle more b rest hr

theorem Extends.ite {p : Prop} [Decidable p] {yes no : Reader ε α} (hyes : Extends yes)
    (hno : Extends no) : Extends (if p then yes else no) := by
  split
  · exact hyes
  · exact hno

theorem Extends.readMany {read : σ → Reader ε (α × σ)} (h : ∀ state, Extends (read state)) :
    ∀ (n : Nat) (state : σ), Extends (readMany read n state) := by
  intro n
  induction n with
  | zero => exact fun _ => .pure []
  | succ n ih =>
    intro state
    exact (h state).bind fun out => (ih out.2).bind fun rest => .pure _

theorem Yields.bind {good : β → Prop} (h : ∀ a, Yields (next a) good) :
    Yields (read >>= next) good := by
  intro bytes b rest hrun
  obtain ⟨a, middle, -, hr⟩ := run_bind_eq_ok hrun
  exact h a middle b rest hr

theorem Yields.bind_of {held : α → Prop} {good : β → Prop} (hread : Yields read held)
    (h : ∀ a, held a → Yields (next a) good) :
    Yields (read >>= next) good := by
  intro bytes b rest hrun
  obtain ⟨a, middle, hf, hr⟩ := run_bind_eq_ok hrun
  exact h a (hread bytes a middle hf) middle b rest hr

theorem Yields.pure {good : α → Prop} {a : α} (h : good a) :
    Yields (pure a : Reader ε α) good := by
  intro bytes b rest hrun
  cases hrun
  exact h

theorem Yields.readMany {read : σ → Reader ε (α × σ)} {good : α → Prop}
    (h : ∀ state, Yields (read state) fun out => good out.1) :
    ∀ (n : Nat) (state : σ), Yields (readMany read n state) fun xs => ∀ x ∈ xs, good x := by
  intro n
  induction n with
  | zero => exact fun _ => .pure nofun
  | succ n ih =>
    intro state
    refine (h state).bind_of fun out hout => (ih out.2).bind_of fun rest hr => .pure ?_
    exact forall_mem_cons.mpr ⟨hout, hr⟩

/-- What is read with a state that each element hands on. -/
theorem Yields.readMany_along {read : σ → Reader ε (α × σ)} {good : σ → α → Prop}
    {next : σ → α → σ}
    (h : ∀ state, Yields (read state) fun out =>
      good state out.1 ∧ out.2 = next state out.1) :
    ∀ (n : Nat) (state : σ),
      Yields (Wire.readMany read n state) fun xs => Along good next xs state := by
  intro n
  induction n with
  | zero => exact fun _ => .pure trivial
  | succ n ih =>
    intro state
    refine (h state).bind_of fun out hout => (ih out.2).bind_of fun rest hrest => .pure ?_
    exact ⟨hout.1, hout.2 ▸ hrest⟩

/-- Bytes that are read to their end have no strict front that is read to its end. -/
theorem Extends.not_run_front (h : Extends read) {front more : List UInt8} {a b : α}
    (hall : read.run (front ++ more) = .ok (a, [])) (hfront : read.run front = .ok (b, [])) :
    more = [] := by
  have hmo := h front more b [] hfront
  rw [hall, nil_append] at hmo
  exact (Prod.ext_iff.mp (Except.ok.inj hmo)).2.symm

end Inputs

/-! ### Variable-length integers -/

/-- The base-128 digits of `rest`, low first, with the high bit set on all but the
last. Ten digits hold any 64-bit value. -/
def uvarintBytes : Nat → Nat → List UInt8
  | 0, _ => []
  | fuel + 1, rest =>
    if 128 ≤ rest then UInt8.ofNat (rest % 128 + 128) :: uvarintBytes fuel (rest / 128)
    else [UInt8.ofNat rest]

/-- Reads digits onto `value`, the next of them at bit `shift`. -/
def readDigits {ε : Type} (short overflow : ε) : List UInt8 → Nat → Nat →
    Except ε (Nat × List UInt8)
  | [], _, _ => .error short
  | byte :: rest, value, shift =>
    if 64 ≤ shift ∨ (shift = 63 ∧ 1 < byte.toNat) then .error overflow
    else
      let value := value + byte.toNat % 128 * 2 ^ shift
      if byte.toNat < 128 then .ok (value, rest)
      else readDigits short overflow rest value (shift + 7)

variable {short overflow : ε} {ε : Type}

theorem readDigits_uvarintBytes (tail : List UInt8) :
    ∀ (fuel rest value digits : Nat), digits + fuel = 10 → rest * 2 ^ (7 * digits) < 2 ^ 64 →
      0 < fuel →
      readDigits short overflow (uvarintBytes fuel rest ++ tail) value (7 * digits) =
        .ok (value + rest * 2 ^ (7 * digits), tail) := by
  intro fuel
  induction fuel with
  | zero => intro rest value digits _ _ h; exact absurd h (lt_irrefl 0)
  | succ fuel ih =>
    intro rest value digits hdgs hlt _
    have hsh : 7 * digits ≤ 63 := by omega
    -- at the tenth digit only one bit of the value is left
    have hl : 7 * digits = 63 → rest ≤ 1 := by
      intro h
      rw [h] at hlt
      omega
    rw [uvarintBytes]
    split
    · rename_i hbig
      have hsm : 7 * digits ≠ 63 := fun h => by have := hl h; omega
      have hby : (UInt8.ofNat (rest % 128 + 128)).toNat = rest % 128 + 128 := by
        rw [UInt8.toNat_ofNat']; omega
      have hmul : rest = rest % 128 + rest / 128 * 128 := by omega
      have hpow : 2 ^ (7 * (digits + 1)) = 128 * 2 ^ (7 * digits) := by
        rw [show 7 * (digits + 1) = 7 + 7 * digits by ring, pow_add]; norm_num
      have hn : rest / 128 * 2 ^ (7 * (digits + 1)) ≤ rest * 2 ^ (7 * digits) := by
        rw [hpow, ← mul_assoc]
        exact Nat.mul_le_mul_right _ (Nat.div_mul_le_self rest 128)
      have hfu : 0 < fuel := by
        rcases Nat.eq_zero_or_pos fuel with rfl | h
        · exact absurd (show 7 * digits = 63 by omega) hsm
        · exact h
      simp only [cons_append, readDigits, hby]
      rw [if_neg (by omega), if_neg (by omega), show 7 * digits + 7 = 7 * (digits + 1) by ring,
        ih _ _ _ (by omega) (lt_of_le_of_lt hn hlt) hfu]
      congr 2
      rw [hpow, show (rest % 128 + 128) % 128 = rest % 128 by omega]
      nth_rewrite 3 [hmul]
      ring
    · rename_i hsm
      have hby : (UInt8.ofNat rest).toNat = rest := by
        rw [UInt8.toNat_ofNat']; omega
      simp only [cons_append, nil_append, readDigits, hby]
      rw [if_neg (by omega), if_pos (by omega), Nat.mod_eq_of_lt (by omega)]

/-- Digits end by themselves, so what follows them is left. -/
theorem readDigits_append (more : List UInt8) :
    ∀ (bytes : List UInt8) (value shift n : Nat) (rest : List UInt8),
      readDigits short overflow bytes value shift = .ok (n, rest) →
      readDigits short overflow (bytes ++ more) value shift = .ok (n, rest ++ more) := by
  intro bytes
  induction bytes with
  | nil => intro value shift n rest h; cases h
  | cons byte bytes ih =>
    intro value shift n rest h
    rw [cons_append, readDigits]
    rw [readDigits] at h
    split at h
    · cases h
    · rename_i hft
      rw [if_neg hft]
      simp only at h ⊢
      split at h
      · rename_i hl
        rw [if_pos hl]
        cases h
        rfl
      · rename_i hn
        rw [if_neg hn]
        exact ih _ _ n rest h

theorem uvarintBytes_length_pos {fuel rest : Nat} (h : 0 < fuel) :
    0 < (uvarintBytes fuel rest).length := by
  obtain ⟨fuel, rfl⟩ := Nat.exists_eq_succ_of_ne_zero h.ne'
  rw [uvarintBytes]
  split <;> simp

theorem uvarintBytes_length_le : ∀ fuel rest : Nat, (uvarintBytes fuel rest).length ≤ fuel := by
  intro fuel
  induction fuel with
  | zero => exact fun _ => le_rfl
  | succ fuel ih =>
    intro rest
    rw [uvarintBytes]
    split
    · exact Nat.succ_le_succ (ih _)
    · exact Nat.succ_le_succ (Nat.zero_le fuel)

/-! ### Signed integers -/

/-- Interleaves the signed integers with the unsigned: small magnitudes stay small. -/
def zigzag (value : Int64) : UInt64 := ((value <<< 1) ^^^ (value >>> 63)).toUInt64

def unzigzag (raw : UInt64) : Int64 := (raw >>> 1).toInt64 ^^^ (-(raw &&& 1).toInt64)

section Zigzag

variable {b : BitVec 64}

theorem toNat_and_one (x : BitVec 64) : (x &&& 1#64).toNat = x.toNat % 2 := by
  rw [BitVec.toNat_and]
  exact Nat.and_one_is_mod _

/-- Shifting by all but the sign bit spreads the sign bit. -/
theorem sshiftRight_sign : b.sshiftRight 63 = if b.msb then BitVec.allOnes 64 else 0#64 := by
  refine BitVec.eq_of_getLsbD_eq fun i hi => ?_
  rw [BitVec.getLsbD_sshiftRight]
  by_cases h0 : i = 0
  · subst h0
    cases h : b.msb <;> simp_all [BitVec.msb_eq_getLsbD_last]
  · have hout : ¬ 63 + i < 64 := by omega
    cases h : b.msb with
    | false => simp [hout]
    | true => simp only [hout, if_false, if_true, BitVec.getLsbD_allOnes, hi, decide_true,
        not_le.mpr hi, decide_false, Bool.not_false, Bool.true_and]

theorem unzigzag_bits :
    (b <<< 1 ^^^ b.sshiftRight 63) >>> 1 ^^^ -((b <<< 1 ^^^ b.sshiftRight 63) &&& 1#64) = b := by
  rw [sshiftRight_sign]
  cases h : b.msb with
  | false =>
    have hlt : b.toNat < 2 ^ 63 := by simpa [BitVec.msb_eq_decide] using h
    have hbit : (b <<< 1) &&& 1#64 = 0#64 := by
      refine BitVec.eq_of_toNat_eq ?_
      rw [toNat_and_one]
      simp [Nat.shiftLeft_eq]
    simp only [Bool.false_eq_true, if_false, BitVec.xor_zero, hbit]
    refine BitVec.eq_of_toNat_eq ?_
    simp only [BitVec.neg_zero, BitVec.xor_zero, BitVec.toNat_ushiftRight, BitVec.toNat_shiftLeft,
      Nat.shiftLeft_eq, Nat.shiftRight_eq_div_pow]
    omega
  | true =>
    have hge : 2 ^ 63 ≤ b.toNat := by simpa [BitVec.msb_eq_decide] using h
    have hbit : (~~~(b <<< 1)) &&& 1#64 = 1#64 := by
      refine BitVec.eq_of_toNat_eq ?_
      rw [toNat_and_one]
      simp [Nat.shiftLeft_eq]
      omega
    have hon : -1#64 = BitVec.allOnes 64 := by decide
    simp only [if_true, BitVec.xor_allOnes, hbit, hon]
    refine BitVec.eq_of_toNat_eq ?_
    simp only [BitVec.toNat_not, BitVec.toNat_ushiftRight, BitVec.toNat_shiftLeft,
      Nat.shiftLeft_eq, Nat.shiftRight_eq_div_pow]
    omega

theorem unzigzag_zigzag (value : Int64) : unzigzag (zigzag value) = value := by
  apply Int64.toBitVec_inj.mp
  simpa [zigzag, unzigzag] using unzigzag_bits (b := value.toBitVec)

end Zigzag

/-! ### Fixed-width integers and strings -/

/-- The eight bytes of a 64-bit value, low first. -/
def leBytes (value : UInt64) : List UInt8 :=
  (List.range 8).map fun i => UInt8.ofNat (value.toNat / 256 ^ i)

/-- The value of some bytes, low first. -/
def leValue (bytes : List UInt8) : Nat :=
  bytes.foldr (fun byte value => byte.toNat + 256 * value) 0

theorem leValue_leBytes (value : UInt64) : leValue (leBytes value) = value.toNat := by
  have hlt := value.toNat_lt
  simp only [leBytes, leValue, List.range, List.range.loop, map_cons, map_nil,
    foldr_cons, foldr_nil, UInt8.toNat_ofNat']
  omega

/-- The UTF-8 bytes of a string. -/
def utf8Bytes (text : String) : List UInt8 := text.toUTF8.data.toList

def ofUtf8 (bytes : List UInt8) : Option String := String.fromUTF8? ⟨bytes.toArray⟩

theorem ofUtf8_utf8Bytes (text : String) : ofUtf8 (utf8Bytes text) = some text := by
  have hv : (⟨text.toByteArray.data⟩ : ByteArray).IsValidUTF8 := text.isValidUTF8
  simp only [ofUtf8, utf8Bytes, Array.toArray_toList, String.fromUTF8?,
    String.toUTF8_eq_toByteArray, dif_pos hv]
  rfl

end KrabkaO11y.Wire
