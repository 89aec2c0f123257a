import KrabkaO11y.Wire.Reader

/-!
Text that is put together from segments and numbers of a fixed width, and taken apart
again.

A segment ends at the first separator after it, so text comes apart where it was put
together when no segment has a separator in it. Numbers of one width are ordered as their
digits are.
-/

namespace KrabkaO11y.Wire

open List

/-! ### ASCII -/

/-- The bytes of ASCII text are its characters. -/
theorem utf8Bytes_ofList : ∀ {cs : List Char}, (∀ c ∈ cs, c.toNat < 128) →
    utf8Bytes (String.ofList cs) = cs.map fun c => UInt8.ofNat c.toNat := by
  have hda : ∀ cs : List Char, utf8Bytes (String.ofList cs) = cs.flatMap String.utf8EncodeChar := by
    intro cs
    rw [utf8Bytes, String.toUTF8_eq_toByteArray, String.toByteArray_ofList, List.utf8Encode]
    simp
  intro cs h
  rw [hda]
  induction cs with
  | nil => rfl
  | cons c cs ih =>
    have hsz : c.utf8Size = 1 := by
      rw [Char.utf8Size_eq_one_iff, UInt32.le_iff_toNat_le]
      exact Nat.le_of_lt_succ (h c mem_cons_self)
    rw [flatMap_cons, String.utf8EncodeChar_eq_singleton hsz,
      ih fun d hd => h d (mem_cons_of_mem c hd)]
    rfl

/-! ### Separators -/

section Split

variable {α : Type} [DecidableEq α] {sep : α}

/-- What stands before the first separator, and what stands after it. -/
def splitOnce (sep : α) : List α → Option (List α × List α)
  | [] => none
  | a :: rest =>
    if a = sep then some ([], rest)
    else (splitOnce sep rest).map fun halves => (a :: halves.1, halves.2)

theorem splitOnce_eq_some_iff : ∀ {xs front back : List α},
    splitOnce sep xs = some (front, back) ↔ xs = front ++ sep :: back ∧ sep ∉ front := by
  intro xs
  induction xs with
  | nil => intro front back; simp [splitOnce]
  | cons a rest ih =>
    intro front back
    rw [splitOnce]
    split
    · rename_i ha
      cases front with
      | nil => simp [ha]
      | cons b front => simp [ha]; rintro rfl; simp
    · rename_i ha
      cases front with
      | nil => simp [ha]
      | cons b front =>
        rw [Option.map_eq_some_iff]
        constructor
        · rintro ⟨⟨f, k⟩, hsp, heq⟩
          cases heq
          obtain ⟨hr, hf⟩ := ih.mp hsp
          exact ⟨congrArg (a :: ·) hr, not_mem_cons_of_ne_of_not_mem (Ne.symm ha) hf⟩
        · rintro ⟨heq, hf⟩
          cases heq
          exact ⟨(front, back), ih.mpr ⟨rfl, fun h => hf (mem_cons_of_mem _ h)⟩, rfl⟩

theorem not_mem_of_mem_splitOn : ∀ (xs : List α), ∀ part ∈ xs.splitOn sep, sep ∉ part := by
  intro xs
  induction xs with
  | nil => simp
  | cons a rest ih =>
    intro part hp
    rw [splitOn_cons_eq_if_modifyHead] at hp
    split at hp
    · rcases mem_cons.mp hp with rfl | hr
      · exact not_mem_nil
      · exact ih part hr
    · rename_i ha
      cases hsp : rest.splitOn sep with
      | nil => exact absurd hsp (splitOn_ne_nil sep rest)
      | cons first others =>
        rw [hsp, modifyHead_cons] at hp
        rcases mem_cons.mp hp with rfl | hot
        · have hf := ih first (hsp ▸ mem_cons_self)
          exact not_mem_cons_of_ne_of_not_mem (fun h => ha (by simp [h])) hf
        · exact ih part (hsp ▸ mem_cons_of_mem _ hot)

/-- Text comes apart into some parts exactly when they are what was put together. -/
theorem splitOn_eq_iff {xs : List α} {parts : List (List α)} (hparts : parts ≠ []) :
    xs.splitOn sep = parts ↔ xs = [sep].intercalate parts ∧ ∀ part ∈ parts, sep ∉ part := by
  constructor
  · rintro rfl
    exact ⟨(intercalate_splitOn sep).symm, not_mem_of_mem_splitOn xs⟩
  · rintro ⟨rfl, hfe⟩
    exact splitOn_intercalate sep hfe hparts

end Split

/-! ### Decimal numbers of one width -/

/-- The fronts decide, or the rest does when they are the same. -/
theorem append_lt_append_iff {α : Type} [LinearOrder α] {s t : List α} : ∀ {a b : List α},
    a.length = b.length → (a ++ s < b ++ t ↔ a < b ∨ a = b ∧ s < t) := by
  intro a
  induction a with
  | nil =>
    intro b h
    rw [length_eq_zero_iff.mp h.symm]
    simp
  | cons x a ih =>
    intro b h
    cases b with
    | nil => simp at h
    | cons y b =>
      rw [cons_append, cons_append, cons_lt_cons_iff, cons_lt_cons_iff,
        ih (Nat.succ.inj h), List.cons.injEq]
      tauto

section Decimal

variable {cs ds : List Char}

/-- The number that digits spell. -/
abbrev decimalValue (digits : List Char) : Nat := Nat.ofDigitChars 10 digits 0

abbrev AllDigits (cs : List Char) : Prop := ∀ c ∈ cs, c.isDigit = true

theorem digit_bounds {c : Char} (h : c.isDigit = true) : 48 ≤ c.toNat ∧ c.toNat ≤ 57 := by
  simpa [Char.isDigit, UInt32.le_iff_toNat_le] using h

theorem decimalValue_cons (c : Char) (cs : List Char) :
    decimalValue (c :: cs) = 10 ^ cs.length * (c.toNat - 48) + decimalValue cs := by
  rw [decimalValue, Nat.ofDigitChars_cons, Nat.ofDigitChars_eq_ofDigitChars_zero]
  simp

theorem decimalValue_lt : ∀ {cs : List Char}, AllDigits cs → decimalValue cs < 10 ^ cs.length := by
  intro cs
  induction cs with
  | nil => intro _; decide
  | cons c cs ih =>
    intro h
    obtain ⟨-, hc⟩ := digit_bounds (h c mem_cons_self)
    have hcs := ih fun d hd => h d (mem_cons_of_mem c hd)
    have hdi : 10 ^ cs.length * (c.toNat - 48) ≤ 10 ^ cs.length * 9 :=
      Nat.mul_le_mul_left _ (by omega)
    rw [decimalValue_cons, length_cons, pow_succ]
    omega

/-- Numbers of one width are ordered as their digits are. -/
theorem lt_iff_decimalValue_lt : ∀ {cs ds : List Char}, cs.length = ds.length → AllDigits cs →
    AllDigits ds → (cs < ds ↔ decimalValue cs < decimalValue ds) := by
  intro cs
  induction cs with
  | nil =>
    intro ds hlen _ _
    rw [length_eq_zero_iff.mp hlen.symm]
    simp
  | cons c cs ih =>
    intro ds hlen hcs hds
    cases ds with
    | nil => simp at hlen
    | cons d ds =>
      have hlen' : cs.length = ds.length := Nat.succ.inj hlen
      obtain ⟨hc, -⟩ := digit_bounds (hcs c mem_cons_self)
      obtain ⟨hd, -⟩ := digit_bounds (hds d mem_cons_self)
      have hr := fun e he => hcs e (mem_cons_of_mem c he)
      have hr' := fun e he => hds e (mem_cons_of_mem d he)
      have hlow := decimalValue_lt hr
      have hlow' := decimalValue_lt hr'
      rw [cons_lt_cons_iff, ih hlen' hr hr', decimalValue_cons, decimalValue_cons,
        hlen']
      rw [hlen'] at hlow
      have hch : c < d ↔ c.toNat < d.toNat := by
        rw [Char.lt_def, UInt32.lt_iff_toNat_lt]
        rfl
      have heq : c = d ↔ c.toNat = d.toNat := Char.toNat_inj.symm
      rw [hch, heq]
      -- a higher digit outweighs all digits after it
      rcases lt_trichotomy c.toNat d.toNat with h | h | h
      · have hs : 10 ^ ds.length * (c.toNat - 48) + 10 ^ ds.length ≤
            10 ^ ds.length * (d.toNat - 48) := by
          rw [← Nat.mul_succ]
          exact Nat.mul_le_mul_left _ (by omega)
        omega
      · rw [h]
        omega
      · have hs : 10 ^ ds.length * (d.toNat - 48) + 10 ^ ds.length ≤
            10 ^ ds.length * (c.toNat - 48) := by
          rw [← Nat.mul_succ]
          exact Nat.mul_le_mul_left _ (by omega)
        omega

theorem decimalValue_inj (hlen : cs.length = ds.length) (hcs : AllDigits cs) (hds : AllDigits ds)
    (h : decimalValue cs = decimalValue ds) : cs = ds := by
  rcases lt_trichotomy cs ds with hlt | heq | hgt
  · exact absurd ((lt_iff_decimalValue_lt hlen hcs hds).mp hlt) h.not_lt
  · exact heq
  · exact absurd ((lt_iff_decimalValue_lt hlen.symm hds hcs).mp hgt) h.symm.not_lt

end Decimal

end KrabkaO11y.Wire
