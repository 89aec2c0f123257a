import KrabkaO11y.Wire.Text
import KrabkaO11y.Blockstore.ObjectKeys

/-!
What object keys say, read back from their spelling (`path_escape.rs`,
`index/shard_keys.rs`, `index/shard_loading.rs` and `is_shard_payload_location` in
`index_snapshot.rs`).

A tenant is one segment of a key, escaped so that it has no separator. Bounds are of a
fixed width, so keys are ordered as their spans are. The reader of index shards takes
back what was written; the test of payload keys takes more than that.
-/

namespace KrabkaO11y.Blockstore.TenantKeys

open Wire List Option

/-! ### Keys -/

def indexShardsPrefixForKey (key : String) : String := siblingOfKey key "shards"

variable (key tenant : String)

def indexShardTenantPrefix : String :=
  indexShardsPrefixForKey key ++ "/tenant=" ++ escapeObjectPathSegment tenant

def indexUnboundSeriesObjectKey : String :=
  indexShardTenantPrefix key tenant ++ "/unbound.kbi"

def indexShardObjectKey (range : IndexShardRange) : String :=
  indexShardTenantPrefix key tenant ++ "/time=" ++ shardBoundKey range.start ++ "-" ++
    shardBoundKey range.stop ++ "/shard.kbi"

/-! ### Reading keys -/

def tenantTag : List Char := ['t', 'e', 'n', 'a', 'n', 't', '=']

def timeTag : List Char := ['t', 'i', 'm', 'e', '=']

def unboundFile : List Char := ['u', 'n', 'b', 'o', 'u', 'n', 'd', '.', 'k', 'b', 'i']

def shardFile : List Char := ['s', 'h', 'a', 'r', 'd', '.', 'k', 'b', 'i']

def payloadExtension : List Char := ['k', 'b', 's']

def hexDigit (byte : UInt8) : Option UInt8 :=
  if 48 ≤ byte ∧ byte ≤ 57 then some (byte - 48)
  else if 65 ≤ byte ∧ byte ≤ 70 then some (byte - 65 + 10)
  else none

/-- The loop of `unescape_object_path_segment` over the bytes from its index on. -/
def unescapeBytes : List UInt8 → Option (List UInt8)
  | [] => some []
  | byte :: rest =>
    if byte = 33 then
      match rest with
      | high :: low :: rest => do
        let high ← hexDigit high
        let low ← hexDigit low
        let out ← unescapeBytes rest
        some ((high * 16 + low) :: out)
      | _ => none
    else (unescapeBytes rest).map (byte :: ·)

def unescapeObjectPathSegment (segment : String) : Option String :=
  (unescapeBytes (utf8Bytes segment)).bind ofUtf8

/-- Twenty digits that fit a `u64`, with the sign bit flipped back. Only ASCII text has
twenty digits, so its bytes are its characters. -/
def parseShardBoundKey (key : List Char) : Option Int64 :=
  if key.length ≠ 20 ∨ ¬ AllDigits key then none
  else if 2 ^ 64 ≤ decimalValue key then none
  else some (UInt64.ofNat (decimalValue key) ^^^ ((1 : UInt64) <<< 63)).toInt64

/-- The span of a `time=` segment. -/
def parseSpanSegment (segment : List Char) : Option IndexShardRange := do
  let span ← segment.dropPrefix? timeTag
  let bounds ← splitOnce '-' span
  let start ← parseShardBoundKey bounds.1
  let stop ← parseShardBoundKey bounds.2
  if start ≤ stop then some ⟨start, stop⟩ else none

inductive IndexShardObject where
  | shard (range : IndexShardRange)
  | unboundSeries
  | foreign
deriving DecidableEq, Repr

structure ParsedIndexShardLocation where
  tenant : String
  object : IndexShardObject
deriving DecidableEq, Repr

/-- What stands behind the tenant segment. -/
def parseShardObject (rest : List Char) : IndexShardObject :=
  if rest = unboundFile then .unboundSeries
  else
    match rest.splitOn '/' with
    | [span, kind] =>
      if kind = shardFile then (parseSpanSegment span).elim .foreign .shard
      else .foreign
    | _ => .foreign

def parseIndexShardLocation (shardsPrefix location : String) :
    Option ParsedIndexShardLocation := do
  let rest ← location.toList.dropPrefix? shardsPrefix.toList
  let segments ← splitOnce '/' (rest.dropWhile (· = '/'))
  let escaped ← segments.1.dropPrefix? tenantTag
  let tenant ← unescapeObjectPathSegment (String.ofList escaped)
  some ⟨tenant, parseShardObject segments.2⟩

/-- The extension of a file name: what follows its last dot, unless nothing precedes it. -/
def fileExtension (file : List Char) : Option (List Char) :=
  match splitOnce '.' file.reverse with
  | some (extension, stem) => if stem = [] then none else some extension.reverse
  | none => none

def isTenantSegment (segment : List Char) : Bool :=
  match segment.dropPrefix? tenantTag with
  | some escaped => (unescapeObjectPathSegment (String.ofList escaped)).isSome
  | none => false

/-- The extension is compared without regard to ASCII case. -/
def isPayloadFile (file : List Char) : Bool :=
  match fileExtension file with
  | some extension => decide (extension.map Char.toLower = payloadExtension)
  | none => false

def isShardPayloadLocation (key location : String) : Bool :=
  match location.toList.dropPrefix? (shardPayloadPrefixForKey key).toList with
  | none => false
  | some rest =>
    match (rest.dropWhile (· = '/')).splitOn '/' with
    | [tenant, span, file] =>
      isTenantSegment tenant && isPayloadFile file && (parseSpanSegment span).isSome
    | _ => false

/-! ### The escape -/

/-- One byte of a segment. -/
def escapeByte (every : Bool) (byte : UInt8) : List Char :=
  if !every && isPlainPathByte byte then [Char.ofNat byte.toNat]
  else ['!', hexDigitUpper (byte.toNat / 16), hexDigitUpper (byte.toNat % 16)]

theorem escapeObjectPathSegment_eq (value : String) : escapeObjectPathSegment value =
    String.ofList ((utf8Bytes value).flatMap (escapeByte (value = "." || value = ".."))) := rfl

/-- The characters that a segment is spelled with. -/
def IsSegmentChar (c : Char) : Prop := c.isAlphanum = true ∨ c = '.' ∨ c = '_' ∨ c = '!' ∨ c = '-'
deriving Decidable

theorem forall_byte {p : UInt8 → Prop} (h : ∀ n < 256, p (UInt8.ofNat n)) (byte : UInt8) :
    p byte := by
  have hby := h byte.toNat byte.toNat_lt
  rwa [UInt8.ofNat_toNat] at hby

/-- A byte that stands for itself is not the marker. -/
theorem plain_byte : ∀ byte : UInt8, isPlainPathByte byte = true →
    UInt8.ofNat (Char.ofNat byte.toNat).toNat = byte ∧ byte ≠ 33 ∧
      (Char.ofNat byte.toNat).toNat < 128 ∧ IsSegmentChar (Char.ofNat byte.toNat) := by
  refine forall_byte ?_
  decide +kernel

theorem hexDigit_hexDigitUpper : ∀ n < 16,
    hexDigit (UInt8.ofNat (hexDigitUpper n).toNat) = some (UInt8.ofNat n) ∧
      (hexDigitUpper n).toNat < 128 ∧ IsSegmentChar (hexDigitUpper n) := by
  decide +kernel

theorem isSegmentChar_escapeByte (every : Bool) (byte : UInt8) :
    ∀ c ∈ escapeByte every byte, c.toNat < 128 ∧ IsSegmentChar c := by
  have hlt := byte.toNat_lt
  intro c hc
  rw [escapeByte] at hc
  split at hc
  · rename_i hpl
    rw [mem_singleton.mp hc]
    exact (plain_byte byte (Bool.and_eq_true_iff.mp hpl).2).2.2
  · rcases mem_cons.mp hc with rfl | hc
    · decide
    · rcases mem_pair.mp hc with rfl | rfl
      · exact (hexDigit_hexDigitUpper _ (by omega)).2
      · exact (hexDigit_hexDigitUpper _ (by omega)).2

theorem ofNat_halves (byte : UInt8) :
    UInt8.ofNat (byte.toNat / 16) * 16 + UInt8.ofNat (byte.toNat % 16) = byte := by
  have hlt := byte.toNat_lt
  rw [← UInt8.toNat_inj]
  simp only [UInt8.toNat_add, UInt8.toNat_mul, UInt8.toNat_ofNat', UInt8.reduceToNat]
  omega

theorem unescapeBytes_of_ne {byte : UInt8} (h : byte ≠ 33) (rest : List UInt8) :
    unescapeBytes (byte :: rest) = (unescapeBytes rest).map (byte :: ·) := by
  rw [unescapeBytes.eq_def]
  exact if_neg h

/-- A byte is read back from its escape, whatever follows. -/
theorem unescapeBytes_escapeByte (every : Bool) (byte : UInt8) (rest : List UInt8) :
    unescapeBytes ((escapeByte every byte).map (fun c => UInt8.ofNat c.toNat) ++ rest) =
      (unescapeBytes rest).map (byte :: ·) := by
  have hlt := byte.toNat_lt
  rw [escapeByte]
  split
  · rename_i hpl
    obtain ⟨hse, hma, -⟩ := plain_byte byte (Bool.and_eq_true_iff.mp hpl).2
    rw [map_singleton, hse, singleton_append, unescapeBytes_of_ne hma]
  · have hhi := (hexDigit_hexDigitUpper (byte.toNat / 16) (by omega)).1
    have hlow := (hexDigit_hexDigitUpper (byte.toNat % 16) (by omega)).1
    simp only [map_cons, map_nil, cons_append, nil_append]
    rw [unescapeBytes, if_pos (by decide)]
    simp only [hhi, hlow, bind_eq_bind, bind_some, ofNat_halves]
    cases unescapeBytes rest <;> rfl

theorem unescapeBytes_escaped (every : Bool) : ∀ bytes : List UInt8,
    unescapeBytes ((bytes.flatMap (escapeByte every)).map fun c => UInt8.ofNat c.toNat) =
      some bytes := by
  intro bytes
  induction bytes with
  | nil => rfl
  | cons byte bytes ih =>
    rw [flatMap_cons, map_append, unescapeBytes_escapeByte, ih]
    rfl

variable {c : Char}

theorem mem_escapeObjectPathSegment {value : String}
    (h : c ∈ (escapeObjectPathSegment value).toList) : c.toNat < 128 ∧ IsSegmentChar c := by
  rw [escapeObjectPathSegment_eq, String.toList_ofList] at h
  obtain ⟨byte, -, hc⟩ := mem_flatMap.mp h
  exact isSegmentChar_escapeByte _ byte c hc

/-- A segment is read back. -/
theorem unescape_escape (value : String) :
    unescapeObjectPathSegment (escapeObjectPathSegment value) = some value := by
  have has : ∀ c ∈ (utf8Bytes value).flatMap (escapeByte (value = "." || value = "..")),
      c.toNat < 128 := by
    intro c hc
    obtain ⟨byte, -, hby⟩ := mem_flatMap.mp hc
    exact (isSegmentChar_escapeByte _ byte c hby).1
  rw [unescapeObjectPathSegment, escapeObjectPathSegment_eq, utf8Bytes_ofList has,
    unescapeBytes_escaped, bind_some, ofUtf8_utf8Bytes]

theorem escapeObjectPathSegment_injective : Function.Injective escapeObjectPathSegment := by
  intro a b h
  have hba := congrArg unescapeObjectPathSegment h
  rwa [unescape_escape, unescape_escape, some_inj] at hba

/-- A segment is not a relative one. -/
theorem escape_ne_relative (value : String) :
    escapeObjectPathSegment value ≠ "." ∧ escapeObjectPathSegment value ≠ ".." := by
  -- what escapes to a dot would read back as that dot, and a dot escapes to something else
  have hrd : ∀ dots : String, unescapeObjectPathSegment dots = some dots →
      escapeObjectPathSegment dots ≠ dots → escapeObjectPathSegment value ≠ dots := by
    intro dots hse ho h
    have hval : value = dots := by
      have hba := congrArg unescapeObjectPathSegment h
      rwa [unescape_escape, hse, some_inj] at hba
    exact ho (hval ▸ h)
  exact ⟨hrd "." (by decide +kernel) (by decide +kernel),
    hrd ".." (by decide +kernel) (by decide +kernel)⟩

theorem slash_not_mem_escape (value : String) : '/' ∉ (escapeObjectPathSegment value).toList :=
  fun h => absurd (mem_escapeObjectPathSegment h).2 (by decide)

/-! ### Bounds -/

theorem paddedDecimal_digits (value : UInt64) :
    (paddedDecimal value).toList.length = 20 ∧ AllDigits (paddedDecimal value).toList ∧
      decimalValue (paddedDecimal value).toList = value.toNat := by
  have hw : (Nat.toDigits 10 value.toNat).length ≤ 20 := by
    rw [Nat.length_toDigits_le_iff (by decide) (by decide)]
    exact value.toNat_lt.trans (by norm_num)
  rw [paddedDecimal, String.toList_ofList]
  refine ⟨?_, fun c hc => ?_, ?_⟩
  · rw [length_append, length_replicate]
    omega
  · rcases mem_append.mp hc with hz | hdi
    · rw [eq_of_mem_replicate hz]
      rfl
    · exact Nat.isDigit_of_mem_toDigits (by decide) (by decide) hdi
  · rw [decimalValue, Nat.ofDigitChars_append, Nat.ofDigitChars_replicate_zero, Nat.mul_zero,
      Nat.ofDigitChars_ten_toDigits]

/-- Flipping the top bit moves the lower half above the upper half. -/
theorem xor_top_bit {n : Nat} (h : n < 2 ^ 64) :
    n ^^^ 2 ^ 63 = if n < 2 ^ 63 then n + 2 ^ 63 else n - 2 ^ 63 := by
  have hdiv : (n ^^^ 2 ^ 63) / 2 ^ 63 = n / 2 ^ 63 ^^^ 1 := by
    rw [Nat.xor_div_two_pow, Nat.div_self (by norm_num)]
  have hmod : (n ^^^ 2 ^ 63) % 2 ^ 63 = n % 2 ^ 63 := by
    rw [Nat.xor_mod_two_pow, Nat.mod_self, Nat.xor_zero]
  split
  · rename_i hlow
    rw [show n / 2 ^ 63 = 0 from Nat.div_eq_of_lt hlow, Nat.zero_xor] at hdiv
    omega
  · rw [show n / 2 ^ 63 = 1 by omega, Nat.xor_self] at hdiv
    omega

/-- The offset binary of a bound. -/
theorem toNat_offset (bound : Int64) :
    ((bound.toUInt64 ^^^ ((1 : UInt64) <<< 63)).toNat : Int) = bound.toInt + 2 ^ 63 := by
  have htop : ((1 : UInt64) <<< 63).toNat = 2 ^ 63 := by decide
  have hlt := bound.toUInt64.toNat_lt
  have hint : bound.toInt = bound.toUInt64.toBitVec.toInt := rfl
  rw [UInt64.toNat_xor, htop, xor_top_bit hlt, hint, BitVec.toInt_eq_toNat_cond]
  change _ = (if 2 * bound.toUInt64.toNat < 2 ^ 64 then (bound.toUInt64.toNat : Int)
    else bound.toUInt64.toNat - (2 ^ 64 : Nat)) + 2 ^ 63
  split <;> split <;> omega

theorem shardBoundKey_digits (bound : Int64) :
    (shardBoundKey bound).toList.length = 20 ∧ AllDigits (shardBoundKey bound).toList ∧
      (decimalValue (shardBoundKey bound).toList : Int) = bound.toInt + 2 ^ 63 := by
  obtain ⟨hlen, hdgs, hval⟩ :=
    paddedDecimal_digits (bound.toUInt64 ^^^ ((1 : UInt64) <<< 63))
  exact ⟨hlen, hdgs, by rw [shardBoundKey, hval, toNat_offset]⟩

theorem parseShardBoundKey_shardBoundKey (bound : Int64) :
    parseShardBoundKey (shardBoundKey bound).toList = some bound := by
  obtain ⟨hlen, hdgs, hval⟩ :=
    paddedDecimal_digits (bound.toUInt64 ^^^ ((1 : UInt64) <<< 63))
  have hsh : ¬ ((shardBoundKey bound).toList.length ≠ 20 ∨
      ¬ AllDigits (shardBoundKey bound).toList) := fun h => h.elim (· hlen) (· hdgs)
  rw [parseShardBoundKey, if_neg hsh, shardBoundKey, hval,
    if_neg (UInt64.toNat_lt _).not_ge, UInt64.ofNat_toNat, UInt64.xor_assoc, UInt64.xor_self,
    UInt64.xor_zero]
  rfl

/-- A bound is read from its own spelling only. -/
theorem parseShardBoundKey_eq_some_iff {key : List Char} {bound : Int64} :
    parseShardBoundKey key = some bound ↔ key = (shardBoundKey bound).toList := by
  constructor
  · intro h
    rw [parseShardBoundKey] at h
    split at h
    · cases h
    · rename_i hsh
      split at h
      · cases h
      · rename_i hft
        rw [not_or, not_not, not_not] at hsh
        obtain ⟨hlen, hdgs, hval⟩ :=
          paddedDecimal_digits (bound.toUInt64 ^^^ ((1 : UInt64) <<< 63))
        refine decimalValue_inj (hsh.1.trans hlen.symm) hsh.2 hdgs ?_
        rw [shardBoundKey, hval, ← some.inj h]
        change _ = ((UInt64.ofNat (decimalValue key) ^^^ ((1 : UInt64) <<< 63)) ^^^
          ((1 : UInt64) <<< 63)).toNat
        rw [UInt64.xor_assoc, UInt64.xor_self, UInt64.xor_zero, UInt64.toNat_ofNat',
          Nat.mod_eq_of_lt (not_le.mp hft)]
  · rintro rfl
    exact parseShardBoundKey_shardBoundKey bound

/-- The spelling of a span. -/
def spanSegment (range : IndexShardRange) : List Char :=
  timeTag ++ ((shardBoundKey range.start).toList ++ '-' :: (shardBoundKey range.stop).toList)

theorem dropPrefix?_eq_some {text front rest : List Char} :
    text.dropPrefix? front = some rest ↔ text = front ++ rest := by
  rw [dropPrefix?_eq_some_iff]
  constructor
  · rintro ⟨front', htx, hft⟩
    rw [htx, eq_of_beq hft]
  · intro h
    exact ⟨front, h, beq_self_eq_true front⟩

theorem not_mem_shardBoundKey (hc : c.isDigit = false) (bound : Int64) :
    c ∉ (shardBoundKey bound).toList := by
  intro h
  have hdi := (shardBoundKey_digits bound).2.1 c h
  rw [hc] at hdi
  cases hdi

variable {range : IndexShardRange} {segment : List Char}

/-- A span that is not reversed is read from its own spelling only. -/
theorem parseSpanSegment_eq_some_iff :
    parseSpanSegment segment = some range ↔
      segment = spanSegment range ∧ range.start ≤ range.stop := by
  simp only [parseSpanSegment, bind_eq_bind, bind_eq_some_iff, dropPrefix?_eq_some,
    parseShardBoundKey_eq_some_iff]
  constructor
  · rintro ⟨span, rfl, ⟨first, last⟩, hsp, start, rfl, stop, rfl, hr⟩
    split at hr <;> cases hr
    rename_i hle
    exact ⟨congrArg (timeTag ++ ·) (splitOnce_eq_some_iff.mp hsp).1, hle⟩
  · rintro ⟨rfl, hle⟩
    have hsp : splitOnce '-' ((shardBoundKey range.start).toList ++
        '-' :: (shardBoundKey range.stop).toList) =
          some ((shardBoundKey range.start).toList, (shardBoundKey range.stop).toList) :=
      splitOnce_eq_some_iff.mpr ⟨rfl, not_mem_shardBoundKey rfl range.start⟩
    refine ⟨(shardBoundKey range.start).toList ++ '-' :: (shardBoundKey range.stop).toList, ?_, _,
      hsp, range.start, ?_, range.stop, ?_, ?_⟩
    · rw [spanSegment]
    · rfl
    · rfl
    · rw [if_pos hle]

theorem slash_not_mem_spanSegment (range : IndexShardRange) : '/' ∉ spanSegment range := by
  rw [spanSegment, mem_append, mem_append, mem_cons]
  rintro (h | h | h | h)
  · exact absurd h (by decide)
  · exact not_mem_shardBoundKey rfl range.start h
  · exact absurd h (by decide)
  · exact not_mem_shardBoundKey rfl range.stop h

/-! ### Reading back what was written -/

/-- What stands behind a tenant's segment is read as that tenant's. -/
theorem parseIndexShardLocation_tenant {location : String} {rest : List Char}
    (h : location.toList = (indexShardTenantPrefix key tenant).toList ++ '/' :: rest) :
    parseIndexShardLocation (indexShardsPrefixForKey key) location =
      some ⟨tenant, parseShardObject rest⟩ := by
  have htx : location.toList = (indexShardsPrefixForKey key).toList ++
      ('/' :: (tenantTag ++ (escapeObjectPathSegment tenant).toList ++ '/' :: rest)) := by
    rw [h, indexShardTenantPrefix]
    simp [tenantTag]
  have hse : '/' ∉ tenantTag ++ (escapeObjectPathSegment tenant).toList := by
    rw [mem_append]
    exact fun h => h.elim (fun h => absurd h (by decide)) (slash_not_mem_escape tenant)
  have hsl : ('/' :: (tenantTag ++ (escapeObjectPathSegment tenant).toList ++
      '/' :: rest)).dropWhile (· = '/') =
        tenantTag ++ (escapeObjectPathSegment tenant).toList ++ '/' :: rest := by
    simp [tenantTag]
  rw [parseIndexShardLocation, dropPrefix?_eq_some.mpr htx]
  simp only [bind_eq_bind, bind_some, hsl]
  rw [splitOnce_eq_some_iff.mpr ⟨rfl, hse⟩]
  simp only [bind_some]
  rw [dropPrefix?_eq_some.mpr rfl, bind_some, String.ofList_toList, unescape_escape,
    bind_some]

theorem parseIndexShardLocation_unbound :
    parseIndexShardLocation (indexShardsPrefixForKey key) (indexUnboundSeriesObjectKey key tenant) =
      some ⟨tenant, .unboundSeries⟩ := by
  have htx : (indexUnboundSeriesObjectKey key tenant).toList =
      (indexShardTenantPrefix key tenant).toList ++ '/' :: unboundFile := by
    rw [indexUnboundSeriesObjectKey]
    simp [unboundFile]
  exact parseIndexShardLocation_tenant key tenant htx

theorem parseShardObject_span (h : range.start ≤ range.stop) :
    parseShardObject (spanSegment range ++ '/' :: shardFile) = .shard range := by
  have ho : spanSegment range ++ '/' :: shardFile ≠ unboundFile := by
    intro heq
    have hf := congrArg List.head? heq
    change some 't' = some 'u' at hf
    exact absurd hf (by decide)
  have hsp : (spanSegment range ++ '/' :: shardFile).splitOn '/' =
      [spanSegment range, shardFile] := by
    rw [splitOn_eq_iff (cons_ne_nil _ _)]
    refine ⟨by simp [List.intercalate], fun part hp => ?_⟩
    rcases mem_pair.mp hp with rfl | rfl
    · exact slash_not_mem_spanSegment range
    · decide
  rw [parseShardObject, if_neg ho, hsp]
  simp only [if_true, parseSpanSegment_eq_some_iff.mpr ⟨rfl, h⟩, elim_some]

theorem parseIndexShardLocation_shard (h : range.start ≤ range.stop) :
    parseIndexShardLocation (indexShardsPrefixForKey key) (indexShardObjectKey key tenant range) =
      some ⟨tenant, .shard range⟩ := by
  have htx : (indexShardObjectKey key tenant range).toList =
      (indexShardTenantPrefix key tenant).toList ++
        '/' :: (spanSegment range ++ '/' :: shardFile) := by
    rw [indexShardObjectKey, spanSegment]
    simp [timeTag, shardFile]
  rw [parseIndexShardLocation_tenant key tenant htx, parseShardObject_span h]

/-- Keys of one tenant are ordered as their spans are. -/
theorem indexShardObjectKey_lt_iff (r s : IndexShardRange) :
    indexShardObjectKey key tenant r < indexShardObjectKey key tenant s ↔
      r.start < s.start ∨ r.start = s.start ∧ r.stop < s.stop := by
  have hbd : ∀ a b : Int64, (shardBoundKey a).toList < (shardBoundKey b).toList ↔ a < b := by
    intro a b
    obtain ⟨hlen, hdgs, hval⟩ := shardBoundKey_digits a
    obtain ⟨hlen', hdgs', hval'⟩ := shardBoundKey_digits b
    rw [lt_iff_decimalValue_lt (hlen.trans hlen'.symm) hdgs hdgs', Int64.lt_iff_toInt_lt]
    omega
  have hsm : ∀ a b : Int64, (shardBoundKey a).toList = (shardBoundKey b).toList ↔ a = b := by
    intro a b
    constructor
    · intro h
      have hrd := congrArg parseShardBoundKey h
      rwa [parseShardBoundKey_shardBoundKey, parseShardBoundKey_shardBoundKey,
        some_inj] at hrd
    · rintro rfl
      rfl
  have hw : ∀ a b : Int64, (shardBoundKey a).toList.length = (shardBoundKey b).toList.length :=
    fun a b => (shardBoundKey_digits a).1.trans (shardBoundKey_digits b).1.symm
  have htx : ∀ r : IndexShardRange, (indexShardObjectKey key tenant r).toList =
      ((indexShardTenantPrefix key tenant).toList ++ "/time=".toList) ++
        ((shardBoundKey r.start).toList ++ ("-".toList ++ ((shardBoundKey r.stop).toList ++
          "/shard.kbi".toList))) := by
    intro r
    simp [indexShardObjectKey]
  have hco : ∀ front back back' : List Char, front ++ back < front ++ back' ↔ back < back' :=
    fun front back back' => by rw [append_lt_append_iff rfl]; simp
  rw [String.lt_iff_toList_lt, htx, htx, hco, append_lt_append_iff (hw _ _), hco,
    append_lt_append_iff (hw _ _), hbd, hbd, hsm, hsm]
  simp

/-! ### Payload keys -/

theorem not_mem_extension {extension : List Char}
    (h : extension.map Char.toLower = payloadExtension) (hc : c.toLower ∉ payloadExtension) :
    c ∉ extension := by
  intro hmem
  have hlo : c.toLower ∈ extension.map Char.toLower := mem_map_of_mem hmem
  rw [h] at hlo
  exact hc hlo

/-- A location in the parts that the test of payload keys looks at. -/
structure PayloadSpelling where
  slashes : Nat
  escaped : List Char
  range : IndexShardRange
  stem : List Char
  extension : List Char

namespace PayloadSpelling

def tenantSegment (spelling : PayloadSpelling) : List Char := tenantTag ++ spelling.escaped

def file (spelling : PayloadSpelling) : List Char := spelling.stem ++ '.' :: spelling.extension

def text (spelling : PayloadSpelling) (key : String) : List Char :=
  (shardPayloadPrefixForKey key).toList ++ (List.replicate spelling.slashes '/' ++
    (spelling.tenantSegment ++ '/' :: (spanSegment spelling.range ++ '/' :: spelling.file)))

/-- What the test asks of each part. -/
structure Passes (spelling : PayloadSpelling) : Prop where
  read : (unescapeObjectPathSegment (String.ofList spelling.escaped)).isSome = true
  segment : '/' ∉ spelling.escaped
  ordered : spelling.range.start ≤ spelling.range.stop
  named : spelling.stem ≠ []
  flat : '/' ∉ spelling.stem
  extended : spelling.extension.map Char.toLower = payloadExtension

/-- What `shard_payload_object_key` writes: one separator, an escape that it makes, and
the extension as it is. -/
structure Canonical (spelling : PayloadSpelling) : Prop where
  separated : spelling.slashes = 1
  escapes : ∃ tenant, spelling.escaped = (escapeObjectPathSegment tenant).toList
  extended : spelling.extension = payloadExtension

variable {spelling other : PayloadSpelling}

theorem Passes.slash_not_mem_tenantSegment (h : spelling.Passes) :
    '/' ∉ spelling.tenantSegment := by
  intro hmem
  rcases mem_append.mp hmem with hmem | hmem
  · exact absurd hmem (by decide)
  · exact h.segment hmem

theorem Passes.slash_not_mem_file (h : spelling.Passes) : '/' ∉ spelling.file := by
  intro hmem
  rcases mem_append.mp hmem with hmem | hmem
  · exact h.flat hmem
  · rcases mem_cons.mp hmem with hmem | hmem
    · exact absurd hmem (by decide)
    · exact not_mem_extension h.extended (by decide) hmem

end PayloadSpelling

theorem fileExtension_eq_some_iff {file extension : List Char} :
    fileExtension file = some extension ↔
      ∃ stem, file = stem ++ '.' :: extension ∧ stem ≠ [] ∧ '.' ∉ extension := by
  rw [fileExtension]
  constructor
  · intro h
    split at h
    · rename_i reversed stem hsp
      obtain ⟨hfi, hfe⟩ := splitOnce_eq_some_iff.mp hsp
      split at h <;> cases h
      rename_i hst
      refine ⟨stem.reverse, ?_, fun hnil => hst (reverse_eq_nil_iff.mp hnil), ?_⟩
      · rw [← reverse_reverse file, hfi]
        simp
      · rwa [mem_reverse]
    · cases h
  · rintro ⟨stem, rfl, hst, hfe⟩
    have hsp : splitOnce '.' (stem ++ '.' :: extension).reverse =
        some (extension.reverse, stem.reverse) := by
      refine splitOnce_eq_some_iff.mpr ⟨by simp, ?_⟩
      rwa [mem_reverse]
    rw [hsp]
    simp [hst]

theorem isPayloadFile_iff {file : List Char} : isPayloadFile file = true ↔
    ∃ stem extension, file = stem ++ '.' :: extension ∧ stem ≠ [] ∧
      extension.map Char.toLower = payloadExtension := by
  rw [isPayloadFile]
  constructor
  · intro h
    split at h
    · rename_i extension hext
      obtain ⟨stem, hfi, hst, -⟩ := fileExtension_eq_some_iff.mp hext
      exact ⟨stem, extension, hfi, hst, of_decide_eq_true h⟩
    · cases h
  · rintro ⟨stem, extension, hfi, hst, hlo⟩
    have hfe : '.' ∉ extension := not_mem_extension hlo (by decide)
    rw [fileExtension_eq_some_iff.mpr ⟨stem, hfi, hst, hfe⟩]
    exact decide_eq_true hlo

theorem isTenantSegment_iff : isTenantSegment segment = true ↔
    ∃ escaped, segment = tenantTag ++ escaped ∧
      (unescapeObjectPathSegment (String.ofList escaped)).isSome = true := by
  rw [isTenantSegment]
  constructor
  · intro h
    split at h
    · rename_i escaped hdr
      exact ⟨escaped, dropPrefix?_eq_some.mp hdr, h⟩
    · cases h
  · rintro ⟨escaped, hse, hrd⟩
    rw [dropPrefix?_eq_some.mpr hse]
    exact hrd

/-- Slashes before something that does not start with one. -/
theorem dropWhile_slashes {n : Nat} {rest : List Char} (h : rest.head? ≠ some '/') :
    (List.replicate n '/' ++ rest).dropWhile (· = '/') = rest := by
  induction n with
  | zero =>
    cases rest with
    | nil => rfl
    | cons c rest => exact dropWhile_cons_of_neg (by simpa using h)
  | succ n ih => simpa [replicate_succ] using ih

theorem exists_slashes (rest : List Char) :
    ∃ n, rest = List.replicate n '/' ++ rest.dropWhile (· = '/') := by
  induction rest with
  | nil => exact ⟨0, rfl⟩
  | cons c rest ih =>
    by_cases hc : c = '/'
    · obtain ⟨n, hn⟩ := ih
      refine ⟨n + 1, ?_⟩
      rw [hc, replicate_succ, dropWhile_cons_of_pos (by simp), cons_append, ← hn]
    · exact ⟨0, by rw [dropWhile_cons_of_neg (by simpa using hc)]; rfl⟩

namespace PayloadSpelling

variable {spelling other : PayloadSpelling}

/-- The three segments of a location. -/
def segments (spelling : PayloadSpelling) : List (List Char) :=
  [spelling.tenantSegment, spanSegment spelling.range, spelling.file]

theorem Passes.splitOn_segments (h : spelling.Passes) :
    (spelling.tenantSegment ++ '/' :: (spanSegment spelling.range ++ '/' :: spelling.file)).splitOn
      '/' = spelling.segments := by
  refine (splitOn_eq_iff (cons_ne_nil _ _)).mpr ⟨?_, fun part hp => ?_⟩
  · simp [List.intercalate]
  simp only [mem_cons, not_mem_nil, or_false] at hp
  rcases hp with rfl | rfl | rfl
  · exact h.slash_not_mem_tenantSegment
  · exact slash_not_mem_spanSegment spelling.range
  · exact h.slash_not_mem_file

/-- Three segments that pass are those of a spelling. -/
theorem exists_of_segments {tenant span file : List Char} (hten : isTenantSegment tenant = true)
    (hfile : isPayloadFile file = true) (hspan : (parseSpanSegment span).isSome = true)
    (flat : '/' ∉ tenant ∧ '/' ∉ file) (slashes : Nat) :
    ∃ spelling : PayloadSpelling, spelling.slashes = slashes ∧
      spelling.segments = [tenant, span, file] ∧ spelling.Passes := by
  obtain ⟨escaped, rfl, hrd⟩ := isTenantSegment_iff.mp hten
  obtain ⟨stem, extension, rfl, hst, hlo⟩ := isPayloadFile_iff.mp hfile
  obtain ⟨range, hr⟩ := isSome_iff_exists.mp hspan
  obtain ⟨rfl, hle⟩ := parseSpanSegment_eq_some_iff.mp hr
  have hes : '/' ∉ escaped := fun hmem => flat.1 (mem_append_right _ hmem)
  have hst' : '/' ∉ stem := fun hmem => flat.2 (mem_append_left _ hmem)
  exact ⟨⟨slashes, escaped, range, stem, extension⟩, rfl, rfl,
    ⟨hrd, hes, hle, hst, hst', hlo⟩⟩

/-- The test passes exactly what is spelled in parts that pass. -/
theorem accepts_iff {key location : String} : isShardPayloadLocation key location = true ↔
    ∃ spelling : PayloadSpelling, location.toList = spelling.text key ∧ spelling.Passes := by
  rw [isShardPayloadLocation]
  constructor
  · intro h
    split at h
    · cases h
    · rename_i rest hdr
      have hloc := dropPrefix?_eq_some.mp hdr
      split at h
      · rename_i tenant span file hsp
        obtain ⟨htx, hfe⟩ := (splitOn_eq_iff (cons_ne_nil _ _)).mp hsp
        obtain ⟨hpa, hspa⟩ := Bool.and_eq_true_iff.mp h
        obtain ⟨hten, hfi⟩ := Bool.and_eq_true_iff.mp hpa
        obtain ⟨slashes, hsl⟩ := exists_slashes rest
        obtain ⟨spelling, rfl, hse, hps⟩ := exists_of_segments hten hfi hspa
          ⟨hfe tenant (by simp), hfe file (by simp)⟩ slashes
        refine ⟨spelling, ?_, hps⟩
        rw [hloc, hsl, htx, ← hse]
        simp [List.intercalate, segments, text]
      · cases h
  · rintro ⟨spelling, hloc, hps⟩
    rw [dropPrefix?_eq_some.mpr hloc]
    have hst : (spelling.tenantSegment ++
        '/' :: (spanSegment spelling.range ++ '/' :: spelling.file)).head? ≠ some '/' := by
      change some 't' ≠ some '/'
      decide
    simp only [dropWhile_slashes hst, hps.splitOn_segments, segments]
    have hten : isTenantSegment spelling.tenantSegment = true :=
      isTenantSegment_iff.mpr ⟨_, rfl, hps.read⟩
    have hfi : isPayloadFile spelling.file = true :=
      isPayloadFile_iff.mpr ⟨_, _, rfl, hps.named, hps.extended⟩
    rw [hten, hfi, parseSpanSegment_eq_some_iff.mpr ⟨rfl, hps.ordered⟩]
    rfl

theorem Passes.fileExtension_file (h : spelling.Passes) :
    fileExtension spelling.file = some spelling.extension :=
  fileExtension_eq_some_iff.mpr
    ⟨spelling.stem, rfl, h.named, not_mem_extension h.extended (by decide)⟩

theorem head?_tenantSegment (spelling : PayloadSpelling) (rest : List Char) :
    (spelling.tenantSegment ++ rest).head? ≠ some '/' := by
  change some 't' ≠ some '/'
  decide

/-- Parts that pass are the only ones of their location. -/
theorem Passes.unique {key : String} (h : spelling.Passes) (ho : other.Passes)
    (heq : spelling.text key = other.text key) :
    spelling.slashes = other.slashes ∧ spelling.escaped = other.escaped ∧
      spelling.extension = other.extension := by
  have hr := append_cancel_left heq
  have hbo := congrArg (List.dropWhile (· = '/')) hr
  rw [dropWhile_slashes (spelling.head?_tenantSegment _),
    dropWhile_slashes (other.head?_tenantSegment _)] at hbo
  have hsl := congrArg List.length (append_cancel_right (hbo ▸ hr))
  rw [length_replicate, length_replicate] at hsl
  have hse := congrArg (List.splitOn '/') hbo
  rw [h.splitOn_segments, ho.splitOn_segments] at hse
  simp only [segments, List.cons.injEq, and_true] at hse
  have hext := congrArg fileExtension hse.2.2
  rw [h.fileExtension_file, ho.fileExtension_file, some_inj] at hext
  exact ⟨hsl, append_cancel_left hse.1, hext⟩

end PayloadSpelling

/-- What `shard_payload_object_key` writes for some tenant, some span and some file stem. -/
def WrittenPayloadKey (key location : String) : Prop :=
  ∃ (tenant : String) (range : IndexShardRange) (stem : String), range.start ≤ range.stop ∧
    stem ≠ "" ∧ '/' ∉ stem.toList ∧ location = shardPayloadObjectKey key tenant range stem

/-- The location passes the test, but with no or several separators behind the prefix, a
segment that no tenant escapes to, or the extension in other letters. -/
def RespelledPayloadKey (key location : String) : Prop :=
  ∃ spelling : PayloadSpelling, location.toList = spelling.text key ∧ spelling.Passes ∧
    ¬ spelling.Canonical

theorem toList_shardPayloadObjectKey (range : IndexShardRange)
    (stem : String) : (shardPayloadObjectKey key tenant range stem).toList =
      PayloadSpelling.text ⟨1, (escapeObjectPathSegment tenant).toList, range, stem.toList,
        payloadExtension⟩ key := by
  change _ = (shardPayloadPrefixForKey key).toList ++ (['/'] ++ ((tenantTag ++
    (escapeObjectPathSegment tenant).toList) ++ '/' :: (spanSegment range ++
      '/' :: (stem.toList ++ '.' :: payloadExtension))))
  simp [shardPayloadObjectKey, spanSegment, tenantTag, timeTag, payloadExtension]

theorem passes_written (tenant : String) {stem : String} (hle : range.start ≤ range.stop)
    (hstem : stem ≠ "") (hflat : '/' ∉ stem.toList) :
    PayloadSpelling.Passes ⟨1, (escapeObjectPathSegment tenant).toList, range, stem.toList,
      payloadExtension⟩ where
  read := by rw [String.ofList_toList, unescape_escape]; rfl
  segment := slash_not_mem_escape tenant
  ordered := hle
  named := fun h => hstem (String.toList_eq_nil_iff.mp h)
  flat := hflat
  extended := (by decide : payloadExtension.map Char.toLower = payloadExtension)

variable {key location : String}

/-- What is written in canonical parts is written by the store. -/
theorem writtenPayloadKey_of_canonical {spelling : PayloadSpelling}
    (hloc : location.toList = spelling.text key) (h : spelling.Passes)
    (canonical : spelling.Canonical) : WrittenPayloadKey key location := by
  obtain ⟨tenant, hes⟩ := canonical.escapes
  refine ⟨tenant, spelling.range, String.ofList spelling.stem, h.ordered, ?_, ?_, ?_⟩
  · intro hnil
    exact h.named (by rw [← String.toList_ofList (l := spelling.stem), hnil]; rfl)
  · rw [String.toList_ofList]
    exact h.flat
  · apply String.toList_inj.mp
    rw [hloc, toList_shardPayloadObjectKey, String.toList_ofList, ← hes,
      ← canonical.separated, ← canonical.extended]

theorem isShardPayloadLocation_of_written
    (h : WrittenPayloadKey key location) : isShardPayloadLocation key location = true := by
  obtain ⟨tenant, range, stem, hle, hst, hfl, rfl⟩ := h
  exact PayloadSpelling.accepts_iff.mpr
    ⟨_, toList_shardPayloadObjectKey key tenant range stem, passes_written tenant hle hst hfl⟩

/-- The test is exact on a location unless the location is respelled. -/
theorem accepts_exactly_iff :
    (isShardPayloadLocation key location = true ↔ WrittenPayloadKey key location) ↔
      ¬ RespelledPayloadKey key location := by
  constructor
  · rintro hex ⟨spelling, hloc, hps, ho⟩
    have hacc := PayloadSpelling.accepts_iff.mpr ⟨spelling, hloc, hps⟩
    obtain ⟨tenant, range, stem, hle, hst, hfl, rfl⟩ := hex.mp hacc
    rw [toList_shardPayloadObjectKey] at hloc
    obtain ⟨hsl, hes, hext⟩ :=
      (passes_written tenant hle hst hfl).unique hps hloc
    exact ho ⟨hsl.symm, ⟨tenant, hes.symm⟩, hext.symm⟩
  · intro hnot
    refine ⟨fun hacc => ?_, isShardPayloadLocation_of_written⟩
    obtain ⟨spelling, hloc, hps⟩ := PayloadSpelling.accepts_iff.mp hacc
    exact writtenPayloadKey_of_canonical hloc hps
      (not_not.mp fun ho => hnot ⟨spelling, hloc, hps, ho⟩)

/-! ### Confinement -/

/-- What the keys of an index say of its tenants. -/
structure ConfinedTenants (key : String) : Prop where
  spelled : ∀ (tenant : String), ∀ c ∈ (escapeObjectPathSegment tenant).toList, IsSegmentChar c
  below : ∀ tenant : String,
    escapeObjectPathSegment tenant ≠ "." ∧ escapeObjectPathSegment tenant ≠ ".."
  unescaped : ∀ tenant : String,
    unescapeObjectPathSegment (escapeObjectPathSegment tenant) = some tenant
  apart : ∀ tenant other : String, tenant ≠ other →
    escapeObjectPathSegment tenant ≠ escapeObjectPathSegment other
  shards : ∀ (tenant : String) (range : IndexShardRange), range.start ≤ range.stop →
    parseIndexShardLocation (indexShardsPrefixForKey key) (indexShardObjectKey key tenant range) =
      some ⟨tenant, .shard range⟩
  unbound : ∀ tenant : String, parseIndexShardLocation (indexShardsPrefixForKey key)
    (indexUnboundSeriesObjectKey key tenant) = some ⟨tenant, .unboundSeries⟩
  ordered : ∀ (tenant : String) (r s : IndexShardRange),
    indexShardObjectKey key tenant r < indexShardObjectKey key tenant s ↔
      r.start < s.start ∨ r.start = s.start ∧ r.stop < s.stop

theorem confinedTenants (key : String) : ConfinedTenants key where
  spelled _ _ hc := (mem_escapeObjectPathSegment hc).2
  below := escape_ne_relative
  unescaped := unescape_escape
  apart _ _ hne heq := hne (escapeObjectPathSegment_injective heq)
  shards tenant _ h := parseIndexShardLocation_shard key tenant h
  unbound := parseIndexShardLocation_unbound key
  ordered := indexShardObjectKey_lt_iff key

/-- Tenants are confined to their keys under every index key, and the test of payload keys
passes exactly what is written on every location that is not respelled. -/
theorem tenant_keys_confined_iff (key location : String) :
    ConfinedTenants key ∧
      ((isShardPayloadLocation key location = true ↔ WrittenPayloadKey key location) ↔
        ¬ RespelledPayloadKey key location) :=
  ⟨confinedTenants key, accepts_exactly_iff⟩

/-- A payload location with its extension in capitals. -/
def capitalExtension : PayloadSpelling := ⟨1, ['a'], ⟨0, 0⟩, ['h'], ['K', 'B', 'S']⟩

theorem passes_capitalExtension : capitalExtension.Passes where
  read := by decide +kernel
  segment := by decide
  ordered := by decide
  named := cons_ne_nil _ _
  flat := by decide
  extended := by decide

/-- A file with its extension in capitals passes, and no payload key is spelled so. -/
theorem tenant_keys_capital_extension :
    isShardPayloadLocation "idx.json"
        "idx/payloads/tenant=a/time=09223372036854775808-09223372036854775808/h.KBS" = true ∧
      ¬ WrittenPayloadKey "idx.json"
        "idx/payloads/tenant=a/time=09223372036854775808-09223372036854775808/h.KBS" := by
  have hlocation :
      "idx/payloads/tenant=a/time=09223372036854775808-09223372036854775808/h.KBS".toList =
        capitalExtension.text "idx.json" := by
    decide +kernel
  refine ⟨PayloadSpelling.accepts_iff.mpr ⟨_, hlocation, passes_capitalExtension⟩, ?_⟩
  rintro ⟨tenant, range, stem, hle, hstem, hflat, h⟩
  rw [h, toList_shardPayloadObjectKey] at hlocation
  have hextension : payloadExtension = ['K', 'B', 'S'] :=
    ((passes_written tenant hle hstem hflat).unique passes_capitalExtension hlocation).2.2
  exact absurd hextension (by decide)

end KrabkaO11y.Blockstore.TenantKeys
