import KrabkaO11y.Collections.Chunks
import KrabkaO11y.Collections.Tree
import KrabkaO11y.Metrics.BitStream

/-!
XOR chunks of float samples: `encode_xor_chunks` (`crates/metrics/src/wire/remote_read.rs`)
and `decode_xor_chunk` (`crates/metrics/src/tsdb_import/xor_chunk.rs`).

Timestamps and values are 64-bit words. A timestamp is written as the change of its distance
to the one before, a value as the bits in which it differs from the one before, within a
window that is kept as long as it covers them. The decoder takes the same steps as the
encoder, so what one writes the other reads back word for word.
-/

namespace KrabkaO11y.Metrics

open Wire List BitStream

/-! ### Signed integers of few bits -/

variable (value : BitVec 64)

/-- `fits_signed`. -/
def fitsSigned (width : Nat) : Bool :=
  -((2 : Int) ^ (width - 1) - 1) ≤ value.toInt && value.toInt ≤ (2 : Int) ^ (width - 1)

/-- What the decoder makes of the low bits of a signed word. -/
def signExtend (raw width : Nat) : BitVec 64 :=
  if 2 ^ (width - 1) < raw then BitVec.ofNat 64 raw - BitVec.ofNat 64 (2 ^ width)
  else BitVec.ofNat 64 raw

/-- A word that fits some bits is what they extend to. -/
theorem signExtend_mod {value : BitVec 64} {width : Nat} (hpos : 0 < width) (hlt : width < 64)
    (fits : fitsSigned value width = true) :
    signExtend (value.toNat % 2 ^ width) width = value := by
  obtain ⟨half, hha⟩ : ∃ half, half = 2 ^ (width - 1) := ⟨_, rfl⟩
  have hpow : 2 ^ width = 2 * half := by
    rw [hha, ← pow_succ', Nat.sub_add_cancel hpos]
  have hwo : 2 * half * 2 ^ (64 - width) = 2 ^ 64 := by
    rw [← hpow, ← pow_add, Nat.add_sub_cancel' hlt.le]
  have hbd : 2 * half ≤ 2 ^ 63 := hpow ▸ Nat.pow_le_pow_right (by omega) (by omega)
  have hval := value.isLt
  simp only [fitsSigned, Bool.and_eq_true, decide_eq_true_eq] at fits
  have hca : (2 : Int) ^ (width - 1) = half := by rw [hha]; norm_cast
  rw [hca, BitVec.toInt_eq_toNat_cond] at fits
  rw [signExtend, hpow, ← hha]
  refine BitVec.eq_of_toNat_eq ?_
  by_cases hsm : 2 * value.toNat < 2 ^ 64
  · rw [if_pos hsm] at fits
    rw [Nat.mod_eq_of_lt (by omega), if_neg (by omega), BitVec.toNat_ofNat]
    exact Nat.mod_eq_of_lt hval
  · rw [if_neg hsm] at fits
    -- a negative word, `below` under zero
    obtain ⟨below, hbl⟩ : ∃ below, value.toNat = 2 ^ 64 - below ∧ 0 < below ∧ below < half :=
      ⟨2 ^ 64 - value.toNat, by omega, by omega, by omega⟩
    obtain ⟨quotient, hqu⟩ : ∃ quotient, 2 ^ (64 - width) = quotient + 1 :=
      ⟨_, (Nat.succ_pred_eq_of_pos (by positivity)).symm⟩
    have hraw : value.toNat % (2 * half) = 2 * half - below := by
      have hsum : value.toNat = 2 * half - below + 2 * half * quotient := by
        rw [hqu, Nat.mul_succ] at hwo
        omega
      rw [hsum, Nat.add_mul_mod_self_left, Nat.mod_eq_of_lt (by omega)]
    rw [hraw, if_pos (by omega), BitVec.toNat_sub, BitVec.toNat_ofNat, BitVec.toNat_ofNat]
    omega

/-! ### Timestamps -/

namespace BitStream

/-- A marker that tells a width, and the bits of a value in that width. -/
def writeMarked (marker markerWidth value width : Nat) (stream : BitStream) : BitStream :=
  (stream.writeBits marker markerWidth).writeBits value width

def writeTimestampDeltaOfDelta (delta : BitVec 64) : BitStream → BitStream :=
  if delta = 0 then writeBit false
  else if fitsSigned delta 14 then writeMarked 0b10 2 delta.toNat 14
  else if fitsSigned delta 17 then writeMarked 0b110 3 delta.toNat 17
  else if fitsSigned delta 20 then writeMarked 0b1110 4 delta.toNat 20
  else writeMarked 0b1111 4 delta.toNat 64

end BitStream

/-- Counts ones up to a zero, at most `limit` of them. -/
def readOnes : Nat → Read Nat
  | 0 => pure 0
  | limit + 1 => do
    if ← readBit then (· + 1) <$> readOnes limit else pure 0

def readXorDod : Read (BitVec 64) := do
  match ← readOnes 4 with
  | 0 => pure 0
  | 1 => (signExtend · 14) <$> readBits 14
  | 2 => (signExtend · 17) <$> readBits 17
  | 3 => (signExtend · 20) <$> readBits 20
  | _ => BitVec.ofNat 64 <$> readBits 64

theorem reads_readOnes {ones limit : Nat} (h : ones < limit) :
    Reads (readOnes limit) (List.replicate ones true ++ [false]) ones := by
  induction ones generalizing limit with
  | zero =>
    obtain ⟨limit, rfl⟩ := Nat.exists_eq_add_of_lt h
    rw [Nat.zero_add]
    exact (reads_readBit false).bind (Reads.pure 0)
  | succ ones ih =>
    cases limit with
    | zero => omega
    | succ limit =>
      rw [replicate_succ, cons_append, ← singleton_append]
      exact (reads_readBit true).bind ((ih (by omega)).map (· + 1))

theorem reads_readOnes_all (limit : Nat) :
    Reads (readOnes limit) (List.replicate limit true) limit := by
  induction limit with
  | zero => exact Reads.pure 0
  | succ limit ih =>
    rw [replicate_succ, ← singleton_append]
    exact (reads_readBit true).bind (ih.map (· + 1))

/-- A marker of ones and a zero, read back as the number of ones. -/
theorem inverse_marker {limit ones : Nat} (h : ones < limit) (hlim : limit ≤ 8) :
    Inverse (writeBits (2 ^ (ones + 1) - 2) (ones + 1)) (readOnes limit) ones := by
  have hlt : 2 ^ (ones + 1) - 2 < 2 ^ 64 :=
    lt_of_le_of_lt (Nat.sub_le ..) (Nat.pow_lt_pow_right (by omega) (by omega))
  have hbi : toBits (ones + 1) (2 ^ (ones + 1) - 2) = List.replicate ones true ++ [false] := by
    have : ones < 8 := by omega
    interval_cases ones <;> decide
  refine ⟨_, writes_writeBits (by omega) hlt, ?_⟩
  rw [hbi]
  exact reads_readOnes h

theorem inverse_marker_all {limit : Nat} (hlim : limit ≤ 8) :
    Inverse (writeBits (2 ^ limit - 1) limit) (readOnes limit) limit := by
  have hlt : 2 ^ limit - 1 < 2 ^ 64 :=
    lt_of_le_of_lt (Nat.sub_le ..) (Nat.pow_lt_pow_right (by omega) (by omega))
  have hbi : toBits limit (2 ^ limit - 1) = List.replicate limit true := by
    interval_cases limit <;> decide
  refine ⟨_, writes_writeBits (by omega) hlt, ?_⟩
  rw [hbi]
  exact reads_readOnes_all limit

/-- The low bits of a signed word that fits them, read back as the word. -/
theorem inverse_signed {value : BitVec 64} {width : Nat} (hpos : 0 < width) (hlt : width < 64)
    (fits : fitsSigned value width = true) :
    Inverse (writeBits value.toNat width) ((signExtend · width) <$> readBits width)
      value := by
  have h := (reads_readBits_mod hlt.le value.toNat).map (signExtend · width)
  rw [signExtend_mod hpos hlt fits] at h
  exact ⟨_, writes_writeBits hlt.le value.isLt, h⟩

theorem inverse_word :
    Inverse (writeBits value.toNat 64) (BitVec.ofNat 64 <$> readBits 64) value := by
  have h := (inverse_bits le_rfl value.isLt).map (BitVec.ofNat 64)
  rwa [BitVec.ofNat_toNat, BitVec.setWidth_eq] at h

theorem inverse_dod (delta : BitVec 64) :
    Inverse (writeTimestampDeltaOfDelta delta) readXorDod delta := by
  rw [writeTimestampDeltaOfDelta]
  split
  · rename_i hz
    rw [hz]
    exact ⟨[false], writes_writeBit false,
      (reads_readOnes (show 0 < 4 by omega)).bind (Reads.pure 0)⟩
  · split
    · exact (inverse_marker (show 1 < 4 by omega) (by omega)).bind
        (inverse_signed (by omega) (by omega) ‹_›)
    · split
      · exact (inverse_marker (show 2 < 4 by omega) (by omega)).bind
          (inverse_signed (by omega) (by omega) ‹_›)
      · split
        · exact (inverse_marker (show 3 < 4 by omega) (by omega)).bind
            (inverse_signed (by omega) (by omega) ‹_›)
        · exact (inverse_marker_all (show 4 ≤ 8 by omega)).bind (inverse_word delta)

/-! ### Values -/

/-- The zeros above the highest bit of a word that is not zero. -/
def leadingZeros (word : Nat) : Nat := 63 - word.log2

/-- The zeros below the lowest bit of a word. -/
def trailingZeros (word : Nat) : Nat := ((List.range 64).find? word.testBit).getD 64

/-- The leading and trailing zeros carried from one value to the next. -/
structure XorState where
  leading : Nat
  trailing : Nat
deriving DecidableEq, Repr

/-- The leading zeros of an encoder that has no window yet, `u8::MAX`. -/
def noWindow : Nat := 255

def writeValueDelta (next current : BitVec 64) (state : XorState) (bits : BitStream) :
    BitStream × XorState :=
  let delta := (next ^^^ current).toNat
  if delta = 0 then (bits.writeBit false, state)
  else
    let bits := bits.writeBit true
    let nextLeading := min (leadingZeros delta) 31
    let nextTrailing := trailingZeros delta
    if state.leading ≠ noWindow ∧ state.leading ≤ nextLeading ∧ state.trailing ≤ nextTrailing then
      ((bits.writeBit false).writeBits (delta >>> state.trailing)
        (64 - state.leading - state.trailing), state)
    else
      let significant := 64 - nextLeading - nextTrailing
      let bits := ((bits.writeBit true).writeBits nextLeading 5).writeBits (significant % 64) 6
      (bits.writeBits (delta >>> nextTrailing) significant, ⟨nextLeading, nextTrailing⟩)

/-- The significant bits of a window, put back in their place. -/
def readWindow (state : XorState) (significant : Nat) :
    Read (BitVec 64 × XorState) := do
  let bits ← readBits significant
  pure (value ^^^ BitVec.ofNat 64 (bits <<< (64 - state.leading - significant)), state)

/-- A new window with its bits; six bits write 64 as zero. -/
def readNewWindow : Read (BitVec 64 × XorState) := do
  let leading ← readBits 5
  let raw ← readBits 6
  let significant := if raw = 0 then 64 else raw
  if 64 < leading + significant then fun _ => none
  else readWindow value ⟨leading, 64 - leading - significant⟩ significant

/-- The bits of the window kept. -/
def readKeptWindow (state : XorState) : Read (BitVec 64 × XorState) :=
  if 64 < state.leading + state.trailing then fun _ => none
  else readWindow value state (64 - state.leading - state.trailing)

def readXorValue (state : XorState) : Read (BitVec 64 × XorState) := do
  if ← readBit then
    if ← readBit then readNewWindow value else readKeptWindow value state
  else pure (value, state)

/-- A window covers every bit of a word. -/
structure Covers (state : XorState) (word : Nat) : Prop where
  high : word < 2 ^ (64 - state.leading)
  low : 2 ^ state.trailing ∣ word
  room : state.leading + state.trailing < 64

variable {word : Nat}

theorem two_pow_trailingZeros_dvd (hpos : word ≠ 0) (hlt : word < 2 ^ 64) :
    2 ^ trailingZeros word ∣ word := by
  rw [trailingZeros]
  cases hfi : (List.range 64).find? word.testBit with
  | none =>
    refine absurd (Nat.eq_of_testBit_eq fun i => ?_) hpos
    rw [Nat.zero_testBit]
    rcases Nat.lt_or_ge i 64 with hi | hi
    · exact Bool.eq_false_iff.mpr (find?_eq_none.mp hfi i (mem_range.mpr hi))
    · exact Nat.testBit_lt_two_pow (lt_of_lt_of_le hlt (Nat.pow_le_pow_right (by omega) hi))
  | some lowest =>
    obtain ⟨-, -, hbl⟩ := find?_range_eq_some.mp hfi
    refine Nat.dvd_of_mod_eq_zero (Nat.eq_of_testBit_eq fun i => ?_)
    rw [Option.getD_some, Nat.testBit_mod_two_pow, Nat.zero_testBit]
    by_cases hi : i < lowest
    · rw [(Bool.not_eq_true' _).mp (hbl i hi), Bool.and_false]
    · rw [decide_eq_false hi, Bool.false_and]

/-- The zeros around the bits of a word that is not zero. -/
theorem covers_zeros (hpos : word ≠ 0) (hlt : word < 2 ^ 64) :
    Covers ⟨min (leadingZeros word) 31, trailingZeros word⟩ word := by
  have hlog : word.log2 < 64 := (Nat.log2_lt hpos).mpr hlt
  have hhi : word < 2 ^ (64 - min (leadingZeros word) 31) :=
    lt_of_lt_of_le Nat.lt_log2_self (Nat.pow_le_pow_right (by omega) (by rw [leadingZeros]; omega))
  have hlow := two_pow_trailingZeros_dvd hpos hlt
  have hro : trailingZeros word < 64 - min (leadingZeros word) 31 :=
    (Nat.pow_lt_pow_iff_right (by omega)).mp
      (lt_of_le_of_lt (Nat.le_of_dvd (Nat.pos_of_ne_zero hpos) hlow) hhi)
  exact ⟨hhi, hlow, by change min (leadingZeros word) 31 + trailingZeros word < 64; omega⟩

/-- A window that covers less zeros than there are covers the bits. -/
theorem Covers.mono {state wider : XorState} (h : Covers state word)
    (hleading : wider.leading ≤ state.leading) (htrailing : wider.trailing ≤ state.trailing) :
    Covers wider word :=
  ⟨lt_of_lt_of_le h.high (Nat.pow_le_pow_right (by omega) (by omega)),
    (Nat.pow_dvd_pow 2 htrailing).trans h.low, by have := h.room; omega⟩

variable {next current : BitVec 64} {state : XorState}

/-- The bits of a window, read back into the word they are of. -/
theorem inverse_window
    (h : Covers state (next ^^^ current).toNat) :
    Inverse (writeBits ((next ^^^ current).toNat >>> state.trailing)
        (64 - state.leading - state.trailing))
      (readWindow current state (64 - state.leading - state.trailing)) (next, state) := by
  have hro := h.room
  have hlt : (next ^^^ current).toNat >>> state.trailing <
      2 ^ (64 - state.leading - state.trailing) := by
    rw [Nat.shiftRight_eq_div_pow, Nat.div_lt_iff_lt_mul (by positivity), ← pow_add,
      Nat.sub_add_cancel (by omega)]
    exact h.high
  have hpl : current ^^^ BitVec.ofNat 64 (((next ^^^ current).toNat >>> state.trailing) <<<
      (64 - state.leading - (64 - state.leading - state.trailing))) = next := by
    rw [show 64 - state.leading - (64 - state.leading - state.trailing) = state.trailing by omega,
      Nat.shiftRight_eq_div_pow, Nat.shiftLeft_eq, Nat.div_mul_cancel h.low, BitVec.ofNat_toNat,
      BitVec.setWidth_eq, BitVec.xor_comm next, ← BitVec.xor_assoc, BitVec.xor_self,
      BitVec.zero_xor]
  have hrd : Inverse _ (readWindow current state (64 - state.leading - state.trailing)) _ :=
    (inverse_bits (by omega) hlt).bind (Inverse.pure _)
  rw [hpl] at hrd
  exact hrd

theorem inverse_keptWindow
    (h : Covers state (next ^^^ current).toNat) :
    Inverse (writeBits ((next ^^^ current).toNat >>> state.trailing)
        (64 - state.leading - state.trailing))
      (readKeptWindow current state) (next, state) := by
  have hro := h.room
  rw [readKeptWindow, if_neg (by omega)]
  exact inverse_window h

theorem inverse_newWindow
    (h : Covers state (next ^^^ current).toNat) (hleading : state.leading < 32) :
    Inverse ((writeBits ((next ^^^ current).toNat >>> state.trailing)
          (64 - state.leading - state.trailing) ∘
        writeBits ((64 - state.leading - state.trailing) % 64) 6) ∘
        writeBits state.leading 5)
      (readNewWindow current) (next, state) := by
  have hro := h.room
  have hsi : (if (64 - state.leading - state.trailing) % 64 = 0 then 64
      else (64 - state.leading - state.trailing) % 64) = 64 - state.leading - state.trailing := by
    split
    · omega
    · omega
  refine (inverse_bits (show 5 ≤ 64 by omega) hleading).bind
    ((inverse_bits (show 6 ≤ 64 by omega)
      (show (64 - state.leading - state.trailing) % 64 < 2 ^ 6 by omega)).bind ?_)
  simp only [hsi]
  rw [if_neg (by omega), show 64 - state.leading - (64 - state.leading - state.trailing) =
    state.trailing by omega]
  exact inverse_window h

/-- The encoder has no window yet, or that of the decoder. -/
def SameWindow (encoder decoder : XorState) : Prop :=
  encoder.leading = noWindow ∨ encoder = decoder ∧ decoder.leading + decoder.trailing < 64

/-- The difference of two values, read back onto the first. -/
theorem inverse_value {encoder decoder : XorState} (next current : BitVec 64)
    (hwin : SameWindow encoder decoder) :
    ∃ write encoder' decoder',
      (∀ bits, writeValueDelta next current encoder bits = (write bits, encoder')) ∧
        Inverse write (readXorValue current decoder) (next, decoder') ∧
        SameWindow encoder' decoder' := by
  by_cases hz : (next ^^^ current).toNat = 0
  · have heq : next = current := BitVec.xor_eq_zero_iff.mp (BitVec.eq_of_toNat_eq hz)
    have hrd : Inverse _ (readXorValue current decoder) (current, decoder) :=
      (inverse_bit false).bind (by exact Inverse.pure _)
    refine ⟨_, encoder, decoder, fun bits => ?_, by rw [heq]; exact hrd, hwin⟩
    rw [writeValueDelta, if_pos hz]
    rfl
  · have hcov := covers_zeros hz (next ^^^ current).isLt
    by_cases hre : encoder.leading ≠ noWindow ∧
        encoder.leading ≤ min (leadingZeros (next ^^^ current).toNat) 31 ∧
        encoder.trailing ≤ trailingZeros (next ^^^ current).toNat
    · obtain ⟨rfl, hro⟩ := hwin.resolve_left hre.1
      have hk := inverse_keptWindow (hcov.mono hre.2.1 hre.2.2)
      have hrd : Inverse _ (readXorValue current encoder) (next, encoder) :=
        (inverse_bit true).bind (by exact (inverse_bit false).bind (by exact hk))
      refine ⟨_, encoder, encoder, fun bits => ?_, hrd, hwin⟩
      rw [writeValueDelta, if_neg hz, if_pos hre]
      rfl
    · have hnew := inverse_newWindow hcov (show min _ 31 < 32 by omega)
      have hrd : Inverse _ (readXorValue current decoder) (next, _) :=
        (inverse_bit true).bind (by exact (inverse_bit true).bind (by exact hnew))
      refine ⟨_, _, _, fun bits => ?_, hrd, .inr ⟨rfl, hcov.room⟩⟩
      rw [writeValueDelta, if_neg hz, if_neg hre]
      rfl

/-! ### Chunks -/

structure FloatSample where
  timestamp : BitVec 64
  value : BitVec 64
deriving DecidableEq, Repr

structure Chunk where
  minTimeMs : BitVec 64
  maxTimeMs : BitVec 64
  data : List Nat
deriving DecidableEq, Repr

inductive RemoteReadError where
  | unorderedSamples (previous current : BitVec 64)
deriving DecidableEq, Repr

structure XorEncoder where
  bits : BitStream
  timestamp : BitVec 64 := BitVec.intMin 64
  value : BitVec 64 := 0
  timestampDelta : BitVec 64 := 0
  window : XorState := ⟨noWindow, 0⟩

/-- The distance of two timestamps, as `u64`. -/
def timestampDelta (previous current : BitVec 64) : Except RemoteReadError (BitVec 64) :=
  if current.toInt - previous.toInt < 0 then .error (.unorderedSamples previous current)
  else .ok (BitVec.ofInt 64 (current.toInt - previous.toInt))

/-- The encoder after the value of a sample whose timestamp is written. -/
def XorEncoder.withValue (encoder : XorEncoder) (sample : FloatSample) (delta : BitVec 64)
    (bits : BitStream) : XorEncoder :=
  let written := writeValueDelta sample.value encoder.value encoder.window bits
  ⟨written.1, sample.timestamp, sample.value, delta, written.2⟩

def encodeSample (index : Nat) (encoder : XorEncoder) (sample : FloatSample) :
    Except RemoteReadError XorEncoder :=
  match index with
  | 0 =>
    .ok { encoder with
      bits := (encoder.bits.writeVarint sample.timestamp).writeBits sample.value.toNat 64
      timestamp := sample.timestamp
      value := sample.value }
  | 1 => do
    let delta ← timestampDelta encoder.timestamp sample.timestamp
    .ok (encoder.withValue sample delta (encoder.bits.writeUvarint delta.toNat))
  | _ => do
    let delta ← timestampDelta encoder.timestamp sample.timestamp
    .ok (encoder.withValue sample delta
      (encoder.bits.writeTimestampDeltaOfDelta (delta - encoder.timestampDelta)))

def encodeSamples : Nat → XorEncoder → List FloatSample → Except RemoteReadError XorEncoder
  | _, encoder, [] => .ok encoder
  | index, encoder, sample :: rest => do
    let encoder ← encodeSample index encoder sample
    encodeSamples (index + 1) encoder rest

inductive ChunkError where
  | truncated
  | invalid (reason : String)
  | schema (schema : Int)
  | tooManyBuckets (count : Nat)
deriving DecidableEq, Repr

structure XorDecoder where
  timestamp : BitVec 64 := 0
  delta : BitVec 64 := 0
  value : BitVec 64 := 0
  state : XorState := ⟨0, 0⟩

/-- The decoder after the value of a sample, with the timestamp `delta` further on. -/
def XorDecoder.readValue (decoder : XorDecoder) (delta : BitVec 64) : Read XorDecoder := do
  let (value, state) ← readXorValue decoder.value decoder.state
  pure ⟨decoder.timestamp + delta, delta, value, state⟩

def decodeSample (index : Nat) (decoder : XorDecoder) : Read XorDecoder :=
  match index with
  | 0 => do
    let timestamp ← readVarint
    let value ← BitVec.ofNat 64 <$> readBits 64
    pure { decoder with timestamp := timestamp, value := value }
  | 1 => do
    let delta ← BitVec.ofNat 64 <$> readUvarint
    decoder.readValue delta
  | _ => do
    let delta ← (decoder.delta + ·) <$> readXorDod
    decoder.readValue delta

def decodeSamples : Nat → Nat → XorDecoder → Read (List FloatSample)
  | 0, _, _ => pure []
  | count + 1, index, decoder => do
    let decoder ← decodeSample index decoder
    let rest ← decodeSamples count (index + 1) decoder
    pure (⟨decoder.timestamp, decoder.value⟩ :: rest)

/-- The decoder has what the encoder goes on from. -/
structure InStep (index : Nat) (encoder : XorEncoder) (decoder : XorDecoder) : Prop where
  timestamp : 0 < index → encoder.timestamp = decoder.timestamp
  value : 0 < index → encoder.value = decoder.value
  delta : 1 < index → encoder.timestampDelta = decoder.delta
  window : SameWindow encoder.window decoder.state

variable {index : Nat} {encoder : XorEncoder} {decoder : XorDecoder} {sample : FloatSample}

theorem timestampDelta_ok {previous current : BitVec 64} (h : previous.toInt ≤ current.toInt) :
    timestampDelta previous current = .ok (current - previous) := by
  have heq : BitVec.ofInt 64 (current.toInt - previous.toInt) = current - previous :=
    BitVec.eq_of_toInt_eq (by rw [BitVec.toInt_ofInt, BitVec.toInt_sub])
  rw [timestampDelta, if_neg (by omega), heq]

variable {write : BitStream → BitStream}

/-- The value of a sample after its timestamp, whose distance both sides have. -/
theorem InStep.value_step (h : InStep index encoder decoder) (hi : 0 < index)
    {read : Read (BitVec 64)}
    (hd : Inverse write read (sample.timestamp - encoder.timestamp)) :
    ∃ write' decoder', Inverse write' (read >>= decoder.readValue) decoder' ∧
      (encoder.withValue sample (sample.timestamp - encoder.timestamp) (write encoder.bits)).bits =
        write' encoder.bits ∧
      InStep (index + 1) (encoder.withValue sample (sample.timestamp - encoder.timestamp)
        (write encoder.bits)) decoder' ∧
      decoder'.timestamp = sample.timestamp ∧ decoder'.value = sample.value := by
  obtain ⟨writeValue, window, state, hwr, hval, hwin⟩ :=
    inverse_value sample.value encoder.value h.window
  rw [h.value hi] at hval
  have hts : decoder.timestamp + (sample.timestamp - encoder.timestamp) =
      sample.timestamp := by
    rw [← h.timestamp hi, BitVec.add_comm, BitVec.sub_add_cancel]
  have hrd : Inverse _ (read >>= decoder.readValue)
      ⟨decoder.timestamp + (sample.timestamp - encoder.timestamp),
        sample.timestamp - encoder.timestamp, sample.value, state⟩ :=
    hd.bind (hval.bind (Inverse.pure _))
  rw [XorEncoder.withValue, hwr]
  exact ⟨_, _, hrd, rfl, ⟨fun _ => hts.symm, fun _ => rfl, fun _ => rfl, hwin⟩,
    hts, rfl⟩

/-- What one sample comes to: the encoder writes what the decoder reads back, and both go on
in step. -/
structure Stepped (index : Nat) (encoder : XorEncoder) (decoder : XorDecoder)
    (sample : FloatSample) (write : BitStream → BitStream) (encoder' : XorEncoder)
    (decoder' : XorDecoder) : Prop where
  inverse : Inverse write (decodeSample index decoder) decoder'
  encoded : encodeSample index encoder sample = .ok encoder'
  bits : encoder'.bits = write encoder.bits
  inStep : InStep (index + 1) encoder' decoder'
  timestamp : decoder'.timestamp = sample.timestamp
  value : decoder'.value = sample.value

theorem InStep.first_step (h : InStep 0 encoder decoder) (sample : FloatSample) :
    ∃ write encoder' decoder', Stepped 0 encoder decoder sample write encoder' decoder' := by
  have hrd : Inverse (writeBits sample.value.toNat 64 ∘
        writeVarint sample.timestamp) (decodeSample 0 decoder)
      { decoder with timestamp := sample.timestamp, value := sample.value } :=
    (inverse_varint sample.timestamp).bind ((inverse_word sample.value).bind_pure _)
  refine ⟨_, { encoder with
      bits := (encoder.bits.writeVarint sample.timestamp).writeBits sample.value.toNat 64
      timestamp := sample.timestamp
      value := sample.value }, _, hrd, ?_, ?_, ?_, ?_, ?_⟩
  · rw [encodeSample]
  · rw [Function.comp_apply]
  · exact ⟨fun _ => rfl, fun _ => rfl, fun h => absurd h (Nat.lt_irrefl _), h.window⟩
  · rfl
  · rfl

theorem InStep.second_step (h : InStep 1 encoder decoder)
    (hord : encoder.timestamp.toInt ≤ sample.timestamp.toInt) :
    ∃ write encoder' decoder', Stepped 1 encoder decoder sample write encoder' decoder' := by
  have hd := (inverse_uvarint (sample.timestamp - encoder.timestamp).isLt).map (BitVec.ofNat 64)
  rw [BitVec.ofNat_toNat, BitVec.setWidth_eq] at hd
  obtain ⟨write, decoder', hrd, hbi, hs, hts, hval⟩ :=
    h.value_step Nat.one_pos hd
  have henc : encodeSample 1 encoder sample = .ok (encoder.withValue sample
      (sample.timestamp - encoder.timestamp)
      (encoder.bits.writeUvarint (sample.timestamp - encoder.timestamp).toNat)) := by
    rw [encodeSample, timestampDelta_ok hord]
    rfl
  exact ⟨write, _, decoder', hrd, henc, hbi, hs, hts, hval⟩

theorem InStep.later_step (h : InStep (index + 2) encoder decoder)
    (hord : encoder.timestamp.toInt ≤ sample.timestamp.toInt) :
    ∃ write encoder' decoder',
      Stepped (index + 2) encoder decoder sample write encoder' decoder' := by
  have hd := (inverse_dod (sample.timestamp - encoder.timestamp -
    encoder.timestampDelta)).map (decoder.delta + ·)
  have hsum : decoder.delta + (sample.timestamp - encoder.timestamp - encoder.timestampDelta) =
      sample.timestamp - encoder.timestamp := by
    rw [← h.delta (by omega), BitVec.add_comm, BitVec.sub_add_cancel]
  rw [hsum] at hd
  obtain ⟨write, decoder', hrd, hbi, hs, hts, hval⟩ :=
    h.value_step (Nat.succ_pos _) hd
  have henc : encodeSample (index + 2) encoder sample = .ok (encoder.withValue sample
      (sample.timestamp - encoder.timestamp) (encoder.bits.writeTimestampDeltaOfDelta
        (sample.timestamp - encoder.timestamp - encoder.timestampDelta))) := by
    rw [encodeSample, timestampDelta_ok hord]
    · rfl
    · omega
    · omega
  exact ⟨write, _, decoder', hrd, henc, hbi, hs, hts, hval⟩

theorem InStep.step (h : InStep index encoder decoder) (sample : FloatSample)
    (hord : 0 < index → encoder.timestamp.toInt ≤ sample.timestamp.toInt) :
    ∃ write encoder' decoder', Stepped index encoder decoder sample write encoder' decoder' := by
  match index, h, hord with
  | 0, h, _ => exact h.first_step sample
  | 1, h, hord => exact h.second_step (hord Nat.one_pos)
  | index + 2, h, hord => exact h.later_step (hord (Nat.succ_pos _))

/-- Samples in order, each at or after the one that the encoder has. -/
def Ordered (index : Nat) (encoder : XorEncoder) (samples : List FloatSample) : Prop :=
  samples.Pairwise (fun a b => a.timestamp.toInt ≤ b.timestamp.toInt) ∧
    (0 < index → ∀ sample ∈ samples, encoder.timestamp.toInt ≤ sample.timestamp.toInt)

/-- All samples: induction along the list, with the two sides in step. -/
theorem InStep.samples {samples : List FloatSample} : ∀ {index : Nat} {encoder : XorEncoder}
    {decoder : XorDecoder}, InStep index encoder decoder → Ordered index encoder samples →
      ∃ write encoder', Inverse write (decodeSamples samples.length index decoder) samples ∧
        encodeSamples index encoder samples = .ok encoder' ∧
        encoder'.bits = write encoder.bits := by
  induction samples with
  | nil => exact fun {index encoder decoder} _ _ => ⟨id, encoder, Inverse.pure [], rfl, rfl⟩
  | cons sample rest ih =>
    intro index encoder decoder h hord
    obtain ⟨hf, hr⟩ := pairwise_cons.mp hord.1
    obtain ⟨write, encoder', decoder', hs⟩ := h.step sample fun hi =>
      hord.2 hi sample mem_cons_self
    have hts : encoder'.timestamp = sample.timestamp :=
      (hs.inStep.timestamp (Nat.succ_pos _)).trans hs.timestamp
    obtain ⟨write', encoder'', hrd, henc, hbi⟩ := ih hs.inStep
      ⟨hr, fun _ later hl => hts ▸ hf later hl⟩
    have hsam : (⟨decoder'.timestamp, decoder'.value⟩ : FloatSample) = sample := by
      rw [hs.timestamp, hs.value]
    have hall : Inverse (write' ∘ write) (decodeSamples (rest.length + 1) index decoder)
        (⟨decoder'.timestamp, decoder'.value⟩ :: rest) :=
      hs.inverse.bind (hrd.bind_pure _)
    rw [hsam] at hall
    refine ⟨write' ∘ write, encoder'', hall, ?_, ?_⟩
    · rw [encodeSamples, hs.encoded]
      exact henc
    · rw [hbi, hs.bits, Function.comp_apply]

end KrabkaO11y.Metrics
