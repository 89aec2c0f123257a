import KrabkaO11y.Machine.Float
import KrabkaO11y.Metrics.XorChunk

/-!
Chunks of native histograms: `encode_histogram_chunk`
(`crates/metrics/src/wire/remote_read.rs`) and the two decoders of
`crates/metrics/src/tsdb_import/histogram_chunks.rs`.

The encoder writes one histogram to a chunk: the layout that the samples of a chunk share,
then the counts. The decoders read any number of samples, each after the first as a change
from the one before, and turn integer counts into the closest floats.
-/

namespace KrabkaO11y.Metrics

open Machine (f64OfInt f64OfRatio f64Value)
open Wire BitStream

/-! ### Integers of variable width -/

/-- `fits_unsigned`, for a word that is not zero. -/
def fitsUnsigned (value width : Nat) : Bool := 64 - width ≤ leadingZeros value

namespace BitStream

/-- The common body of `put_varbit_int` and `put_varbit_uint`. -/
def putVarbit (fits : Nat → Bool) (value : Nat) : BitStream → BitStream :=
  if value = 0 then writeBit false
  else if fits 3 then writeMarked 0b10 2 value 3
  else if fits 6 then writeMarked 0b110 3 value 6
  else if fits 9 then writeMarked 0b1110 4 value 9
  else if fits 12 then writeMarked 0b11110 5 value 12
  else if fits 18 then writeMarked 0b111110 6 value 18
  else if fits 25 then writeMarked 0b1111110 7 value 25
  else if fits 56 then writeMarked 0b11111110 8 value 56
  else writeMarked 0xff 8 value 64

def putVarbitInt (value : BitVec 64) : BitStream → BitStream :=
  putVarbit (fitsSigned value) value.toNat

def putVarbitUint (value : Nat) : BitStream → BitStream := putVarbit (fitsUnsigned value) value

end BitStream

/-- The width that a number of ones stands for. -/
def varbitWidth : Nat → Nat
  | 0 => 0
  | 1 => 3
  | 2 => 6
  | 3 => 9
  | 4 => 12
  | 5 => 18
  | 6 => 25
  | 7 => 56
  | _ => 64

/-- The width of a value and its bits. -/
def readVarbitRaw : Read (Nat × Nat) := do
  let ones ← readOnes 8
  if ones = 0 then pure (0, 0)
  else (fun raw => (varbitWidth ones, raw)) <$> readBits (varbitWidth ones)

def signedOf (value : Nat × Nat) : BitVec 64 :=
  if value.1 = 64 ∨ value.1 = 0 then BitVec.ofNat 64 value.2 else signExtend value.2 value.1

def readVarbitInt : Read (BitVec 64) := signedOf <$> readVarbitRaw

def readVarbitUint : Read Nat := Prod.snd <$> readVarbitRaw

/-- A value of a width, after the ones that tell it. -/
theorem inverse_marked (ones : Nat) {marker markerWidth width value : Nat} (hpos : 0 < ones)
    (hmarker : Inverse (writeBits marker markerWidth) (readOnes 8) ones)
    (hones : varbitWidth ones = width) (hw : width ≤ 64) (hval : value < 2 ^ 64) :
    Inverse (writeMarked marker markerWidth value width) readVarbitRaw
      (width, value % 2 ^ width) := by
  have hbi : Inverse (writeBits value width) (readBits width) (value % 2 ^ width) :=
    ⟨_, writes_writeBits hw hval, reads_readBits_mod hw value⟩
  refine Inverse.bind hmarker ?_
  rw [if_neg (Nat.pos_iff_ne_zero.mp hpos), hones]
  exact hbi.map (Prod.mk width)

theorem inverse_marked_lt (ones : Nat) {width value : Nat} (hpos : 0 < ones) (hlt : ones < 8)
    (hones : varbitWidth ones = width) (hw : width ≤ 64) (hval : value < 2 ^ 64) :
    Inverse (writeMarked (2 ^ (ones + 1) - 2) (ones + 1) value width) readVarbitRaw
      (width, value % 2 ^ width) :=
  inverse_marked ones hpos (inverse_marker hlt le_rfl) hones hw hval

/-- A value as `put_varbit` writes it: by a width that it fits, or in full. -/
theorem inverse_varbit {fits : Nat → Bool} {value : Nat} (hpos : value ≠ 0)
    (hval : value < 2 ^ 64) :
    ∃ width, 0 < width ∧ width ≤ 64 ∧ (width < 64 → fits width = true) ∧
      Inverse (putVarbit fits value) readVarbitRaw (width, value % 2 ^ width) := by
  rw [putVarbit, if_neg hpos]
  split
  · exact ⟨3, by omega, by omega, fun _ => ‹_›,
      inverse_marked_lt 1 (by omega) (by omega) rfl (by omega) hval⟩
  split
  · exact ⟨6, by omega, by omega, fun _ => ‹_›,
      inverse_marked_lt 2 (by omega) (by omega) rfl (by omega) hval⟩
  split
  · exact ⟨9, by omega, by omega, fun _ => ‹_›,
      inverse_marked_lt 3 (by omega) (by omega) rfl (by omega) hval⟩
  split
  · exact ⟨12, by omega, by omega, fun _ => ‹_›,
      inverse_marked_lt 4 (by omega) (by omega) rfl (by omega) hval⟩
  split
  · exact ⟨18, by omega, by omega, fun _ => ‹_›,
      inverse_marked_lt 5 (by omega) (by omega) rfl (by omega) hval⟩
  split
  · exact ⟨25, by omega, by omega, fun _ => ‹_›,
      inverse_marked_lt 6 (by omega) (by omega) rfl (by omega) hval⟩
  split
  · exact ⟨56, by omega, by omega, fun _ => ‹_›,
      inverse_marked_lt 7 (by omega) (by omega) rfl (by omega) hval⟩
  · exact ⟨64, by omega, le_rfl, fun h => absurd h (lt_irrefl 64),
      inverse_marked 8 (by omega) (inverse_marker_all le_rfl) rfl le_rfl hval⟩

theorem inverse_varbit_zero (fits : Nat → Bool) :
    Inverse (putVarbit fits 0) readVarbitRaw (0, 0) := by
  refine ⟨[false], ?_, ?_⟩
  · rw [putVarbit, if_pos rfl]
    exact writes_writeBit false
  · exact (reads_readOnes (show 0 < 8 by omega)).bind (Reads.pure (0, 0))

theorem lt_of_fitsUnsigned {value width : Nat} (hpos : value ≠ 0) (hval : value < 2 ^ 64)
    (hw : width ≤ 64) (h : fitsUnsigned value width = true) : value < 2 ^ width := by
  have hlog : value.log2 < 64 := (Nat.log2_lt hpos).mpr hval
  have hze : 64 - width ≤ 63 - value.log2 := of_decide_eq_true h
  exact lt_of_lt_of_le Nat.lt_log2_self (Nat.pow_le_pow_right (by omega) (by omega))

theorem inverse_varbitUint {value : Nat} (hval : value < 2 ^ 64) :
    Inverse (putVarbitUint value) readVarbitUint value := by
  by_cases hz : value = 0
  · rw [hz]
    exact (inverse_varbit_zero _).map Prod.snd
  · obtain ⟨width, hpos, hle, hft, h⟩ := @inverse_varbit (fitsUnsigned value) _ hz hval
    have hlt : value < 2 ^ width := by
      rcases Nat.lt_or_ge width 64 with hlt | hge
      · exact lt_of_fitsUnsigned hz hval hle (hft hlt)
      · rwa [Nat.le_antisymm hle hge]
    rw [Nat.mod_eq_of_lt hlt] at h
    exact h.map Prod.snd

theorem inverse_varbitInt (value : BitVec 64) :
    Inverse (putVarbitInt value) readVarbitInt value := by
  by_cases hz : value.toNat = 0
  · have hval : value = 0#64 := BitVec.eq_of_toNat_eq hz
    have h := (inverse_varbit_zero (fitsSigned value)).map signedOf
    rw [← hz, show signedOf (value.toNat, value.toNat) = value by rw [hval]; rfl] at h
    exact h
  · obtain ⟨width, hpos, hle, hft, h⟩ := @inverse_varbit (fitsSigned value) _ hz value.isLt
    have hval : signedOf (width, value.toNat % 2 ^ width) = value := by
      rw [signedOf]
      rcases Nat.lt_or_ge width 64 with hlt | hge
      · rw [if_neg (by omega)]
        exact signExtend_mod hpos hlt (hft hlt)
      · obtain rfl := Nat.le_antisymm hle hge
        rw [if_pos (.inl rfl), Nat.mod_eq_of_lt value.isLt, BitVec.ofNat_toNat, BitVec.setWidth_eq]
    have := h.map signedOf
    rwa [hval] at this

/-! ### Histograms as they are written -/

structure BucketSpan where
  offset : BitVec 32
  length : BitVec 32
deriving DecidableEq, Repr

inductive HistogramCount where
  | int (count : BitVec 64)
  | float (count : BitVec 64)
deriving DecidableEq, Repr

/-- The histogram of a remote read response. -/
structure WireHistogram where
  count : Option HistogramCount
  sum : BitVec 64
  schema : BitVec 32
  zeroThreshold : BitVec 64
  zeroCount : Option HistogramCount
  negativeSpans : List BucketSpan := []
  negativeDeltas : List (BitVec 64) := []
  negativeCounts : List (BitVec 64) := []
  positiveSpans : List BucketSpan := []
  positiveDeltas : List (BitVec 64) := []
  positiveCounts : List (BitVec 64) := []
  resetHint : Nat := 0
  timestamp : BitVec 64
  customValues : List (BitVec 64) := []
deriving DecidableEq, Repr

inductive ChunkEncoding where
  | xor
  | histogram
  | floatHistogram
deriving DecidableEq, Repr

structure TypedChunk where
  encoding : ChunkEncoding
  chunk : Chunk
deriving DecidableEq, Repr

/-- The integer or the float that a count holds, zero where it holds the other. -/
def HistogramCount.asInt : Option HistogramCount → BitVec 64
  | some (.int count) => count
  | _ => 0

def HistogramCount.asFloat : Option HistogramCount → BitVec 64
  | some (.float count) => count
  | _ => 0

variable (histogram : WireHistogram)

def WireHistogram.isFloat : Bool :=
  match histogram.count with
  | some (.float _) => true
  | _ => false

def resetHeader : Nat → Nat
  | 1 => 0x80
  | 2 => 0x40
  | 3 => 0xc0
  | _ => 0

/-- The schema of histograms with bucket bounds of their own. -/
def customBucketsSchema : Int := -53

/-- Positive and negative zero compare equal to zero. -/
def isZeroFloat (bits : BitVec 64) : Bool := bits.toNat % 2 ^ 63 = 0

namespace BitStream

def writeEach {α : Type} (write : α → BitStream → BitStream) (xs : List α)
    (stream : BitStream) : BitStream :=
  xs.foldl (fun stream x => write x stream) stream

def writeWord (value : BitVec 64) : BitStream → BitStream := writeBits value.toNat 64

def writeSpan (span : BucketSpan) (stream : BitStream) : BitStream :=
  (stream.putVarbitUint span.length.toNat).putVarbitInt (span.offset.signExtend 64)

def writeSpans (spans : List BucketSpan) (stream : BitStream) : BitStream :=
  (stream.putVarbitUint spans.length).writeEach writeSpan spans

def writeCustomBound (bound : BitVec 64) (stream : BitStream) : BitStream :=
  (stream.writeBit false).writeWord bound

def writeCustomBounds (bounds : List (BitVec 64)) (stream : BitStream) : BitStream :=
  (stream.putVarbitUint bounds.length).writeEach writeCustomBound bounds

def writeZeroThreshold (threshold : BitVec 64) (stream : BitStream) : BitStream :=
  if isZeroFloat threshold then stream.writeByte 0
  else (stream.writeByte 0xff).writeWord threshold

def writeCustomValues : BitStream → BitStream :=
  if histogram.schema.toInt = customBucketsSchema then writeCustomBounds histogram.customValues
  else id

def writeLayout (stream : BitStream) : BitStream :=
  let stream := (stream.writeZeroThreshold histogram.zeroThreshold).putVarbitInt
    (histogram.schema.signExtend 64)
  let stream := (stream.writeSpans histogram.positiveSpans).writeSpans histogram.negativeSpans
  stream.writeCustomValues histogram

def writeFloatCounts (stream : BitStream) : BitStream :=
  let stream := ((stream.writeWord (HistogramCount.asFloat histogram.count)).writeWord
    (HistogramCount.asFloat histogram.zeroCount)).writeWord histogram.sum
  (stream.writeEach writeWord histogram.positiveCounts).writeEach writeWord
    histogram.negativeCounts

def writeIntegerCounts (stream : BitStream) : BitStream :=
  let stream := ((stream.putVarbitUint (HistogramCount.asInt histogram.count).toNat).putVarbitUint
    (HistogramCount.asInt histogram.zeroCount).toNat).writeWord histogram.sum
  (stream.writeEach putVarbitInt histogram.positiveDeltas).writeEach putVarbitInt
    histogram.negativeDeltas

end BitStream

def encodeHistogramChunk : TypedChunk :=
  let bits := (new 1).writeByte (resetHeader histogram.resetHint)
  let bits := (bits.writeLayout histogram).putVarbitInt histogram.timestamp
  let bits :=
    if histogram.isFloat then bits.writeFloatCounts histogram
    else bits.writeIntegerCounts histogram
  { encoding := if histogram.isFloat then .floatHistogram else .histogram
    chunk := ⟨histogram.timestamp, histogram.timestamp, bits.bytes⟩ }

inductive ResetHint where
  | unknown
  | yes
  | no
  | gauge
deriving DecidableEq, Repr

structure NativeHistogram where
  schema : Int
  isFloat : Bool
  resetHint : ResetHint
  zeroThreshold : BitVec 64
  zeroCount : BitVec 64
  count : BitVec 64
  sum : BitVec 64
  positiveSpans : List BucketSpan
  positiveCounts : List (BitVec 64)
  negativeSpans : List BucketSpan
  negativeCounts : List (BitVec 64)
  customValues : Option (List (BitVec 64))
  startTimestampMs : Option (BitVec 64) := none
deriving DecidableEq, Repr

structure HistogramSample where
  timestampMs : BitVec 64
  histogram : NativeHistogram
deriving DecidableEq, Repr

def u64ToF64 (value : BitVec 64) : BitVec 64 := f64OfInt value.toNat

def i64ToF64 (value : BitVec 64) : BitVec 64 := f64OfInt value.toInt

/-- `u64_to_f64(count) / 1000.0`; the dividend is an integer. -/
def thousandthsToF64 (count : Nat) : BitVec 64 :=
  BitVec.ofNat 64 (f64OfRatio (f64Value (u64ToF64 (BitVec.ofNat 64 count))).num.natAbs 1000)

abbrev Decode (α : Type) := StateT BitReader (Except ChunkError) α

/-- A read that ends the decoding where the data end. -/
def orTruncated {α : Type} (read : Read α) : Decode α := fun reader =>
  match read reader with
  | some result => .ok result
  | none => .error .truncated

def fails {α : Type} (error : ChunkError) : Decode α := fun _ => .error error

def readEach {α : Type} (read : Decode α) : Nat → Decode (List α)
  | 0 => pure []
  | count + 1 => do
    let x ← read
    let rest ← readEach read count
    pure (x :: rest)

def readWord : Decode (BitVec 64) := orTruncated (BitVec.ofNat 64 <$> readBits 64)

def bounded (count maxBuckets : Nat) : Decode Nat :=
  if maxBuckets < count then fails (.tooManyBuckets count) else pure count

/-- The saturating total of the lengths. -/
def spanTotal (spans : List BucketSpan) : Nat :=
  spans.foldl (fun total span => min (total + span.length.toNat) (2 ^ 64 - 1)) 0

def bucketCount (spans : List BucketSpan) (maxBuckets : Nat) : Decode Nat :=
  bounded (spanTotal spans) maxBuckets

def readSpan : Decode BucketSpan := do
  let length ← orTruncated readVarbitUint
  let offset ← orTruncated readVarbitInt
  if offset.toInt < -2 ^ 31 ∨ 2 ^ 31 ≤ offset.toInt then
    fails (.invalid s!"span offset {offset.toInt} overflows i32")
  else if 2 ^ 32 ≤ length then fails (.invalid s!"span length {length} overflows u32")
  else pure ⟨offset.setWidth 32, BitVec.ofNat 32 length⟩

def readSpans (maxBuckets : Nat) : Decode (List BucketSpan) := do
  let count ← orTruncated readVarbitUint
  let count ← bounded count maxBuckets
  readEach readSpan count

def readCustomBound : Decode (BitVec 64) := do
  let thousandths ← orTruncated readVarbitUint
  if thousandths = 0 then readWord else pure (thousandthsToF64 (thousandths - 1))

def readCustomBounds (maxBuckets : Nat) :
    Decode (List (BitVec 64)) := do
  let count ← orTruncated readVarbitUint
  let count ← bounded count maxBuckets
  readEach (readCustomBound) count

def readCustomValues (maxBuckets : Nat) (schema : Int) :
    Decode (Option (List (BitVec 64))) :=
  if schema = customBucketsSchema then some <$> readCustomBounds maxBuckets
  else pure none

/-- `0.5 * 2 ^ exponent`. -/
def ldexpHalf (exponent : Int) : BitVec 64 := BitVec.ofNat 64 ((exponent - 1 + 1023).toNat <<< 52)

def readZeroThreshold : Decode (BitVec 64) := do
  let byte ← orTruncated readByte
  if byte = 0 then pure 0
  else if byte = 255 then readWord
  else pure (ldexpHalf (byte - 243))

def readSchema : Decode Int := do
  let raw ← orTruncated readVarbitInt
  if raw.toInt = customBucketsSchema ∨ (-4 ≤ raw.toInt ∧ raw.toInt ≤ 8) then pure raw.toInt
  else fails (.schema raw.toInt)

structure HistogramLayout where
  schema : Int
  zeroThreshold : BitVec 64
  positiveSpans : List BucketSpan
  negativeSpans : List BucketSpan
  customValues : Option (List (BitVec 64))
  positiveBuckets : Nat
  negativeBuckets : Nat

def readLayout (maxBuckets : Nat) : Decode HistogramLayout := do
  let zeroThreshold ← readZeroThreshold
  let schema ← readSchema
  let positiveSpans ← readSpans maxBuckets
  let negativeSpans ← readSpans maxBuckets
  let customValues ← readCustomValues maxBuckets schema
  let positiveBuckets ← bucketCount positiveSpans maxBuckets
  let negativeBuckets ← bucketCount negativeSpans maxBuckets
  pure ⟨schema, zeroThreshold, positiveSpans, negativeSpans, customValues, positiveBuckets,
    negativeBuckets⟩

def counterResetHint (header index : Nat) : ResetHint :=
  if header &&& 0xc0 = 0xc0 then .gauge else if 0 < index then .no else .unknown

def staleNanBits : BitVec 64 := 0x7ff0000000000002

def staleHistogram (isFloat : Bool) : NativeHistogram :=
  ⟨0, isFloat, .unknown, 0, 0, 0, staleNanBits, [], [], [], [], none, none⟩

/-- What a decoder of one encoding does, the trait `HistogramChunkState`. -/
structure HistogramDecoder (σ : Type) where
  isFloat : Bool
  readFirst : HistogramLayout → Decode σ
  /-- The next sample, and whether it is a stale marker. -/
  readNext : σ → Decode (σ × Bool)
  timestamp : σ → BitVec 64
  histogram : σ → HistogramLayout → ResetHint → Except ChunkError NativeHistogram

section Samples

variable {σ : Type} (decoder : HistogramDecoder σ) (layout : HistogramLayout) (header : Nat)

def sampleOf (index : Nat) (state : σ) (isStale : Bool) : Decode HistogramSample := fun reader => do
  let histogram ←
    if isStale then .ok (staleHistogram decoder.isFloat)
    else decoder.histogram state layout (counterResetHint header index)
  .ok (⟨decoder.timestamp state, histogram⟩, reader)

/-- The samples after the first. -/
def readLater : Nat → Nat → σ → Decode (List HistogramSample)
  | 0, _, _ => pure []
  | count + 1, index, state => do
    let (state, isStale) ← decoder.readNext state
    let sample ← sampleOf decoder layout header index state isStale
    let rest ← readLater count (index + 1) state
    pure (sample :: rest)

def readSamples : Nat → Decode (List HistogramSample)
  | 0 => pure []
  | count + 1 => do
    let state ← decoder.readFirst layout
    let sample ← sampleOf decoder layout header 0 state false
    let rest ← readLater decoder layout header count 1 state
    pure (sample :: rest)

end Samples

def decodeHistogramSamples {σ : Type}
    (decoder : HistogramDecoder σ) (maxBuckets : Nat) (data : List Nat) :
    Except ChunkError (List HistogramSample) :=
  match data with
  | high :: low :: header :: body =>
    if high * 256 + low = 0 then .ok []
    else
      ((do
        let layout ← readLayout maxBuckets
        readSamples decoder layout header (high * 256 + low) : Decode _).run'
          { data := body })
  | _ => .error .truncated

/-! ### The integer encoding -/

structure IntegerState where
  timestamp : BitVec 64
  timestampDelta : BitVec 64 := 0
  count : BitVec 64
  countDelta : BitVec 64 := 0
  zeroCount : BitVec 64
  zeroCountDelta : BitVec 64 := 0
  sum : BitVec 64
  sumState : XorState := ⟨0, 0⟩
  positive : List (BitVec 64)
  positiveDelta : List (BitVec 64)
  negative : List (BitVec 64)
  negativeDelta : List (BitVec 64)

/-- Each value moves by its delta, which moves by what is read. -/
def readMoves : List (BitVec 64) → List (BitVec 64) →
    Decode (List (BitVec 64) × List (BitVec 64))
  | value :: values, delta :: deltas => do
    let dod ← orTruncated readVarbitInt
    let rest ← readMoves values deltas
    pure ((value + (delta + dod)) :: rest.1, (delta + dod) :: rest.2)
  | _, _ => pure ([], [])

/-- The running totals of some deltas as floats, unless one is negative. -/
def absoluteCounts : BitVec 64 → List (BitVec 64) →
    Except ChunkError (List (BitVec 64))
  | _, [] => .ok []
  | current, delta :: deltas => do
    if (current + delta).toInt < 0 then
      .error (.invalid s!"histogram bucket count {(current + delta).toInt} is negative")
    else
      let rest ← absoluteCounts (current + delta) deltas
      .ok (i64ToF64 (current + delta) :: rest)

def integerDecoder : HistogramDecoder IntegerState where
  isFloat := false
  readFirst layout := do
    let timestamp ← orTruncated readVarbitInt
    let count ← orTruncated (BitVec.ofNat 64 <$> readVarbitUint)
    let zeroCount ← orTruncated (BitVec.ofNat 64 <$> readVarbitUint)
    let sum ← readWord
    let positive ← readEach (orTruncated readVarbitInt) layout.positiveBuckets
    let negative ← readEach (orTruncated readVarbitInt) layout.negativeBuckets
    pure { timestamp, count, zeroCount, sum, positive, negative
           positiveDelta := positive.map fun _ => 0
           negativeDelta := negative.map fun _ => 0 }
  readNext state := do
    let dod ← orTruncated readVarbitInt
    let timestampDelta := state.timestampDelta + dod
    let dod ← orTruncated readVarbitInt
    let countDelta := state.countDelta + dod
    let dod ← orTruncated readVarbitInt
    let zeroCountDelta := state.zeroCountDelta + dod
    let (sum, sumState) ← orTruncated (readXorValue state.sum state.sumState)
    let state := { state with
      timestampDelta, countDelta, zeroCountDelta, sum, sumState
      timestamp := state.timestamp + timestampDelta
      count := state.count + countDelta
      zeroCount := state.zeroCount + zeroCountDelta }
    if sum = staleNanBits then pure (state, true)
    else
      let (positive, positiveDelta) ← readMoves state.positive state.positiveDelta
      let (negative, negativeDelta) ← readMoves state.negative state.negativeDelta
      pure ({ state with positive, positiveDelta, negative, negativeDelta }, false)
  timestamp := IntegerState.timestamp
  histogram state layout resetHint := do
    let positiveCounts ← absoluteCounts 0 state.positive
    let negativeCounts ← absoluteCounts 0 state.negative
    .ok
      { schema := layout.schema
        isFloat := false
        resetHint
        zeroThreshold := layout.zeroThreshold
        zeroCount := u64ToF64 state.zeroCount
        count := u64ToF64 state.count
        sum := state.sum
        positiveSpans := layout.positiveSpans
        positiveCounts
        negativeSpans := layout.negativeSpans
        negativeCounts
        customValues := layout.customValues }

def decodeHistogramChunk (maxBuckets : Nat) (data : List Nat) :
    Except ChunkError (List HistogramSample) :=
  decodeHistogramSamples (integerDecoder) maxBuckets data

/-! ### The float encoding -/

structure FloatState where
  timestamp : BitVec 64
  timestampDelta : BitVec 64 := 0
  count : BitVec 64 × XorState
  zeroCount : BitVec 64 × XorState
  sum : BitVec 64 × XorState
  positive : List (BitVec 64 × XorState)
  negative : List (BitVec 64 × XorState)

/-- A value that is written in full, with no window yet. -/
def readFull : Decode (BitVec 64 × XorState) := (·, ⟨0, 0⟩) <$> readWord

def readXors : List (BitVec 64 × XorState) → Decode (List (BitVec 64 × XorState))
  | [] => pure []
  | value :: values => do
    let next ← orTruncated (readXorValue value.1 value.2)
    let rest ← readXors values
    pure (next :: rest)

def floatDecoder : HistogramDecoder FloatState where
  isFloat := true
  readFirst layout := do
    let timestamp ← orTruncated readVarbitInt
    let count ← readFull
    let zeroCount ← readFull
    let sum ← readFull
    let positive ← readEach readFull layout.positiveBuckets
    let negative ← readEach readFull layout.negativeBuckets
    pure { timestamp, count, zeroCount, sum, positive, negative }
  readNext state := do
    let dod ← orTruncated readVarbitInt
    let timestampDelta := state.timestampDelta + dod
    let count ← orTruncated (readXorValue state.count.1 state.count.2)
    let zeroCount ← orTruncated (readXorValue state.zeroCount.1 state.zeroCount.2)
    let sum ← orTruncated (readXorValue state.sum.1 state.sum.2)
    let state := { state with
      timestampDelta, count, zeroCount, sum
      timestamp := state.timestamp + timestampDelta }
    if sum.1 = staleNanBits then pure (state, true)
    else
      let positive ← readXors state.positive
      let negative ← readXors state.negative
      pure ({ state with positive, negative }, false)
  timestamp := FloatState.timestamp
  histogram state layout resetHint := .ok
    { schema := layout.schema
      isFloat := true
      resetHint
      zeroThreshold := layout.zeroThreshold
      zeroCount := state.zeroCount.1
      count := state.count.1
      sum := state.sum.1
      positiveSpans := layout.positiveSpans
      positiveCounts := state.positive.map Prod.fst
      negativeSpans := layout.negativeSpans
      negativeCounts := state.negative.map Prod.fst
      customValues := layout.customValues }

def decodeFloatHistogramChunk (maxBuckets : Nat)
    (data : List Nat) : Except ChunkError (List HistogramSample) :=
  decodeHistogramSamples floatDecoder maxBuckets data

end KrabkaO11y.Metrics
