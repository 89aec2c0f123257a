import KrabkaO11y.Metrics.HistogramChunk

/-!
What becomes of a native histogram that is written to a chunk and decoded again.

Each part of the layout and each count is read back by the operation that mirrors the one
that wrote it; `DecodesTo` composes these as `Inverse` does, for readers that can fail. The
decoder refuses schemas and sizes that the encoder writes all the same, and a negative zero
threshold comes back as zero, so the round trip is stated for histograms without these.
-/

namespace KrabkaO11y.Metrics

open Machine (f64Value f64Value_f64OfInt)
open Wire List BitStream HistogramCount

/-! ### Operations that can fail -/

/-- What one operation writes another decodes to a value. -/
def DecodesTo {α : Type} (write : BitStream → BitStream) (read : Decode α) (a : α) : Prop :=
  ∃ bits, BitStream.Writes write bits ∧ ∀ (reader : BitReader) (rest : List Bool),
    reader.rest = bits ++ rest → ∃ reader', read reader = .ok (a, reader') ∧ reader'.rest = rest

section Decoding

variable {α β : Type} {write write' : BitStream → BitStream}

variable {a : α}

theorem Inverse.decodesTo {read : Read α} (h : Inverse write read a) :
    DecodesTo write (orTruncated read) a := by
  obtain ⟨bits, hw, hrd⟩ := h
  refine ⟨bits, hw, fun reader rest hr => ?_⟩
  obtain ⟨reader', hres, hr'⟩ := hrd reader rest hr
  exact ⟨reader', by rw [orTruncated, hres], hr'⟩

variable {read : Decode α} {next : α → Decode β} {b : β}

/-- What one writer appends after another is read in turn. -/
theorem DecodesTo.bind (h : DecodesTo write read a) (h' : DecodesTo write' (next a) b) :
    DecodesTo (write' ∘ write) (read >>= next) b := by
  obtain ⟨bits, hw, hrd⟩ := h
  obtain ⟨bits', hw', hrd'⟩ := h'
  refine ⟨bits ++ bits', hw.comp hw', fun reader rest hr => ?_⟩
  rw [append_assoc] at hr
  obtain ⟨reader', hres, hr'⟩ := hrd reader _ hr
  obtain ⟨reader'', hres', hrest''⟩ := hrd' reader' rest hr'
  refine ⟨reader'', ?_, hrest''⟩
  change (read reader).bind (fun p => next p.1 p.2) = _
  rw [hres]
  exact hres'

/-- A step that reads nothing and succeeds. -/
theorem DecodesTo.after {check : Decode α} (hcheck : check = pure a)
    (h : DecodesTo write (next a) b) :
    DecodesTo write (check >>= next) b := by
  rw [hcheck]
  exact h

theorem decodesTo_pure (a : α) : DecodesTo id (pure a : Decode α) a :=
  ⟨[], BitStream.Writes.id, fun reader _ hr => ⟨reader, rfl, hr⟩⟩

/-- A last step that reads nothing and succeeds. -/
theorem DecodesTo.then_pure (h : DecodesTo write read a) (hn : next a = pure b) :
    DecodesTo write (read >>= next) b := by
  obtain ⟨bits, hw, hrd⟩ := h
  refine ⟨bits, hw, fun reader rest hr => ?_⟩
  obtain ⟨reader', hres, hr'⟩ := hrd reader rest hr
  refine ⟨reader', ?_, hr'⟩
  change (read reader).bind (fun p => next p.1 p.2) = _
  rw [hres]
  change next a reader' = _
  rw [hn]
  rfl

theorem DecodesTo.map (h : DecodesTo write read a) (f : α → β) :
    DecodesTo write (f <$> read) (f a) := by
  change DecodesTo write (read >>= fun a => pure (f a)) (f a)
  exact h.then_pure rfl

/-- A list is read back element by element. -/
theorem decodesTo_each {write : α → BitStream → BitStream} {read : Decode β} (f : α → β)
    (xs : List α) (h : ∀ x ∈ xs, DecodesTo (write x) read (f x)) :
    DecodesTo (writeEach write xs) (readEach read xs.length) (xs.map f) := by
  induction xs with
  | nil => exact decodesTo_pure []
  | cons x xs ih =>
    have hr := ih fun y hy => h y (mem_cons_of_mem _ hy)
    have hw : writeEach write (x :: xs) = writeEach write xs ∘ write x :=
      rfl
    rw [hw, length_cons, readEach, map_cons]
    refine DecodesTo.bind (h x mem_cons_self) ?_
    exact hr.then_pure rfl

end Decoding

/-! ### The layout -/

theorem decodesTo_word (value : BitVec 64) :
    DecodesTo (writeWord value) readWord value :=
  (inverse_word value).decodesTo

theorem bounded_ok {count maxBuckets : Nat} (h : count ≤ maxBuckets) :
    bounded count maxBuckets = pure count := by
  rw [bounded, if_neg (Nat.not_lt.mpr h)]

theorem decodesTo_span (span : BucketSpan) : DecodesTo (writeSpan span) readSpan span := by
  have hlen : span.length.toNat < 2 ^ 32 := span.length.isLt
  have hoff : (span.offset.signExtend 64).toInt = span.offset.toInt :=
    BitVec.toInt_signExtend_of_le (by omega)
  have hlow := BitVec.le_toInt span.offset
  have hhi := BitVec.toInt_lt (x := span.offset)
  have hba : (span.offset.signExtend 64).setWidth 32 = span.offset := by
    refine BitVec.eq_of_getLsbD_eq fun i hi => ?_
    rw [BitVec.getLsbD_setWidth, BitVec.getLsbD_signExtend]
    simp [hi]
    omega
  refine DecodesTo.bind (inverse_varbitUint (by omega)).decodesTo ?_
  refine (inverse_varbitInt (span.offset.signExtend 64)).decodesTo.then_pure ?_
  rw [hoff, if_neg (by omega), if_neg (by omega), hba, BitVec.ofNat_toNat, BitVec.setWidth_eq]

section Layout

variable {maxBuckets : Nat} (hmax : maxBuckets < 2 ^ 64)
include hmax

theorem decodesTo_spans {spans : List BucketSpan} (h : spans.length ≤ maxBuckets) :
    DecodesTo (writeSpans spans) (readSpans maxBuckets) spans := by
  have hsn := decodesTo_each id spans fun span _ => decodesTo_span span
  rw [map_id] at hsn
  refine DecodesTo.bind (inverse_varbitUint (by omega)).decodesTo ?_
  exact DecodesTo.after (bounded_ok h) hsn

theorem decodesTo_customBounds {bounds : List (BitVec 64)}
    (h : bounds.length ≤ maxBuckets) :
    DecodesTo (writeCustomBounds bounds) (readCustomBounds maxBuckets)
      bounds := by
  have hbd : ∀ bound, DecodesTo (writeCustomBound bound)
      (readCustomBound) bound := by
    intro bound
    have hz : Inverse (writeBit false) readVarbitUint 0 :=
      (inverse_varbit_zero fun _ => false).map Prod.snd
    exact DecodesTo.bind hz.decodesTo (decodesTo_word bound)
  have hbnd := decodesTo_each id bounds fun bound _ => hbd bound
  rw [map_id] at hbnd
  refine DecodesTo.bind (inverse_varbitUint (by omega)).decodesTo ?_
  exact DecodesTo.after (bounded_ok h) hbnd

end Layout

/-- Every zero threshold but the negative zero. -/
theorem decodesTo_zeroThreshold {threshold : BitVec 64} (h : threshold ≠ BitVec.intMin 64) :
    DecodesTo (writeZeroThreshold threshold) readZeroThreshold threshold := by
  by_cases hz : isZeroFloat threshold = true
  · have hth : threshold = 0#64 := by
      have hmod : threshold.toNat % 2 ^ 63 = 0 := of_decide_eq_true hz
      have hlt := threshold.isLt
      have hne : threshold.toNat ≠ 2 ^ 63 := fun heq => h (BitVec.eq_of_toNat_eq heq)
      refine BitVec.eq_of_toNat_eq ?_
      change threshold.toNat = 0
      omega
    have hw : writeZeroThreshold threshold = writeByte 0 :=
      funext fun stream => if_pos hz
    rw [hw, hth]
    exact (inverse_byte (by omega)).decodesTo.then_pure rfl
  · have hw : writeZeroThreshold threshold =
        writeWord threshold ∘ writeByte 0xff :=
      funext fun stream => if_neg hz
    rw [hw]
    exact DecodesTo.bind (inverse_byte (by omega)).decodesTo (decodesTo_word threshold)

/-- A schema that histograms can have. -/
def SupportedSchema (schema : Int) : Prop :=
  schema = customBucketsSchema ∨ (-4 ≤ schema ∧ schema ≤ 8)

theorem decodesTo_schema {schema : BitVec 32} (h : SupportedSchema schema.toInt) :
    DecodesTo (putVarbitInt (schema.signExtend 64)) readSchema schema.toInt := by
  have hsc : (schema.signExtend 64).toInt = schema.toInt :=
    BitVec.toInt_signExtend_of_le (by omega)
  refine (inverse_varbitInt (schema.signExtend 64)).decodesTo.then_pure ?_
  rw [hsc]
  exact if_pos h

/-! ### Histograms that survive -/

/-- The buckets of one side: as many as its spans say, and no more than are decoded. -/
structure SideFits (maxBuckets : Nat) (spans : List BucketSpan) (buckets : Nat) : Prop where
  spans_le : spans.length ≤ maxBuckets
  buckets_le : buckets ≤ maxBuckets
  total : (spans.map fun span => span.length.toNat).sum = buckets

theorem spanTotal_eq (spans : List BucketSpan) : ∀ total, total < 2 ^ 64 →
    spans.foldl (fun total span => min (total + span.length.toNat) (2 ^ 64 - 1)) total =
      min (total + (spans.map fun span => span.length.toNat).sum) (2 ^ 64 - 1) := by
  induction spans with
  | nil =>
    intro total htot
    rw [foldl_nil, map_nil, sum_nil]
    omega
  | cons span spans ih =>
    intro total htot
    rw [foldl_cons, ih _ (by omega), map_cons, sum_cons]
    omega

/-- Spans that agree with the buckets count them. -/
theorem SideFits.bucketCount_eq {maxBuckets buckets : Nat} {spans : List BucketSpan}
    (h : SideFits maxBuckets spans buckets) (hmax : maxBuckets < 2 ^ 64) :
    bucketCount spans maxBuckets = pure buckets := by
  have hle := h.buckets_le
  have htot : spanTotal spans = buckets := by
    rw [spanTotal, spanTotal_eq spans 0 (by decide), h.total]
    omega
  rw [bucketCount, htot, bounded_ok hle]

/-- The layout that a histogram is written with. -/
def WireHistogram.layout (histogram : WireHistogram) (positiveBuckets negativeBuckets : Nat) :
    HistogramLayout where
  schema := histogram.schema.toInt
  zeroThreshold := histogram.zeroThreshold
  positiveSpans := histogram.positiveSpans
  negativeSpans := histogram.negativeSpans
  customValues :=
    if histogram.schema.toInt = customBucketsSchema then some histogram.customValues else none
  positiveBuckets := positiveBuckets
  negativeBuckets := negativeBuckets

/-- A layout that the decoders take as it is. -/
structure LayoutFits (maxBuckets : Nat) (histogram : WireHistogram)
    (positiveBuckets negativeBuckets : Nat) : Prop where
  schema : SupportedSchema histogram.schema.toInt
  zeroThreshold : histogram.zeroThreshold ≠ BitVec.intMin 64
  positive : SideFits maxBuckets histogram.positiveSpans positiveBuckets
  negative : SideFits maxBuckets histogram.negativeSpans negativeBuckets
  customValues : histogram.customValues.length ≤ maxBuckets

/-- A layout that the decoder accepts comes back. -/
theorem LayoutFits.decodesTo {maxBuckets positiveBuckets negativeBuckets : Nat}
    {histogram : WireHistogram}
    (h : LayoutFits maxBuckets histogram positiveBuckets negativeBuckets)
    (hmax : maxBuckets < 2 ^ 64) :
    DecodesTo (writeLayout histogram) (readLayout maxBuckets)
      (histogram.layout positiveBuckets negativeBuckets) := by
  have hcu : DecodesTo (writeCustomValues histogram)
      (readCustomValues maxBuckets histogram.schema.toInt)
      (if histogram.schema.toInt = customBucketsSchema then some histogram.customValues
      else none) := by
    rw [writeCustomValues, readCustomValues]
    split
    · exact (decodesTo_customBounds hmax h.customValues).map some
    · exact decodesTo_pure none
  have hw : writeLayout histogram = (((writeCustomValues histogram ∘
      writeSpans histogram.negativeSpans) ∘
      writeSpans histogram.positiveSpans) ∘
      putVarbitInt (histogram.schema.signExtend 64)) ∘
      writeZeroThreshold histogram.zeroThreshold := rfl
  rw [hw]
  refine DecodesTo.bind (decodesTo_zeroThreshold h.zeroThreshold) ?_
  refine DecodesTo.bind (decodesTo_schema h.schema) ?_
  refine DecodesTo.bind (decodesTo_spans hmax h.positive.spans_le) ?_
  refine DecodesTo.bind (decodesTo_spans hmax h.negative.spans_le) ?_
  refine hcu.then_pure ?_
  rw [h.positive.bucketCount_eq hmax, h.negative.bucketCount_eq hmax]
  rfl

/-! ### Counts -/

theorem decodesTo_varbitInts (values : List (BitVec 64)) :
    DecodesTo (writeEach putVarbitInt values)
      (readEach (orTruncated readVarbitInt) values.length) values := by
  have h := decodesTo_each id values fun value _ => (inverse_varbitInt value).decodesTo
  rwa [map_id] at h

theorem decodesTo_varbitCount (value : BitVec 64) :
    DecodesTo (putVarbitUint value.toNat)
      (orTruncated (BitVec.ofNat 64 <$> readVarbitUint)) value := by
  have h := (inverse_varbitUint value.isLt).map (BitVec.ofNat 64)
  rw [BitVec.ofNat_toNat, BitVec.setWidth_eq] at h
  exact h.decodesTo

/-- The first sample of an integer chunk. -/
def WireHistogram.integerState (histogram : WireHistogram) : IntegerState where
  timestamp := histogram.timestamp
  count := asInt histogram.count
  zeroCount := asInt histogram.zeroCount
  sum := histogram.sum
  positive := histogram.positiveDeltas
  positiveDelta := histogram.positiveDeltas.map fun _ => 0
  negative := histogram.negativeDeltas
  negativeDelta := histogram.negativeDeltas.map fun _ => 0

/-- The first sample of an integer chunk comes back. -/
theorem decodesTo_integerFirst (histogram : WireHistogram) :
    DecodesTo (writeIntegerCounts histogram ∘
        putVarbitInt histogram.timestamp)
      ((integerDecoder).readFirst (histogram.layout histogram.positiveDeltas.length
        histogram.negativeDeltas.length)) histogram.integerState := by
  have hw : writeIntegerCounts histogram =
      (((writeEach putVarbitInt histogram.negativeDeltas ∘
        writeEach putVarbitInt histogram.positiveDeltas) ∘
        writeWord histogram.sum) ∘
        putVarbitUint (asInt histogram.zeroCount).toNat) ∘
        putVarbitUint (asInt histogram.count).toNat := rfl
  rw [hw]
  refine DecodesTo.bind (inverse_varbitInt histogram.timestamp).decodesTo ?_
  refine DecodesTo.bind (decodesTo_varbitCount (asInt histogram.count)) ?_
  refine DecodesTo.bind (decodesTo_varbitCount (asInt histogram.zeroCount)) ?_
  refine DecodesTo.bind (decodesTo_word histogram.sum) ?_
  refine DecodesTo.bind (decodesTo_varbitInts histogram.positiveDeltas) ?_
  exact (decodesTo_varbitInts histogram.negativeDeltas).then_pure rfl

/-- The first sample of a float chunk. -/
def WireHistogram.floatState (histogram : WireHistogram) : FloatState where
  timestamp := histogram.timestamp
  count := (asFloat histogram.count, ⟨0, 0⟩)
  zeroCount := (asFloat histogram.zeroCount, ⟨0, 0⟩)
  sum := (histogram.sum, ⟨0, 0⟩)
  positive := histogram.positiveCounts.map (·, ⟨0, 0⟩)
  negative := histogram.negativeCounts.map (·, ⟨0, 0⟩)

theorem decodesTo_full (value : BitVec 64) :
    DecodesTo (writeWord value) readFull (value, ⟨0, 0⟩) :=
  (decodesTo_word value).map _

/-- The first sample of a float chunk comes back. -/
theorem decodesTo_floatFirst (histogram : WireHistogram) :
    DecodesTo (writeFloatCounts histogram ∘
        putVarbitInt histogram.timestamp)
      (floatDecoder.readFirst (histogram.layout histogram.positiveCounts.length
        histogram.negativeCounts.length)) histogram.floatState := by
  have hw : writeFloatCounts histogram =
      (((writeEach writeWord histogram.negativeCounts ∘
        writeEach writeWord histogram.positiveCounts) ∘
        writeWord histogram.sum) ∘
        writeWord (asFloat histogram.zeroCount)) ∘
        writeWord (asFloat histogram.count) := rfl
  rw [hw]
  refine DecodesTo.bind (inverse_varbitInt histogram.timestamp).decodesTo ?_
  refine DecodesTo.bind (decodesTo_full (asFloat histogram.count)) ?_
  refine DecodesTo.bind (decodesTo_full (asFloat histogram.zeroCount)) ?_
  refine DecodesTo.bind (decodesTo_full histogram.sum) ?_
  refine DecodesTo.bind (decodesTo_each _ histogram.positiveCounts fun value _ =>
    decodesTo_full value) ?_
  exact (decodesTo_each _ histogram.negativeCounts fun value _ =>
    decodesTo_full value).then_pure rfl

/-! ### Whole chunks -/

/-- What a histogram stands for, with a hint of its own. -/
def WireHistogram.native (resetHint : ResetHint)
    (histogram : WireHistogram) : Except ChunkError NativeHistogram := do
  let positiveCounts ←
    if histogram.isFloat then .ok histogram.positiveCounts
    else absoluteCounts 0 histogram.positiveDeltas
  let negativeCounts ←
    if histogram.isFloat then .ok histogram.negativeCounts
    else absoluteCounts 0 histogram.negativeDeltas
  .ok
    { schema := histogram.schema.toInt
      isFloat := histogram.isFloat
      resetHint
      zeroThreshold := histogram.zeroThreshold
      zeroCount :=
        if histogram.isFloat then asFloat histogram.zeroCount
        else u64ToF64 (asInt histogram.zeroCount)
      count :=
        if histogram.isFloat then asFloat histogram.count
        else u64ToF64 (asInt histogram.count)
      sum := histogram.sum
      positiveSpans := histogram.positiveSpans
      positiveCounts
      negativeSpans := histogram.negativeSpans
      negativeCounts
      customValues :=
        if histogram.schema.toInt = customBucketsSchema then some histogram.customValues
        else none }

/-- The decoder that the encoding of a chunk calls for. -/
def decodeTypedChunk (maxBuckets : Nat) (typed : TypedChunk) :
    Except ChunkError (List HistogramSample) :=
  match typed.encoding with
  | .floatHistogram => decodeFloatHistogramChunk maxBuckets typed.chunk.data
  | _ => decodeHistogramChunk maxBuckets typed.chunk.data

/-- A histogram that the decoders take as it is: a supported schema, spans that say how many
buckets there are, sizes within the limit, counts that are not negative, bounds only with the
schema that has them, and a zero threshold that is not the negative zero. -/
structure WellFormed (maxBuckets : Nat)
    (histogram : WireHistogram) : Prop where
  layout : LayoutFits maxBuckets histogram
    (if histogram.isFloat then histogram.positiveCounts else histogram.positiveDeltas).length
    (if histogram.isFloat then histogram.negativeCounts else histogram.negativeDeltas).length
  counts : histogram.isFloat = false →
    (∃ counts, absoluteCounts 0 histogram.positiveDeltas = .ok counts) ∧
      ∃ counts, absoluteCounts 0 histogram.negativeDeltas = .ok counts
  customValues : histogram.schema.toInt ≠ customBucketsSchema → histogram.customValues = []

section Chunks

variable {σ : Type} {decoder : HistogramDecoder σ}
  {maxBuckets : Nat} {layout : HistogramLayout} {write : BitStream → BitStream}

variable {header : Nat}

/-- The bytes of a chunk: the count, the byte of the reset hint, and the rest. -/
theorem bytes_writeByte (hheader : header < 256) {bits : List Bool}
    (hw : BitStream.Writes write bits) :
    ∃ high low byte body zeros, (write ((new 1).writeByte header)).bytes =
      high :: low :: byte :: body ∧ high * 256 + low = 1 ∧ bitsOf body = bits ++ zeros := by
  have hh := hw (writes_writeByte hheader (holds_new 1))
  rw [append_assoc] at hh
  obtain ⟨high, low, body, hby, hct, hbo⟩ := hh.header (by decide)
  match body, hbo with
  | [], hbo =>
    have := congrArg List.length hbo
    simp [bitsOf] at this
    omega
  | byte :: body, hbo =>
    rw [append_assoc] at hbo
    obtain ⟨-, hr⟩ := append_inj (show toBits 8 byte ++ bitsOf body = _ from hbo)
      (by simp)
    exact ⟨high, low, byte, body, _, hby, hct, hr⟩

/-- A chunk of one sample is read back from what follows its header. -/
theorem decodeHistogramSamples_ok (hheader : header < 256) {samples : Nat → List HistogramSample}
    (h : ∀ byte, DecodesTo write (do
      let layout ← readLayout maxBuckets
      readSamples decoder layout byte 1) (samples byte)) :
    ∃ byte, decodeHistogramSamples decoder maxBuckets
      (write ((new 1).writeByte header)).bytes = .ok (samples byte) := by
  obtain ⟨bits, hw, -⟩ := h 0
  obtain ⟨high, low, byte, body, -, hby, hct, -⟩ := bytes_writeByte hheader hw
  obtain ⟨bits, hw, hrd⟩ := h byte
  obtain ⟨_, _, _, _, zeros, hby', -, hbo⟩ := bytes_writeByte hheader hw
  rw [hby] at hby'
  cases hby'
  obtain ⟨reader', hres, -⟩ := hrd { data := body } zeros hbo
  refine ⟨byte, ?_⟩
  rw [hby, decodeHistogramSamples, hct, if_neg Nat.one_ne_zero]
  rw [StateT.run', hres]
  rfl

/-- One sample whose first state is read back. -/
theorem decodesTo_readSamples {state : σ} (hf : DecodesTo write (decoder.readFirst layout) state)
    {native : NativeHistogram}
    (hnative : decoder.histogram state layout (counterResetHint header 0) = .ok native) :
    DecodesTo write (readSamples decoder layout header 1)
      [⟨decoder.timestamp state, native⟩] := by
  have hsam : sampleOf decoder layout header 0 state false =
      pure ⟨decoder.timestamp state, native⟩ := by
    funext reader
    rw [sampleOf, if_neg Bool.false_ne_true, hnative]
    rfl
  refine hf.then_pure ?_
  rw [hsam]
  rfl

end Chunks

variable {maxBuckets : Nat} {histogram : WireHistogram}

theorem resetHeader_lt (hint : Nat) : resetHeader hint < 256 := by
  unfold resetHeader
  split <;> omega

theorem histogram_integerState (kind : histogram.isFloat = false) (hint : ResetHint) :
    (integerDecoder).histogram histogram.integerState
        (histogram.layout histogram.positiveDeltas.length histogram.negativeDeltas.length) hint =
      histogram.native hint := by
  simp only [WireHistogram.native, kind, Bool.false_eq_true, if_false]
  rfl

theorem histogram_floatState (kind : histogram.isFloat = true) (hint : ResetHint) :
    floatDecoder.histogram histogram.floatState
        (histogram.layout histogram.positiveCounts.length histogram.negativeCounts.length) hint =
      histogram.native hint := by
  have hcts : ∀ counts : List (BitVec 64),
      (counts.map fun count => (count, (⟨0, 0⟩ : XorState))).map Prod.fst = counts := by
    intro counts
    rw [map_map]
    exact map_id _
  simp only [WireHistogram.native, kind, if_true, floatDecoder, WireHistogram.floatState, hcts]
  rfl

/-- A well-formed histogram stands for one, whatever the hint. -/
theorem WellFormed.native_ok (h : WellFormed maxBuckets histogram) (hint : ResetHint) :
    ∃ native, histogram.native hint = .ok native := by
  cases hkd : histogram.isFloat with
  | false =>
    obtain ⟨⟨positive, hpos⟩, negative, hne⟩ := h.counts hkd
    simp only [WireHistogram.native, hkd, Bool.false_eq_true, if_false, hpos, hne]
    exact ⟨_, rfl⟩
  | true =>
    simp only [WireHistogram.native, hkd, if_true]
    exact ⟨_, rfl⟩

/-- A chunk says when its histogram is, and decodes to what the histogram stands for but for
the reset hint. -/
structure HistogramChunkOf (maxBuckets : Nat)
    (typed : TypedChunk) (histogram : WireHistogram) : Prop where
  decoded : ∃ hint native, histogram.native hint = .ok native ∧
    decodeTypedChunk maxBuckets typed = .ok [⟨histogram.timestamp, native⟩]
  minTimeMs : typed.chunk.minTimeMs = histogram.timestamp
  maxTimeMs : typed.chunk.maxTimeMs = histogram.timestamp

/-- A chunk is decoded where its first sample is, to what the histogram stands for. -/
theorem WellFormed.decoded {σ : Type} {decoder : HistogramDecoder σ} {state : σ}
    {writeCounts : BitStream → BitStream} {positive negative : Nat}
    (h : WellFormed maxBuckets histogram) (hmax : maxBuckets < 2 ^ 64)
    (hla : LayoutFits maxBuckets histogram positive negative)
    (hf : DecodesTo (writeCounts ∘ putVarbitInt histogram.timestamp)
      (decoder.readFirst (histogram.layout positive negative)) state)
    (hhi : ∀ hint, decoder.histogram state (histogram.layout positive negative) hint =
      histogram.native hint) :
    ∃ hint native, histogram.native hint = .ok native ∧
      decodeHistogramSamples decoder maxBuckets (writeCounts
        (((((new 1).writeByte (resetHeader histogram.resetHint)).writeLayout
          histogram)).putVarbitInt histogram.timestamp)).bytes =
        .ok [⟨decoder.timestamp state, native⟩] := by
  choose native hna using fun byte => h.native_ok (counterResetHint byte 0)
  obtain ⟨byte, hby⟩ := decodeHistogramSamples_ok (resetHeader_lt histogram.resetHint)
    fun byte => (hla.decodesTo hmax).bind
      (decodesTo_readSamples hf ((hhi _).trans (hna byte)))
  exact ⟨_, _, hna byte, hby⟩

/-- The chunk of a well-formed histogram holds it. -/
theorem WellFormed.chunk (h : WellFormed maxBuckets histogram)
    (hmax : maxBuckets < 2 ^ 64) :
    HistogramChunkOf maxBuckets (encodeHistogramChunk histogram) histogram := by
  refine ⟨?_, rfl, rfl⟩
  have hla := h.layout
  cases hkd : histogram.isFloat with
  | false =>
    rw [hkd, if_neg Bool.false_ne_true, if_neg Bool.false_ne_true] at hla
    simp only [decodeTypedChunk, encodeHistogramChunk, hkd, Bool.false_eq_true, if_false]
    exact h.decoded hmax hla (decodesTo_integerFirst histogram)
      (histogram_integerState hkd)
  | true =>
    rw [hkd, if_pos rfl, if_pos rfl] at hla
    simp only [decodeTypedChunk, encodeHistogramChunk, hkd, if_true]
    exact h.decoded hmax hla (decodesTo_floatFirst histogram) (histogram_floatState hkd)

end KrabkaO11y.Metrics
