import KrabkaO11y.Blockstore.TraceIndex.TraceShard

/-!
Lookups in a trace-id bloom (`bloom/bloom_shard.rs`, `bloom/sharded_trace_bloom.rs`,
`bloom.rs`).

A lookup divides by decoded numbers and indexes by what comes out, so it is an `Option`
here, `none` where the source would panic. `validateBloom` rules that out.
-/

namespace KrabkaO11y.Blockstore

open Option

abbrev TraceId := Vector UInt8 16

def fnvOffset : UInt32 := 2166136261

def fnvPrime : UInt32 := 16777619

def fnv1_32 (bytes : List UInt8) : UInt32 :=
  bytes.foldl (fun hash byte => hash * fnvPrime ^^^ byte.toUInt32) fnvOffset

def fnv1a_32 (bytes : List UInt8) : UInt32 :=
  bytes.foldl (fun hash byte => (hash ^^^ byte.toUInt32) * fnvPrime) fnvOffset

namespace BloomShard

/-- The mask of a bit in its word. -/
def mask (bit : UInt64) : UInt64 := 1 <<< (bit % 64)

/-- The bits of an id. The first of them divides by `numBits`. -/
def probes (shard : BloomShard) (traceId : TraceId) : Option (List UInt64) :=
  let h1 := (fnv1_32 traceId.toList).toUInt64
  let h2 := (fnv1a_32 traceId.toList).toUInt64 ||| 1
  if shard.numBits = 0 ∧ shard.k ≠ 0 then none
  else some ((List.range shard.k.toNat).map fun i => (h1 + UInt64.ofNat i * h2) % shard.numBits)

/-- `self.bits[(bit / 64) as usize] |= 1_u64 << (bit % 64)`. -/
def setBit (bits : List UInt64) (bit : UInt64) : Option (List UInt64) :=
  (bits[(bit / 64).toNat]?).map fun word => bits.set (bit / 64).toNat (word ||| mask bit)

/-- `self.bits[(bit / 64) as usize] & (1_u64 << (bit % 64)) != 0`. -/
def testBit (bits : List UInt64) (bit : UInt64) : Option Bool :=
  (bits[(bit / 64).toNat]?).map fun word => word &&& mask bit != 0

def insert (shard : BloomShard) (traceId : TraceId) : Option BloomShard := do
  let probes ← shard.probes traceId
  let bits ← probes.foldlM setBit shard.bits
  pure { shard with bits := bits }

def maybeContains (shard : BloomShard) (traceId : TraceId) : Option Bool := do
  let probes ← shard.probes traceId
  probes.allM (testBit shard.bits)

/-- A shard of `numBits` bits with none set. The width and the number of probes are what
the source computes from the expected items; the width is at least 64. -/
def new (numBits : UInt64) (k : UInt32) : BloomShard :=
  ⟨List.replicate ((numBits.toNat + 63) / 64) 0, numBits, k⟩

/-- What `validate` accepts. -/
structure Usable (shard : BloomShard) : Prop where
  numBits : shard.numBits ≠ 0
  bits : (shard.numBits.toNat + 63) / 64 ≤ shard.bits.length

theorem validate_eq_ok {shard : BloomShard} : shard.validate = .ok () ↔ shard.Usable := by
  rw [validate]
  split
  · rename_i hz
    exact ⟨nofun, fun h => absurd hz h.numBits⟩
  · rename_i hne
    split
    · rename_i hsh
      exact ⟨nofun, fun h => absurd h.bits (not_le.mpr hsh)⟩
    · rename_i hlo
      exact ⟨fun _ => ⟨hne, not_lt.mp hlo⟩, fun _ => rfl⟩

theorem usable_new {numBits : UInt64} (h : numBits ≠ 0) (k : UInt32) : (new numBits k).Usable :=
  ⟨h, by simp [new]⟩

/-! ### Bits -/

section Bits

variable {bits bits' : List UInt64} {bit other : UInt64}

theorem mask_ne_zero (bit : UInt64) : mask bit ≠ 0 := by
  have hlt : (bit % 64).toNat < 64 := by
    rw [UInt64.toNat_mod]
    exact Nat.mod_lt _ (by decide)
  intro h
  have hpow := congrArg UInt64.toNat h
  rw [mask, UInt64.toNat_shiftLeft, Nat.mod_eq_of_lt hlt, Nat.shiftLeft_eq] at hpow
  have hsm : 2 ^ (bit % 64).toNat < 2 ^ 64 := Nat.pow_lt_pow_right (by norm_num) hlt
  have hone : (1 : UInt64).toNat = 1 := rfl
  rw [hone, one_mul, Nat.mod_eq_of_lt hsm] at hpow
  exact absurd hpow (Nat.two_pow_pos _).ne'

theorem setBit_eq_some (h : (bit / 64).toNat < bits.length) :
    setBit bits bit = some (bits.set (bit / 64).toNat (bits[(bit / 64).toNat] ||| mask bit)) := by
  rw [setBit, List.getElem?_eq_getElem h]
  rfl

theorem length_of_setBit (h : setBit bits bit = some bits') : bits'.length = bits.length := by
  obtain ⟨word, -, rfl⟩ := map_eq_some_iff.mp h
  exact List.length_set

theorem testBit_of_setBit (h : setBit bits bit = some bits') : testBit bits' bit = some true := by
  obtain ⟨word, hwo, rfl⟩ := map_eq_some_iff.mp h
  obtain ⟨hlt, -⟩ := List.getElem?_eq_some_iff.mp hwo
  have hab : (word ||| mask bit) &&& mask bit = mask bit := by
    refine UInt64.toBitVec_inj.mp (BitVec.eq_of_getLsbD_eq fun i _ => ?_)
    simp only [UInt64.toBitVec_and, UInt64.toBitVec_or, BitVec.getLsbD_and, BitVec.getLsbD_or]
    cases word.toBitVec.getLsbD i <;> simp
  rw [testBit, List.getElem?_set_self hlt, map_some, hab, some.injEq, bne_iff_ne]
  exact mask_ne_zero bit

/-- Setting a bit clears none. -/
theorem testBit_mono (h : setBit bits bit = some bits') (test : testBit bits other = some true) :
    testBit bits' other = some true := by
  obtain ⟨word, hwo, rfl⟩ := map_eq_some_iff.mp h
  obtain ⟨found, hfd, hset⟩ := map_eq_some_iff.mp test
  by_cases heq : (bit / 64).toNat = (other / 64).toNat
  · obtain ⟨hlt, -⟩ := List.getElem?_eq_some_iff.mp hwo
    rw [← heq, hwo, some.injEq] at hfd
    subst hfd
    rw [testBit, ← heq, List.getElem?_set_self hlt, map_some, some.injEq]
    rw [bne_iff_ne] at hset ⊢
    intro hz
    refine hset (UInt64.toBitVec_inj.mp ?_)
    have hz' := congrArg UInt64.toBitVec hz
    simp only [UInt64.toBitVec_and, UInt64.toBitVec_or, UInt64.toBitVec_zero] at hz' ⊢
    refine BitVec.eq_of_getLsbD_eq fun i hi => ?_
    have hi' := congrArg (BitVec.getLsbD · i) hz'
    simp only [BitVec.getLsbD_and, BitVec.getLsbD_or, BitVec.getLsbD_zero] at hi' ⊢
    cases hw : word.toBitVec.getLsbD i <;> simp_all
  · rw [testBit, List.getElem?_set_ne heq, hfd, map_some, hset]

end Bits

/-! ### Probes -/

section Lists

variable {probes : List UInt64} {bits : List UInt64}

theorem allM_testBit (h : ∀ bit ∈ probes, (bit / 64).toNat < bits.length) :
    ∃ answer, probes.allM (testBit bits) = some answer ∧
      (answer = true ↔ ∀ bit ∈ probes, testBit bits bit = some true) := by
  induction probes with
  | nil => exact ⟨true, rfl, by simp⟩
  | cons bit probes ih =>
    obtain ⟨answer, han, hiff⟩ := ih fun other ho => h other (List.mem_cons_of_mem _ ho)
    obtain ⟨first, hf⟩ : ∃ first, testBit bits bit = some first := by
      rw [testBit, List.getElem?_eq_getElem (h bit List.mem_cons_self)]
      exact ⟨_, rfl⟩
    rw [List.allM, hf]
    cases first with
    | false => exact ⟨false, rfl, by simp [hf]⟩
    | true => exact ⟨answer, han, by simp [hf, hiff]⟩

/-- Setting bits one after another keeps the number of words, sets all of them and clears
none. -/
theorem foldlM_setBit : ∀ (probes : List UInt64) (bits : List UInt64),
    (∀ bit ∈ probes, (bit / 64).toNat < bits.length) →
    ∃ bits', probes.foldlM setBit bits = some bits' ∧ bits'.length = bits.length ∧
      (∀ bit ∈ probes, testBit bits' bit = some true) ∧
      ∀ bit, testBit bits bit = some true → testBit bits' bit = some true := by
  intro probes
  induction probes with
  | nil => exact fun bits _ => ⟨bits, rfl, rfl, by simp, fun _ h => h⟩
  | cons bit probes ih =>
    intro bits hall
    have hset := setBit_eq_some (hall bit List.mem_cons_self)
    have hle := length_of_setBit hset
    obtain ⟨bits', hfo, hlen, hpr, hmo⟩ := ih _ fun other ho => by
      rw [hle]
      exact hall other (List.mem_cons_of_mem _ ho)
    refine ⟨bits', ?_, hlen.trans hle, fun other ho => ?_,
      fun other hte => hmo other (testBit_mono hset hte)⟩
    · rw [List.foldlM_cons, hset]
      exact hfo
    · rcases List.mem_cons.mp ho with rfl | ho
      · exact hmo _ (testBit_of_setBit hset)
      · exact hpr other ho

end Lists

section Probes

variable {shard : BloomShard}

/-- The probes of a usable shard are bits of its words. -/
theorem probes_spec (h : shard.Usable) (traceId : TraceId) : ∃ probes,
    shard.probes traceId = some probes ∧ ∀ bit ∈ probes, (bit / 64).toNat < shard.bits.length := by
  have hpos : 0 < shard.numBits.toNat :=
    Nat.pos_of_ne_zero fun hz => h.numBits (UInt64.toNat_inj.mp hz)
  refine ⟨_, if_neg fun hz => h.numBits hz.1, fun bit hbit => ?_⟩
  obtain ⟨i, -, rfl⟩ := List.mem_map.mp hbit
  have hlt := Nat.mod_lt (((fnv1_32 traceId.toList).toUInt64 + UInt64.ofNat i *
    ((fnv1a_32 traceId.toList).toUInt64 ||| 1)).toNat) hpos
  have hbi := h.bits
  have h64 : (64 : UInt64).toNat = 64 := rfl
  rw [UInt64.toNat_div, UInt64.toNat_mod, h64]
  omega

/-- A lookup in a usable shard answers. -/
theorem exists_maybeContains (h : shard.Usable) (traceId : TraceId) :
    ∃ answer, shard.maybeContains traceId = some answer := by
  obtain ⟨probes, hpr, hall⟩ := probes_spec h traceId
  obtain ⟨answer, han, -⟩ := allM_testBit hall
  exact ⟨answer, by rw [maybeContains, hpr]; exact han⟩

theorem maybeContains_eq_true {probes : List UInt64} {traceId : TraceId}
    (hprobes : shard.probes traceId = some probes)
    (hall : ∀ bit ∈ probes, (bit / 64).toNat < shard.bits.length) :
    shard.maybeContains traceId = some true ↔
      ∀ bit ∈ probes, testBit shard.bits bit = some true := by
  obtain ⟨answer, han, hiff⟩ := allM_testBit hall
  have hlk : shard.maybeContains traceId = some answer := by
    rw [maybeContains, hprobes]
    exact han
  rw [hlk, some.injEq, hiff]

/-- An insert into a usable shard keeps it usable, is found, and hides no other id. -/
theorem insert_spec (h : shard.Usable) (traceId : TraceId) :
    ∃ shard', shard.insert traceId = some shard' ∧ shard'.Usable ∧
      shard'.maybeContains traceId = some true ∧
      ∀ other, shard.maybeContains other = some true → shard'.maybeContains other = some true := by
  obtain ⟨probes, hpr, hall⟩ := probes_spec h traceId
  obtain ⟨bits', hfo, hlen, hset, hmo⟩ := foldlM_setBit probes shard.bits hall
  have hus : ({ shard with bits := bits' } : BloomShard).Usable := ⟨h.numBits, hlen ▸ h.bits⟩
  -- the probes of an id do not read the words
  have hsm : ∀ other : TraceId,
      ({ shard with bits := bits' } : BloomShard).probes other = shard.probes other := fun _ => rfl
  refine ⟨{ shard with bits := bits' }, ?_, hus, ?_, fun other ho => ?_⟩
  · rw [insert, hpr]
    change (List.foldlM setBit shard.bits probes).bind _ = _
    rw [hfo]
    rfl
  · exact (maybeContains_eq_true ((hsm traceId).trans hpr)
      fun bit hbit => hlen ▸ hall bit hbit).mpr hset
  · obtain ⟨theirs, hth, hin⟩ := probes_spec h other
    rw [maybeContains_eq_true hth hin] at ho
    exact (maybeContains_eq_true ((hsm other).trans hth)
      fun bit hbit => hlen ▸ hin bit hbit).mpr fun bit hbit => hmo bit (ho bit hbit)

end Probes

end BloomShard

/-! ### Blooms -/

/-- The shard of an id. An empty list of shards divides by zero. -/
def shardOf (shards : List BloomShard) (traceId : TraceId) : Option ℕ :=
  if shards.length = 0 then none else some ((fnv1_32 traceId.toList).toNat % shards.length)

def insertTraceId (shards : List BloomShard) (traceId : TraceId) : Option (List BloomShard) := do
  let index ← shardOf shards traceId
  let shard ← shards[index]?
  let shard ← shard.insert traceId
  pure (shards.set index shard)

def maybeContainsTraceId (shards : List BloomShard) (traceId : TraceId) : Option Bool := do
  let index ← shardOf shards traceId
  let shard ← shards[index]?
  shard.maybeContains traceId

variable {shards : List BloomShard}

theorem forM_validate_eq_ok :
    shards.forM BloomShard.validate = .ok () ↔ ∀ shard ∈ shards, shard.Usable := by
  induction shards with
  | nil => exact ⟨fun _ => nofun, fun _ => rfl⟩
  | cons shard shards ih =>
    rw [List.forall_mem_cons, ← ih, ← BloomShard.validate_eq_ok]
    change (shard.validate >>= fun _ => shards.forM BloomShard.validate) = .ok () ↔ _
    cases shard.validate with
    | error message => exact ⟨nofun, fun h => by cases h.1⟩
    | ok _ => exact ⟨fun h => ⟨rfl, h⟩, fun h => h.2⟩

theorem validateBloom_eq_ok :
    validateBloom shards = .ok () ↔ shards ≠ [] ∧ ∀ shard ∈ shards, shard.Usable := by
  rw [← forM_validate_eq_ok]
  cases shards with
  | nil => exact ⟨nofun, fun h => absurd rfl h.1⟩
  | cons shard shards => exact ⟨fun h => ⟨by simp, h⟩, fun h => h.2⟩

namespace ShardedTraceBloom

/-- A bloom of `shardCount` empty shards, one at least. -/
def new (shardCount : ℕ) (numBits : UInt64) (k : UInt32) (h : numBits ≠ 0) : ShardedTraceBloom where
  shards := List.replicate (max shardCount 1) (.new numBits k)
  valid := validateBloom_eq_ok.mpr ⟨by simp, fun shard hshard => by
    rw [List.eq_of_mem_replicate hshard]
    exact BloomShard.usable_new h k⟩

variable {shards : List BloomShard}

/-- A validated bloom has a usable shard for every id. -/
theorem shardOf_spec (h : validateBloom shards = .ok ()) (traceId : TraceId) :
    ∃ index shard, shardOf shards traceId = some index ∧
      shards[index]? = some shard ∧ shard.Usable := by
  obtain ⟨hne, hall⟩ := validateBloom_eq_ok.mp h
  have hpos : 0 < shards.length := List.length_pos_iff.mpr hne
  have hlt := Nat.mod_lt (fnv1_32 traceId.toList).toNat hpos
  exact ⟨_, _, if_neg hpos.ne', List.getElem?_eq_getElem hlt, hall _ (List.getElem_mem hlt)⟩

theorem exists_maybeContains (h : validateBloom shards = .ok ()) (traceId : TraceId) :
    ∃ answer, maybeContainsTraceId shards traceId = some answer := by
  obtain ⟨index, shard, hi, hsd, hus⟩ := shardOf_spec h traceId
  obtain ⟨answer, han⟩ := BloomShard.exists_maybeContains hus traceId
  refine ⟨answer, ?_⟩
  rw [maybeContainsTraceId, hi]
  change (shards[index]?).bind _ = _
  rw [hsd]
  exact han

theorem maybeContains_eq {traceId : TraceId} {index : ℕ} {shard : BloomShard}
    (hi : shardOf shards traceId = some index) (hshard : shards[index]? = some shard) :
    maybeContainsTraceId shards traceId = shard.maybeContains traceId := by
  rw [maybeContainsTraceId, hi]
  change (shards[index]?).bind _ = _
  rw [hshard]
  rfl

/-- An insert into a validated bloom leaves it validated, is found, and hides no other id. -/
theorem insert_spec (h : validateBloom shards = .ok ()) (traceId : TraceId) :
    ∃ shards', insertTraceId shards traceId = some shards' ∧
      validateBloom shards' = .ok () ∧ maybeContainsTraceId shards' traceId = some true ∧
      ∀ other, maybeContainsTraceId shards other = some true →
        maybeContainsTraceId shards' other = some true := by
  obtain ⟨index, shard, hi, hsd, hus⟩ := shardOf_spec h traceId
  obtain ⟨shard', hin, hus', hfd, hmo⟩ := BloomShard.insert_spec hus traceId
  obtain ⟨hlt, -⟩ := List.getElem?_eq_some_iff.mp hsd
  obtain ⟨hne, hall⟩ := validateBloom_eq_ok.mp h
  have hsh : ∀ other, shardOf (shards.set index shard') other = shardOf shards other := by
    intro other
    rw [shardOf, shardOf, List.length_set]
  have hse : (shards.set index shard')[index]? = some shard' := List.getElem?_set_self hlt
  refine ⟨shards.set index shard', ?_, ?_, ?_, fun other ho => ?_⟩
  · rw [insertTraceId, hi]
    change (shards[index]?).bind _ = _
    rw [hsd]
    change (shard.insert traceId).bind _ = _
    rw [hin]
    rfl
  · refine validateBloom_eq_ok.mpr ⟨by simpa using hne, fun member hm => ?_⟩
    rcases List.mem_or_eq_of_mem_set hm with hm | rfl
    · exact hall member hm
    · exact hus'
  · rw [maybeContains_eq ((hsh traceId).trans hi) hse]
    exact hfd
  · obtain ⟨theirs, held, hth, hh, -⟩ := shardOf_spec h other
    rw [maybeContains_eq hth hh] at ho
    by_cases heq : theirs = index
    · subst heq
      obtain rfl : shard = held := some.inj (hsd.symm.trans hh)
      rw [maybeContains_eq ((hsh other).trans hth) hse]
      exact hmo other ho
    · rw [maybeContains_eq ((hsh other).trans hth)
        ((List.getElem?_set_ne (Ne.symm heq)).trans hh)]
      exact ho

/-- Every inserted id is found after all inserts. -/
theorem insertAll_spec : ∀ (traceIds : List TraceId) (shards : List BloomShard),
    validateBloom shards = .ok () → ∃ shards', traceIds.foldlM insertTraceId shards = some shards' ∧
      validateBloom shards' = .ok () ∧
      (∀ traceId ∈ traceIds, maybeContainsTraceId shards' traceId = some true) ∧
      ∀ other, maybeContainsTraceId shards other = some true →
        maybeContainsTraceId shards' other = some true := by
  intro traceIds
  induction traceIds with
  | nil => exact fun shards h => ⟨shards, rfl, h, by simp, fun _ h => h⟩
  | cons traceId traceIds ih =>
    intro shards h
    obtain ⟨next, hn, hv, hfd, hmo⟩ := insert_spec h traceId
    obtain ⟨last, hl, hv', hall, hmo'⟩ := ih next hv
    refine ⟨last, ?_, hv', fun other ho => ?_, fun other ho =>
      hmo' other (hmo other ho)⟩
    · rw [List.foldlM_cons, hn]
      exact hl
    · rcases List.mem_cons.mp ho with rfl | ho
      · exact hmo' other hfd
      · exact hall other ho

end ShardedTraceBloom

/-- Encoded records come back, decoded blooms answer every lookup, and a bloom that is
decoded or constructed finds every id inserted into it. -/
theorem trace_shard_round_trip_and_lookups :
    (∀ (tenant objectKey : String) (blocks : List TraceBlockStats),
      (encodeTraceShard tenant blocks).length < 2 ^ 64 →
      decodeTraceShard objectKey (encodeTraceShard tenant blocks) = .ok blocks) ∧
    (∀ (objectKey : String) (bytes : List UInt8),
      (∃ error, decodeTraceShard objectKey bytes = .error error) ∨
      ∃ blocks, decodeTraceShard objectKey bytes = .ok blocks ∧
        ∀ block ∈ blocks, ∀ traceId,
          ∃ answer, maybeContainsTraceId block.bloom.shards traceId = some answer) ∧
    ∀ (bloom : ShardedTraceBloom) (traceIds : List TraceId), ∃ shards,
      traceIds.foldlM insertTraceId bloom.shards = some shards ∧
        ∀ traceId ∈ traceIds, maybeContainsTraceId shards traceId = some true := by
  refine ⟨fun tenant objectKey blocks h => decodeTraceShard_encodeTraceShard objectKey h,
    fun objectKey bytes => ?_, fun bloom traceIds => ?_⟩
  · cases hdecode : decodeTraceShard objectKey bytes with
    | error error => exact .inl ⟨error, rfl⟩
    | ok blocks => exact .inr ⟨blocks, rfl, fun block _ traceId =>
      ShardedTraceBloom.exists_maybeContains block.bloom.valid traceId⟩
  · obtain ⟨shards, hshards, -, hall, -⟩ :=
      ShardedTraceBloom.insertAll_spec traceIds bloom.shards bloom.valid
    exact ⟨shards, hshards, hall⟩

/-- A block with a tag that has no name entry and an empty set of values. -/
def taggedBlock : TraceBlockStats where
  objectKey := "b"
  minTs := Int64.maxValue
  maxTs := Int64.minValue
  bloom := .new 1 64 3 (by decide)
  tagNames := ∅
  tagValues := Std.ExtTreeMap.ofList [("tag", ∅)]
  rowCount := 1
  level := ⟨0⟩

theorem trace_shard_round_trip_taggedBlock :
    (encodeTraceShard "t" [taggedBlock]).length < 2 ^ 64 ∧
      decodeTraceShard "k" (encodeTraceShard "t" [taggedBlock]) = .ok [taggedBlock] := by
  have h : (encodeTraceShard "t" [taggedBlock]).length < 2 ^ 64 := by decide +kernel
  exact ⟨h, trace_shard_round_trip_and_lookups.1 "t" "k" [taggedBlock] h⟩

end KrabkaO11y.Blockstore
