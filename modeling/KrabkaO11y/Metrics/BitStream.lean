import KrabkaO11y.Wire.Bits

/-!
The bit stream that chunks are written to (`crates/metrics/src/wire/remote_read.rs`) and the
reader that takes them apart (`crates/metrics/src/tsdb_import/bit_reader.rs`).

`Writes` says which bits an operation appends to a stream and `Reads` which bits an operation
of the reader takes and what it makes of them. Both compose, so an encoder and a decoder are
inverse where they name the same bits.
-/

namespace KrabkaO11y.Metrics

open Wire List

/-! ### Writing -/

/-- The bytes of a chunk, and how many bits of the last one are free. -/
structure BitStream where
  bytes : List Nat
  available : Nat
deriving DecidableEq, Repr

namespace BitStream

def new (sampleCount : Nat) : BitStream := ⟨[sampleCount / 256 % 256, sampleCount % 256], 0⟩

def writeBit (value : Bool) (stream : BitStream) : BitStream :=
  let stream := if stream.available = 0 then ⟨stream.bytes ++ [0], 8⟩ else stream
  { bytes :=
      if value then stream.bytes.modifyLast (· ||| 1 <<< (stream.available - 1))
      else stream.bytes
    available := stream.available - 1 }

def writeByte (value : Nat) (stream : BitStream) : BitStream :=
  if stream.available = 0 then { stream with bytes := stream.bytes ++ [value] }
  else
    { stream with
      bytes := stream.bytes.modifyLast (· ||| value >>> (8 - stream.available)) ++
        [(value <<< stream.available) % 256] }

/-- The loop that writes whole bytes off the top of a word. -/
def writeTopBytes : Nat → Nat → BitStream → BitStream × Nat
  | 0, shifted, stream => (stream, shifted)
  | count + 1, shifted, stream =>
    writeTopBytes count ((shifted <<< 8) % 2 ^ 64) (stream.writeByte (shifted >>> 56))

/-- The loop that writes single bits off the top of a word. -/
def writeTopBits : Nat → Nat → BitStream → BitStream
  | 0, _, stream => stream
  | count + 1, shifted, stream =>
    writeTopBits count ((shifted <<< 1) % 2 ^ 64) (stream.writeBit (shifted.testBit 63))

/-- The low `width` bits of a word. -/
def writeBits (value width : Nat) (stream : BitStream) : BitStream :=
  let shifted := if width = 64 then value else (value <<< (64 - width)) % 2 ^ 64
  let written := writeTopBytes (width / 8) shifted stream
  writeTopBits (width % 8) written.2 written.1

/-- The loop of `write_uvarint`; ten rounds are enough for a word. -/
def writeUvarintLoop : Nat → Nat → BitStream → BitStream
  | 0, _, stream => stream
  | fuel + 1, value, stream =>
    if 128 ≤ value then writeUvarintLoop fuel (value / 128) (stream.writeByte (value % 128 + 128))
    else stream.writeByte value

def writeUvarint (value : Nat) (stream : BitStream) : BitStream := writeUvarintLoop 10 value stream

def zigzag (value : BitVec 64) : BitVec 64 :=
  if value.toInt < 0 then ~~~(value <<< 1) else value <<< 1

def writeVarint (value : BitVec 64) (stream : BitStream) : BitStream :=
  stream.writeUvarint (zigzag value).toNat

/-- A stream holds some bits, and zeros to the end of its last byte. -/
structure Holds (stream : BitStream) (bits : List Bool) : Prop where
  bits_eq : bitsOf stream.bytes = bits ++ List.replicate stream.available false
  available_lt : stream.available < 8
  bytes_lt : ∀ byte ∈ stream.bytes, byte < 256

/-- An operation appends some bits. -/
def Writes (write : BitStream → BitStream) (bits : List Bool) : Prop :=
  ∀ {stream : BitStream} {held : List Bool}, stream.Holds held → (write stream).Holds (held ++ bits)

theorem Writes.comp {write next : BitStream → BitStream} {bits bits' : List Bool}
    (h : Writes write bits) (h' : Writes next bits') : Writes (next ∘ write) (bits ++ bits') := by
  intro stream held hh
  rw [Function.comp, ← append_assoc]
  exact h' (h hh)

theorem Writes.id : Writes id [] := fun hh => by rwa [append_nil]

theorem bytes_lt_push {bytes : List Nat} (hbytes : ∀ byte ∈ bytes, byte < 256) {value : Nat}
    (hval : value < 256) : ∀ byte ∈ bytes ++ [value], byte < 256 := by
  intro byte hmem
  rcases mem_append.mp hmem with hold | hnew
  · exact hbytes byte hold
  · rwa [mem_singleton.mp hnew]

theorem holds_new (sampleCount : Nat) : (new sampleCount).Holds (toBits 16 sampleCount) := by
  have hby : ∀ byte ∈ (new sampleCount).bytes, byte < 256 :=
    bytes_lt_push (bytes_lt_push (forall_mem_nil _) (Nat.mod_lt _ (by omega)))
      (Nat.mod_lt _ (by omega))
  refine ⟨?_, Nat.zero_lt_succ _, hby⟩
  change toBits 8 (sampleCount / 256 % 256) ++ (toBits 8 (sampleCount % 256) ++ []) =
    toBits (8 + 8) sampleCount ++ []
  rw [append_nil, append_nil, toBits_byte, toBits_byte, toBits_add,
    Nat.shiftRight_eq_div_pow]

section Room

variable {bytes : List Nat} {held : List Bool} {room : Nat}

/-- The last of some bytes that end in zeros, taken apart at the zeros. -/
theorem last_of_room (bits : bitsOf bytes = held ++ List.replicate room false) (hle : room ≤ 8)
    (hroom : 0 < room) :
    ∃ front last, bytes = front ++ [last] ∧
      held = bitsOf front ++ toBits (8 - room) (last >>> room) ∧
      toBits room last = List.replicate room false := by
  rcases eq_nil_or_concat bytes with rfl | ⟨front, last, rfl⟩
  · have := congrArg List.length bits
    rw [length_append, length_replicate] at this
    change 0 = _ at this
    omega
  · refine ⟨front, last, concat_eq_append, ?_⟩
    have hsp : toBits 8 last = toBits (8 - room) (last >>> room) ++ toBits room last := by
      rw [← toBits_add, Nat.sub_add_cancel hle]
    rw [concat_eq_append, bitsOf_append, bitsOf_singleton, hsp,
      ← append_assoc] at bits
    obtain ⟨hh, hlow⟩ := append_inj' bits (by simp)
    exact ⟨hh.symm, hlow⟩

/-- Filling the room at the end of some bytes. -/
theorem bitsOf_fill (bits : bitsOf bytes = held ++ List.replicate room false) (hle : room ≤ 8)
    (hroom : 0 < room) {low : Nat} (hlow : low < 2 ^ room) :
    bitsOf (bytes.modifyLast (· ||| low)) = held ++ toBits room low := by
  obtain ⟨front, last, hby, hh, hz⟩ := last_of_room bits hle hroom
  have hsp : toBits 8 (last ||| low) =
      toBits (8 - room) ((last ||| low) >>> room) ++ toBits room (last ||| low) := by
    rw [← toBits_add, Nat.sub_add_cancel hle]
  rw [hby, modifyLast_concat, bitsOf_append, bitsOf_singleton, hsp,
    or_shiftRight_of_lt hlow, toBits_or_of_zero hz, hh, append_assoc]

/-- Filling leaves bytes. -/
theorem lt_fill (hbytes : ∀ byte ∈ bytes, byte < 256) (hle : room ≤ 8) {low : Nat}
    (hlow : low < 2 ^ room) : ∀ byte ∈ bytes.modifyLast (· ||| low), byte < 256 := by
  have hlow : low < 2 ^ 8 := lt_of_lt_of_le hlow (Nat.pow_le_pow_right (by omega) hle)
  rcases eq_nil_or_concat bytes with rfl | ⟨front, last, rfl⟩
  · exact nofun
  · rw [concat_eq_append] at hbytes ⊢
    rw [modifyLast_concat]
    intro byte hbyt
    rcases mem_append.mp hbyt with hft | hl
    · exact hbytes byte (mem_append_left _ hft)
    · rw [mem_singleton.mp hl]
      exact Nat.or_lt_two_pow (hbytes last (by simp)) hlow

/-- Setting or leaving the first bit of the room. -/
theorem bitsOf_setBit (bits : bitsOf bytes = held ++ List.replicate room false) (hle : room ≤ 8)
    (hroom : 0 < room) (hbytes : ∀ byte ∈ bytes, byte < 256) (value : Bool) :
    bitsOf (if value then bytes.modifyLast (· ||| 1 <<< (room - 1)) else bytes) =
        held ++ [value] ++ List.replicate (room - 1) false ∧
      ∀ byte ∈ (if value then bytes.modifyLast (· ||| 1 <<< (room - 1)) else bytes),
        byte < 256 := by
  cases value with
  | false =>
    rw [if_neg Bool.false_ne_true, bits, append_assoc, singleton_append,
      ← replicate_succ, Nat.sub_add_cancel hroom]
    exact ⟨rfl, hbytes⟩
  | true =>
    have hone : toBits room (1 <<< (room - 1)) = [true] ++ List.replicate (room - 1) false := by
      have := toBits_shiftLeft 1 (room - 1) 1
      rwa [Nat.add_sub_cancel' hroom] at this
    have hlt : 1 <<< (room - 1) < 2 ^ room := by
      rw [Nat.one_shiftLeft]
      exact Nat.pow_lt_pow_right (by omega) (by omega)
    rw [if_pos rfl, bitsOf_fill bits hle hroom hlt, hone, append_assoc]
    exact ⟨rfl, lt_fill hbytes hle hlt⟩

end Room

theorem writes_writeBit (value : Bool) : Writes (writeBit value) [value] := by
  intro stream held h
  obtain ⟨hbi, hlt, hby⟩ := h
  by_cases hfu : stream.available = 0
  · -- a new byte, all of it free
    rw [hfu, replicate_zero, append_nil] at hbi
    have hnew : bitsOf (stream.bytes ++ [0]) = held ++ List.replicate 8 false := by
      rw [bitsOf_append, bitsOf_singleton, toBits_zero, hbi]
    simp only [writeBit, if_pos hfu]
    obtain ⟨hset, hlt⟩ := bitsOf_setBit hnew le_rfl (by omega)
      (bytes_lt_push hby (by omega)) value
    exact ⟨hset, Nat.lt_succ_self 7, hlt⟩
  · simp only [writeBit, if_neg hfu]
    obtain ⟨hset, hset'⟩ := bitsOf_setBit hbi hlt.le (Nat.pos_of_ne_zero hfu) hby value
    exact ⟨hset, lt_of_le_of_lt (Nat.sub_le ..) hlt, hset'⟩

theorem writes_writeByte {value : Nat} (hval : value < 256) :
    Writes (writeByte value) (toBits 8 value) := by
  intro stream held h
  rw [writeByte]
  split
  · rename_i hfu
    refine ⟨?_, h.available_lt, bytes_lt_push h.bytes_lt hval⟩
    have hbi := h.bits_eq
    rw [hfu, replicate_zero, append_nil] at hbi
    change bitsOf (stream.bytes ++ [value]) = _ ++ List.replicate stream.available false
    rw [bitsOf_append, bitsOf_singleton, hbi, hfu, replicate_zero, append_nil]
  · rename_i hro
    have hro := Nat.pos_of_ne_zero hro
    have hlt := h.available_lt
    have hhi : value >>> (8 - stream.available) < 2 ^ stream.available := by
      rw [Nat.shiftRight_eq_div_pow, Nat.div_lt_iff_lt_mul (by positivity), ← pow_add,
        Nat.add_sub_cancel' hlt.le]
      exact hval
    have hlow : toBits 8 ((value <<< stream.available) % 256) =
        toBits (8 - stream.available) value ++ List.replicate stream.available false := by
      rw [toBits_byte, ← toBits_shiftLeft, Nat.sub_add_cancel hlt.le]
    have hva : toBits 8 value =
        toBits stream.available (value >>> (8 - stream.available)) ++
          toBits (8 - stream.available) value := by
      rw [← toBits_add, Nat.add_sub_cancel' hlt.le]
    refine ⟨?_, hlt, bytes_lt_push (lt_fill h.bytes_lt hlt.le hhi) (Nat.mod_lt _ (by omega))⟩
    change bitsOf (_ ++ [_]) = _ ++ List.replicate stream.available false
    rw [bitsOf_append, bitsOf_singleton, bitsOf_fill h.bits_eq hlt.le hro hhi, hlow, hva]
    simp only [append_assoc]

/-- The top byte of a word, and what is left of it. -/
theorem toBits_word (shifted count : Nat) (hcount : count ≤ 64) :
    toBits 64 shifted = toBits count (shifted >>> (64 - count)) ++ toBits (64 - count) shifted ∧
      toBits 64 ((shifted <<< count) % 2 ^ 64) =
        toBits (64 - count) shifted ++ List.replicate count false := by
  constructor
  · rw [← toBits_add, Nat.add_sub_cancel' hcount]
  · rw [toBits_mod, ← toBits_shiftLeft, Nat.sub_add_cancel hcount]

theorem holds_writeTopBytes (count : Nat) :
    ∀ {shifted : Nat} {stream : BitStream} {held front tail : List Bool}, shifted < 2 ^ 64 →
      toBits 64 shifted = front ++ tail → front.length = 8 * count → stream.Holds held →
      (writeTopBytes count shifted stream).1.Holds (held ++ front) ∧
        ∃ zeros, toBits 64 (writeTopBytes count shifted stream).2 = tail ++ zeros := by
  induction count with
  | zero =>
    intro shifted stream held front tail _ hbi hlen h
    obtain rfl : front = [] := length_eq_zero_iff.mp hlen
    exact ⟨by rwa [append_nil], [], by rw [append_nil]; exact hbi⟩
  | succ count ih =>
    intro shifted stream held front tail hlt hbi hlen h
    obtain ⟨hwo, hr⟩ := toBits_word shifted 8 (by omega)
    obtain ⟨byte, later, rfl, hbyte⟩ : ∃ byte later, front = byte ++ later ∧ byte.length = 8 :=
      ⟨front.take 8, front.drop 8, (take_append_drop 8 front).symm, by simp; omega⟩
    rw [hwo, append_assoc] at hbi
    obtain ⟨hby, hta⟩ := append_inj hbi (by simp [hbyte])
    rw [hta, append_assoc] at hr
    have hbyt : shifted >>> (64 - 8) < 256 := by
      rw [Nat.shiftRight_eq_div_pow]
      omega
    have hh := writes_writeByte hbyt h
    rw [hby] at hh
    obtain ⟨hwr, zeros, hze⟩ := ih (Nat.mod_lt _ (by positivity)) hr
      (by simp only [length_append] at hlen; omega) hh
    rw [append_assoc] at hwr
    exact ⟨hwr, _, hze.trans (append_assoc ..)⟩

theorem holds_writeTopBits (count : Nat) :
    ∀ {shifted : Nat} {stream : BitStream} {held front tail : List Bool},
      toBits 64 shifted = front ++ tail → front.length = count → stream.Holds held →
      (writeTopBits count shifted stream).Holds (held ++ front) := by
  induction count with
  | zero =>
    intro shifted stream held front tail _ hlen h
    obtain rfl : front = [] := length_eq_zero_iff.mp hlen
    rwa [append_nil]
  | succ count ih =>
    intro shifted stream held front tail hbi hlen h
    obtain ⟨-, hr⟩ := toBits_word shifted 1 (by omega)
    cases front with
    | nil => cases hlen
    | cons bit later =>
      obtain ⟨hbit, hta⟩ : shifted.testBit 63 = bit ∧ toBits 63 shifted = later ++ tail :=
        List.cons.inj hbi
      rw [hta, append_assoc] at hr
      have hh := ih hr (Nat.succ.inj hlen) (writes_writeBit bit h)
      rw [append_assoc] at hh
      rw [writeTopBits, hbit]
      exact hh

theorem writes_writeBits {value width : Nat} (hw : width ≤ 64) (hval : value < 2 ^ 64) :
    Writes (writeBits value width) (toBits width value) := by
  intro stream held h
  have hsh : ∃ shifted, (if width = 64 then value else (value <<< (64 - width)) % 2 ^ 64) =
      shifted ∧ shifted < 2 ^ 64 ∧
        toBits 64 shifted = toBits width value ++ List.replicate (64 - width) false := by
    refine ⟨_, rfl, ?_, ?_⟩
    · split
      · exact hval
      · exact Nat.mod_lt _ (by positivity)
    · split
      · rename_i hfu
        rw [hfu, Nat.sub_self, replicate_zero, append_nil]
      · rw [toBits_mod, ← toBits_shiftLeft, Nat.add_sub_cancel' hw]
  obtain ⟨shifted, hdef, hlt, hbi⟩ := hsh
  -- the whole bytes first, then the bits that are left
  have hsp : toBits width value = (toBits width value).take (8 * (width / 8)) ++
      (toBits width value).drop (8 * (width / 8)) := (take_append_drop ..).symm
  rw [hsp, append_assoc] at hbi
  obtain ⟨hby, zeros, hr⟩ := holds_writeTopBytes (width / 8) hlt hbi
    (by simp; omega) h
  rw [append_assoc] at hr
  have hall := holds_writeTopBits (width % 8) hr (by simp; omega) hby
  rw [append_assoc, ← hsp] at hall
  simp only [writeBits, hdef]
  exact hall

/-- The bytes of a stream that begins with a count: the count, and the rest. -/
theorem Holds.header {stream : BitStream} {count : Nat} {bits : List Bool}
    (h : stream.Holds (toBits 16 count ++ bits)) (hcount : count < 2 ^ 16) :
    ∃ high low body, stream.bytes = high :: low :: body ∧ high * 256 + low = count ∧
      bitsOf body = bits ++ List.replicate stream.available false := by
  obtain ⟨hbi, -, hlt⟩ := h
  have hlen := congrArg List.length hbi
  simp only [length_bitsOf, length_append, length_toBits] at hlen
  match hby : stream.bytes, hlen, hlt, hbi with
  | [], hlen, _, _ => simp at hlen; omega
  | [_], hlen, _, _ => simp at hlen; omega
  | high :: low :: body, _, hlt, hbi =>
    have hhi : high < 256 := hlt high (by simp)
    have hlow : low < 256 := hlt low (by simp)
    have hhd : toBits 16 (high * 256 + low) = toBits 8 high ++ toBits 8 low := by
      rw [toBits_add 8 8, Nat.shiftRight_eq_div_pow, ← toBits_byte (high * 256 + low)]
      congr 2
      · omega
      · omega
    have hsp : toBits 16 (high * 256 + low) ++ bitsOf body =
        toBits 16 count ++ (bits ++ List.replicate stream.available false) := by
      rw [hhd, ← append_assoc, ← hbi, append_assoc]
      rfl
    obtain ⟨hcnt, hbo⟩ := append_inj hsp (by simp)
    refine ⟨high, low, body, rfl, ?_, hbo⟩
    have := congrArg ofBits hcnt
    rwa [ofBits_toBits_of_lt (by omega), ofBits_toBits_of_lt hcount] at this

/-! ### Variable-length integers -/

/-- The bits of a base-128 number, seven at a time, the low ones first. -/
def uvarintBits : Nat → Nat → List Bool
  | 0, _ => []
  | fuel + 1, value =>
    if 128 ≤ value then toBits 8 (value % 128 + 128) ++ uvarintBits fuel (value / 128)
    else toBits 8 value

theorem writes_writeUvarintLoop (fuel : Nat) :
    ∀ value, Writes (writeUvarintLoop fuel value) (uvarintBits fuel value) := by
  induction fuel with
  | zero => exact fun _ => Writes.id
  | succ fuel ih =>
    intro value stream held h
    rw [writeUvarintLoop, uvarintBits]
    split
    · rw [← append_assoc]
      exact ih _ (writes_writeByte (by omega) h)
    · exact writes_writeByte (by omega) h

theorem writes_writeUvarint (value : Nat) : Writes (writeUvarint value) (uvarintBits 10 value) :=
  writes_writeUvarintLoop 10 value

end BitStream

open BitStream

/-! ### Reading -/

structure BitReader where
  data : List Nat
  position : Nat := 0

/-- The bits that are left. -/
def BitReader.rest (reader : BitReader) : List Bool := (bitsOf reader.data).drop reader.position

abbrev Read (α : Type) := StateT BitReader Option α

def readBit : Read Bool := fun reader =>
  reader.data[reader.position / 8]?.map fun byte =>
    (byte.testBit (7 - reader.position % 8), { reader with position := reader.position + 1 })

def readBitsLoop : Nat → Nat → Read Nat
  | 0, value => pure value
  | count + 1, value => do
    let bit ← readBit
    readBitsLoop count (2 * value + bit.toNat)

/-- At most 64 bits, if there are as many. -/
def readBits (count : Nat) : Read Nat := fun reader =>
  if 64 < count ∨ reader.data.length * 8 - reader.position < count then none
  else readBitsLoop count 0 reader

def readByte : Read Nat := readBits 8

def readUvarintLoop : Nat → Nat → Nat → Read Nat
  | 0, _, _ => fun _ => none
  | fuel + 1, index, value => do
    let byte ← readByte
    if index = 9 ∧ 1 < byte then fun _ => none
    else
      let value := value ||| (byte % 128) <<< (7 * index)
      if byte < 128 then pure value else readUvarintLoop fuel (index + 1) value

/-- At most ten bytes, the last of them one bit of the word. -/
def readUvarint : Read Nat := readUvarintLoop 10 0 0

def unzigzag (raw : BitVec 64) : BitVec 64 :=
  if raw &&& 1 = 0 then raw >>> 1 else ~~~(raw >>> 1)

def readVarint : Read (BitVec 64) := (fun raw => unzigzag (BitVec.ofNat 64 raw)) <$> readUvarint

/-- An operation of the reader takes some bits and makes a value of them. -/
def Reads {α : Type} (read : Read α) (bits : List Bool) (a : α) : Prop :=
  ∀ (reader : BitReader) (rest : List Bool), reader.rest = bits ++ rest →
    ∃ reader', read reader = some (a, reader') ∧ reader'.rest = rest

section Reads

variable {α β : Type}

theorem Reads.pure (a : α) : Reads (pure a : Read α) [] a :=
  fun _ _ h => ⟨_, rfl, h⟩

theorem Reads.bind {read : Read α} {next : α → Read β} {bits bits' : List Bool} {a : α} {b : β}
    (h : Reads read bits a) (h' : Reads (next a) bits' b) :
    Reads (read >>= next) (bits ++ bits') b := by
  intro reader rest hr
  rw [append_assoc] at hr
  obtain ⟨reader', hrd, hr'⟩ := h _ _ hr
  obtain ⟨reader'', hrd', hrest''⟩ := h' _ _ hr'
  refine ⟨reader'', ?_, hrest''⟩
  change (read reader).bind (fun p => next p.1 p.2) = _
  rw [hrd]
  exact hrd'

theorem Reads.map {read : Read α} {bits : List Bool} {a : α} (h : Reads read bits a) (f : α → β) :
    Reads (f <$> read) bits (f a) := by
  intro reader rest hr
  obtain ⟨reader', hrd, hr'⟩ := h _ _ hr
  refine ⟨reader', ?_, hr'⟩
  change (read reader).bind (fun p => some (f p.1, p.2)) = _
  rw [hrd]
  rfl

end Reads

theorem reads_readBit (bit : Bool) : Reads readBit [bit] bit := by
  intro reader rest hr
  have hget : (bitsOf reader.data)[reader.position]? = some bit := by
    have := congrArg (·[0]?) hr
    rwa [BitReader.rest, getElem?_drop, Nat.add_zero] at this
  rw [getElem?_bitsOf] at hget
  obtain ⟨byte, hby, hbit⟩ := Option.map_eq_some_iff.mp hget
  refine ⟨{ reader with position := reader.position + 1 }, ?_, ?_⟩
  · rw [readBit, hby, Option.map_some, hbit]
  · have := congrArg (List.drop 1) hr
    rwa [BitReader.rest, drop_drop] at this

theorem reads_readBitsLoop (bits : List Bool) : ∀ value, Reads (readBitsLoop bits.length value) bits
    (bits.foldl (fun n bit => 2 * n + bit.toNat) value) := by
  induction bits with
  | nil => exact Reads.pure
  | cons bit bits ih => exact fun value => (reads_readBit bit).bind (ih _)

/-- Bits read back as the number they write. -/
theorem reads_readBits {width value : Nat} (hw : width ≤ 64) (hval : value < 2 ^ width) :
    Reads (readBits width) (toBits width value) value := by
  intro reader rest hr
  have hlen : reader.data.length * 8 - reader.position = width + rest.length := by
    have := congrArg List.length hr
    rwa [BitReader.rest, length_drop, length_bitsOf, length_append, length_toBits] at this
  obtain ⟨reader', hrd, hr'⟩ := reads_readBitsLoop (toBits width value) 0 _ _ hr
  refine ⟨reader', ?_, hr'⟩
  have hlo : readBitsLoop width 0 reader = some (value, reader') := by
    rw [length_toBits] at hrd
    exact hrd.trans (congrArg (fun n => some (n, reader')) (ofBits_toBits_of_lt hval))
  rw [readBits, if_neg (by omega), hlo]

/-- The low bits of a number, read back. -/
theorem reads_readBits_mod {width : Nat} (hw : width ≤ 64) (value : Nat) :
    Reads (readBits width) (toBits width value) (value % 2 ^ width) := by
  rw [← toBits_mod]
  exact reads_readBits hw (Nat.mod_lt _ (by positivity))

theorem reads_readUvarintLoop (fuel : Nat) : ∀ {index value rest : Nat}, index + fuel = 10 →
    0 < fuel → value < 2 ^ (7 * index) → rest * 2 ^ (7 * index) < 2 ^ 64 →
    Reads (readUvarintLoop fuel index value) (uvarintBits fuel rest)
      (value + rest * 2 ^ (7 * index)) := by
  induction fuel with
  | zero => exact fun _ h => absurd h (lt_irrefl 0)
  | succ fuel ih =>
    intro index value rest hi _ hval hr
    -- at the tenth byte only one bit of the word is left
    have hl : index = 9 → rest ≤ 1 := by
      rintro rfl
      omega
    have hor : ∀ digit, value ||| digit <<< (7 * index) = value + digit * 2 ^ (7 * index) := by
      intro digit
      rw [Nat.shiftLeft_eq, Nat.mul_comm, Nat.or_comm, ← Nat.two_pow_add_eq_or_of_lt hval,
        Nat.add_comm]
    rw [uvarintBits, readUvarintLoop]
    split
    · rename_i hbig
      have hmo : index ≠ 9 := fun h => by have := hl h; omega
      have hpow : 2 ^ (7 * (index + 1)) = 128 * 2 ^ (7 * index) := by
        rw [show 7 * (index + 1) = 7 + 7 * index by ring, pow_add]
        norm_num
      have hn : rest / 128 * 2 ^ (7 * (index + 1)) ≤ rest * 2 ^ (7 * index) := by
        rw [hpow, ← mul_assoc]
        exact Nat.mul_le_mul_right _ (Nat.div_mul_le_self rest 128)
      have hsum : value + rest % 128 * 2 ^ (7 * index) < 2 ^ (7 * (index + 1)) := by
        have : rest % 128 * 2 ^ (7 * index) ≤ 127 * 2 ^ (7 * index) :=
          Nat.mul_le_mul_right _ (by omega)
        omega
      refine (reads_readBits (by omega) (by omega)).bind ?_
      rw [if_neg (by omega), if_neg (by omega), show (rest % 128 + 128) % 128 = rest % 128 by omega,
        hor]
      have hrd := ih (show index + 1 + fuel = 10 by omega) (by omega) hsum
        (lt_of_le_of_lt hn hr)
      rwa [show value + rest % 128 * 2 ^ (7 * index) + rest / 128 * 2 ^ (7 * (index + 1)) =
        value + rest * 2 ^ (7 * index) by
          rw [hpow]
          nth_rewrite 3 [← Nat.mod_add_div rest 128]
          ring] at hrd
    · rename_i hsm
      rw [← append_nil (toBits 8 rest)]
      refine (reads_readBits (by omega) (by omega)).bind ?_
      rw [if_neg (by omega), if_pos (by omega), Nat.mod_eq_of_lt (by omega), hor]
      exact Reads.pure _

theorem reads_readUvarint {value : Nat} (hval : value < 2 ^ 64) :
    Reads readUvarint (uvarintBits 10 value) value := by
  have h := @reads_readUvarintLoop 10 0 0 value rfl (by omega) (by decide) (by omega)
  rwa [show 0 + value * 2 ^ (7 * 0) = value by omega] at h

theorem unzigzag_zigzag (value : BitVec 64) : unzigzag (zigzag value) = value := by
  have hone : ∀ word : BitVec 64, word &&& 1 = 0 ↔ word.toNat % 2 = 0 := by
    intro word
    rw [← BitVec.toNat_inj, BitVec.toNat_and]
    change word.toNat &&& 1 = 0 ↔ _
    rw [Nat.and_one_is_mod]
  have hsi : value.toInt < 0 ↔ 2 ^ 63 ≤ value.toNat := by
    rw [BitVec.toInt_eq_toNat_cond]
    have := value.isLt
    split <;> omega
  have hsh : (value <<< 1).toNat = 2 * value.toNat % 2 ^ 64 := by
    rw [BitVec.toNat_shiftLeft, Nat.shiftLeft_eq, Nat.mul_comm, Nat.pow_one]
  have hlt := value.isLt
  rw [unzigzag, zigzag]
  refine BitVec.eq_of_toNat_eq ?_
  by_cases hneg : 2 ^ 63 ≤ value.toNat
  · have hraw : (~~~(value <<< 1)).toNat = 2 ^ 65 - 1 - 2 * value.toNat := by
      rw [BitVec.toNat_not, hsh]
      omega
    rw [if_pos (hsi.mpr hneg), if_neg (by rw [hone, hraw]; omega), BitVec.toNat_not,
      BitVec.toNat_ushiftRight, hraw, Nat.shiftRight_eq_div_pow]
    omega
  · have hpos : ¬ value.toInt < 0 := fun h => hneg (hsi.mp h)
    rw [if_neg hpos, if_pos (by rw [hone, hsh]; omega), BitVec.toNat_ushiftRight,
      hsh, Nat.shiftRight_eq_div_pow]
    omega

/-! ### Inverse operations -/

/-- What one operation writes another reads back as a value. -/
def Inverse {α : Type} (write : BitStream → BitStream) (read : Read α) (a : α) : Prop :=
  ∃ bits, BitStream.Writes write bits ∧ Reads read bits a

section Inverse

variable {α β : Type} {write write' : BitStream → BitStream}

theorem Inverse.pure (a : α) : Inverse id (pure a : Read α) a :=
  ⟨[], BitStream.Writes.id, Reads.pure a⟩

variable {read : Read α}

theorem Inverse.bind {next : α → Read β} {a : α} {b : β} (h : Inverse write read a)
    (h' : Inverse write' (next a) b) :
    Inverse (write' ∘ write) (read >>= next) b := by
  obtain ⟨bits, hw, hrd⟩ := h
  obtain ⟨bits', hw', hrd'⟩ := h'
  exact ⟨bits ++ bits', hw.comp hw', hrd.bind hrd'⟩

theorem Inverse.map {a : α} (h : Inverse write read a) (f : α → β) :
    Inverse write (f <$> read) (f a) := by
  obtain ⟨bits, hw, hrd⟩ := h
  exact ⟨bits, hw, hrd.map f⟩

/-- A value made of what is read at last. -/
theorem Inverse.bind_pure {a : α} (h : Inverse write read a) (f : α → β) :
    Inverse write (read >>= fun a => Pure.pure (f a)) (f a) := by
  obtain ⟨bits, hw, hrd⟩ := h
  refine ⟨bits, hw, ?_⟩
  rw [← append_nil bits]
  exact hrd.bind (Reads.pure _)

theorem inverse_bit (value : Bool) : Inverse (writeBit value) readBit value :=
  ⟨[value], writes_writeBit value, reads_readBit value⟩

theorem inverse_bits {width value : Nat} (hw : width ≤ 64) (hval : value < 2 ^ width) :
    Inverse (writeBits value width) (readBits width) value :=
  ⟨_, writes_writeBits hw (lt_of_lt_of_le hval (Nat.pow_le_pow_right (by omega) hw)),
    reads_readBits hw hval⟩

theorem inverse_byte {value : Nat} (hval : value < 256) :
    Inverse (writeByte value) readByte value :=
  ⟨_, writes_writeByte hval, reads_readBits (by omega) hval⟩

theorem inverse_uvarint {value : Nat} (hval : value < 2 ^ 64) :
    Inverse (writeUvarint value) readUvarint value :=
  ⟨_, writes_writeUvarint value, reads_readUvarint hval⟩

theorem inverse_varint (value : BitVec 64) :
    Inverse (writeVarint value) readVarint value := by
  have h := (inverse_uvarint (zigzag value).isLt).map fun raw =>
    unzigzag (BitVec.ofNat 64 raw)
  rwa [BitVec.ofNat_toNat, BitVec.setWidth_eq, unzigzag_zigzag] at h

end Inverse

end KrabkaO11y.Metrics
