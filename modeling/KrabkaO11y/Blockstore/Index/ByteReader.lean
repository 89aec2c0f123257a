import KrabkaO11y.Wire.Reader
import KrabkaO11y.Blockstore.Block

/-!
The bytes of an index shard: the reader (`index/byte_reader.rs`) and the writer
(`index/shard_wire.rs`) that every shard format of the store shares.

A `pushX` is the bytes that the source's `push_x` appends. A reader holds the bytes
that are left, so the source's `bytes.len() - at` is their number.
-/

open Std (ExtTreeMap)

namespace KrabkaO11y.Blockstore

open StateT

/-- The errors of the modelled functions. -/
inductive BlockStoreError where
  | objectStore (message : String)
  | invalidBlock (message : String)
  | missingProfileTypeLabel (label tenant : String) (fingerprint : UInt64) (labels : String)
deriving DecidableEq, Repr

abbrev ByteReader := Wire.Reader BlockStoreError

namespace ByteReader

open Wire

variable (what : String)

def short : BlockStoreError := .invalidBlock ("index shard ends inside " ++ what)

def take (len : Nat) (what : String) : ByteReader (List UInt8) := fun bytes =>
  if len ≤ bytes.length then .ok (bytes.take len, bytes.drop len) else .error (short what)

def u8 : ByteReader UInt8 := do
  let bytes ← take 1 what
  pure (bytes.headD 0)

def u64Le : ByteReader UInt64 := do
  let bytes ← take 8 what
  pure (UInt64.ofNat (leValue bytes))

/-- The digits of the source's loop have disjoint bits, so its `|=` is a sum here. -/
def uvarint : ByteReader UInt64 := fun bytes =>
  (readDigits (short what)
      (.invalidBlock ("index shard varint in " ++ what ++ " overflows a u64")) bytes 0 0).map
    fun read => (UInt64.ofNat read.1, read.2)

def ivarint : ByteReader Int64 := do
  let raw ← uvarint what
  pure (unzigzag raw)

def utf8 (bytes : List UInt8) : ByteReader String :=
  match ofUtf8 bytes with
  | some text => pure text
  | none => throw (.invalidBlock ("index shard " ++ what ++ " is not UTF-8"))

def string : ByteReader String := do
  let len ← uvarint what
  let bytes ← take len.toNat what
  utf8 what bytes

/-- A count of elements, each at least one byte: more than the bytes that are left is
refused. -/
def count : ByteReader Nat := do
  let count ← uvarint what
  let left ← get
  if left.length < count.toNat then
    throw (.invalidBlock ("index shard declares " ++ toString count.toNat ++ " " ++ what ++
      " but has " ++ toString left.length ++ " bytes left"))
  pure count.toNat

def countUnbounded : ByteReader UInt64 := uvarint what

def blockLevel : ByteReader BlockLevel := do
  let level ← uvarint "a block level"
  if 0xFFFFFFFF < level.toNat then
    throw (.invalidBlock "names a compaction level beyond u32")
  pure ⟨UInt32.ofNat level.toNat⟩

end ByteReader

/-- The fields every shard format starts a block with. -/
structure ShardBlockPrefix where
  objectKey : String
  minTs : Int64
  maxTs : Int64
  rowCount : UInt64
  level : BlockLevel
deriving DecidableEq, Repr

open ByteReader in
def readShardBlockPrefix (previousMin : Int64) : ByteReader ShardBlockPrefix := do
  let objectKey ← string "a block object key"
  let start ← ivarint "a block start"
  let minTs := previousMin + start
  let span ← ivarint "a block span"
  let maxTs := minTs + span
  let rowCount ← countUnbounded "a block row count"
  let level ← blockLevel
  pure ⟨objectKey, minTs, maxTs, rowCount, level⟩

structure DecodedShardHeader where
  tenant : String
  dictionary : List String

/-- Reads `n` strings. -/
def readStrings (n : Nat) (what : String) : ByteReader (List String) :=
  Wire.readMany (fun (_ : Unit) => do
    let text ← ByteReader.string what
    pure (text, ())) n ()

open ByteReader in
def decodeShardHeader (magic : List UInt8) (expectedVersion : UInt8) (shardName : String) :
    ByteReader DecodedShardHeader := do
  let found ← take magic.length "the magic"
  if found ≠ magic then throw (.invalidBlock ("is not " ++ shardName))
  let version ← u8 "the format version"
  if version ≠ expectedVersion then
    throw (.invalidBlock ("is format version " ++ toString version ++ ", expected " ++
      toString expectedVersion))
  let tenant ← string "the tenant name"
  let dictionaryLen ← count "dictionary entries"
  let dictionary ← readStrings dictionaryLen "a dictionary entry"
  pure ⟨tenant, dictionary⟩

/-- Resolves a dictionary id read from a shard to its string. -/
def dictionaryEntry (dictionary : List String) (id : UInt64) : Except BlockStoreError String :=
  match dictionary[id.toNat]? with
  | some text => .ok text
  | none => .error (.invalidBlock ("names dictionary entry " ++ toString id.toNat ++
      ", which is not there"))

/-- Reads an id and resolves it. -/
def readDictionaryEntry (dictionary : List String) (what : String) : ByteReader String := do
  let id ← ByteReader.uvarint what
  MonadExcept.ofExcept (dictionaryEntry dictionary id)

/-- Runs a shard reader over a whole object and names the object in its errors. -/
def decodeShard {α : Type} (read : ByteReader α) (kind objectKey : String) (bytes : List UInt8) :
    Except BlockStoreError α :=
  let named := fun message : String =>
    BlockStoreError.invalidBlock (kind ++ " `" ++ objectKey ++ "`: " ++ message)
  match read.run bytes with
  | .ok (a, []) => .ok a
  | .ok (_, _ :: _) => .error (named "has bytes after the end of the shard")
  | .error (.invalidBlock message) => .error (named message)
  | .error other => .error other

/-! ### The writer -/

def pushUvarint (value : UInt64) : List UInt8 := Wire.uvarintBytes 10 value.toNat

def pushIvarint (value : Int64) : List UInt8 := pushUvarint (Wire.zigzag value)

def pushLen (len : Nat) : List UInt8 := pushUvarint (UInt64.ofNat len)

def pushString (text : String) : List UInt8 :=
  pushLen (Wire.utf8Bytes text).length ++ Wire.utf8Bytes text

/-- The ids of a sorted dictionary (`assign_sorted_string_ids`): the place of each string. -/
def dictionaryId (strings : List String) (text : String) : Nat := strings.idxOf text

def pushDictionaryId (strings : List String) (text : String) : List UInt8 :=
  pushLen (dictionaryId strings text)

def pushShardBlockPrefix (block : ShardBlockPrefix) (previousMin : Int64) : List UInt8 :=
  pushString block.objectKey ++ pushIvarint (block.minTs - previousMin) ++
    pushIvarint (block.maxTs - block.minTs) ++ pushUvarint block.rowCount ++
    pushUvarint (UInt64.ofNat block.level.get.toNat)

def pushStrings (strings : List String) : List UInt8 :=
  Wire.writeMany (fun (_ : Unit) text => pushString text) (fun _ _ => ()) strings ()

/-- The magic, the version, the tenant and the dictionary. -/
def pushShardHeader (magic : List UInt8) (version : UInt8) (tenant : String)
    (strings : List String) : List UInt8 :=
  magic ++ [version] ++ pushString tenant ++ pushLen strings.length ++ pushStrings strings

/-! ### What is pushed is read back -/

section RoundTrip

open Wire ByteReader

theorem decodes_take (bytes : List UInt8) (what : String) :
    Decodes (ByteReader.take bytes.length what) bytes bytes := by
  intro rest
  simp [ByteReader.take, run]

theorem decodes_u8 (byte : UInt8) (what : String) : Decodes (u8 what) [byte] byte := by
  simpa [u8] using (decodes_take [byte] what).map fun bytes => bytes.headD 0

theorem leBytes_length (value : UInt64) : (leBytes value).length = 8 := by simp [leBytes]

theorem decodes_u64Le (value : UInt64) (what : String) :
    Decodes (u64Le what) (leBytes value) value := by
  have h := (decodes_take (leBytes value) what).map fun bytes => UInt64.ofNat (leValue bytes)
  rw [leBytes_length, leValue_leBytes, UInt64.ofNat_toNat] at h
  simpa [u64Le] using h

theorem decodes_uvarint (value : UInt64) (what : String) :
    Decodes (uvarint what) (pushUvarint value) value := by
  intro rest
  simp only [uvarint, run, pushUvarint]
  rw [show (0 : Nat) = 7 * 0 from rfl, readDigits_uvarintBytes rest 10 value.toNat (7 * 0) 0 rfl
    (by simpa using value.toNat_lt) (by norm_num)]
  simp [Except.map]

theorem pushUvarint_length_pos (value : UInt64) : 0 < (pushUvarint value).length :=
  uvarintBytes_length_pos (by norm_num)

theorem decodes_ivarint (value : Int64) (what : String) :
    Decodes (ivarint what) (pushIvarint value) value := by
  have h := (decodes_uvarint (zigzag value) what).map unzigzag
  rw [unzigzag_zigzag] at h
  simpa [ivarint, pushIvarint] using h

theorem toNat_ofNat_len {n : Nat} (h : n < 2 ^ 64) : (UInt64.ofNat n).toNat = n := by
  rw [UInt64.toNat_ofNat', Nat.mod_eq_of_lt h]

theorem pushLen_length_pos (len : Nat) : 0 < (pushLen len).length := pushUvarint_length_pos _

theorem pushString_length_pos (text : String) : 0 < (pushString text).length := by
  have := pushLen_length_pos (utf8Bytes text).length
  simp only [pushString, List.length_append]
  omega

variable {text : String}

theorem decodes_string (what : String) (h : (pushString text).length < 2 ^ 64) :
    Decodes (string what) (pushString text) text := by
  have hlen : (utf8Bytes text).length < 2 ^ 64 := by
    simp only [pushString, List.length_append] at h
    omega
  have htx : Decodes (utf8 what (utf8Bytes text)) [] text := by
    rw [utf8, ofUtf8_utf8Bytes]
    exact Decodes.pure text
  refine (decodes_uvarint _ what).bind ?_
  rw [toNat_ofNat_len hlen]
  simpa using (decodes_take (utf8Bytes text) what).bind htx

/-- A count is read back when what follows has at least as many bytes. -/
theorem decodes_count {β : Type} {n : Nat} (what : String) {next : Nat → ByteReader β}
    {back : List UInt8} {b : β} (hn : n ≤ back.length) (hlt : n < 2 ^ 64)
    (hback : Decodes (next n) back b) :
    Decodes (count what >>= next) (pushLen n ++ back) b := by
  intro rest
  have hct : (count what).run (pushLen n ++ (back ++ rest)) = .ok (n, back ++ rest) := by
    have hgu : ¬ (back ++ rest).length < n := by simp only [List.length_append]; omega
    simp only [count, run_bind, decodes_uvarint (UInt64.ofNat n) what (back ++ rest), pushLen,
      run_get]
    change run (if (back ++ rest).length < (UInt64.ofNat n).toNat then _ else _) _ = _
    rw [toNat_ofNat_len hlt, if_neg hgu]
    rfl
  rw [List.append_assoc, run_bind, hct]
  exact hback rest

theorem decodes_blockLevel (level : BlockLevel) :
    Decodes blockLevel (pushUvarint (UInt64.ofNat level.get.toNat)) level := by
  have hlt : level.get.toNat < 2 ^ 32 := level.get.toNat_lt
  intro rest
  simp only [blockLevel, run_bind, decodes_uvarint _ "a block level" rest]
  change run (if 0xFFFFFFFF < (UInt64.ofNat level.get.toNat).toNat then _ else _) _ = _
  rw [toNat_ofNat_len (by omega), if_neg (by omega), UInt32.ofNat_toNat]
  rfl

theorem add_sub_cancel_int64 (a b : Int64) : a + (b - a) = b := by
  apply Int64.toBitVec_inj.mp
  simp only [Int64.toBitVec_add, Int64.toBitVec_sub]
  rw [BitVec.add_comm, BitVec.sub_add_cancel]

theorem decodes_shardBlockPrefix {block : ShardBlockPrefix} {previousMin : Int64}
    (h : (pushString block.objectKey).length < 2 ^ 64) :
    Decodes (readShardBlockPrefix previousMin) (pushShardBlockPrefix block previousMin) block := by
  have hkey := decodes_string "a block object key" h
  have hst := decodes_ivarint (block.minTs - previousMin) "a block start"
  have hsp := decodes_ivarint (block.maxTs - block.minTs) "a block span"
  have hrs := decodes_uvarint block.rowCount "a block row count"
  have hlv := decodes_blockLevel block.level
  simp only [pushShardBlockPrefix, List.append_assoc, readShardBlockPrefix]
  refine hkey.bind (hst.bind (hsp.bind (hrs.bind ?_)))
  have hend := hlv.map fun level => (⟨block.objectKey, previousMin + (block.minTs - previousMin),
    previousMin + (block.minTs - previousMin) + (block.maxTs - block.minTs), block.rowCount,
    level⟩ : ShardBlockPrefix)
  simp only [add_sub_cancel_int64] at hend ⊢
  simpa using hend

theorem pushShardBlockPrefix_length_pos (block : ShardBlockPrefix) (previousMin : Int64) :
    0 < (pushShardBlockPrefix block previousMin).length := by
  have := pushString_length_pos block.objectKey
  simp only [pushShardBlockPrefix, List.length_append]
  omega

variable {strings : List String}

theorem decodes_strings (what : String) (h : (pushStrings strings).length < 2 ^ 64) :
    Decodes (readStrings strings.length what) (pushStrings strings) strings :=
  decodes_readMany (fun _ => True)
    (fun _ text _ hlen => by
      simpa using (decodes_string what hlen).map fun text => (text, ()))
    strings () (fun _ _ => trivial) h

theorem length_le_pushStrings (strings : List String) :
    strings.length ≤ (pushStrings strings).length :=
  length_le_writeMany (fun _ text => pushString_length_pos text) strings ()

theorem decodes_shardHeader {magic : List UInt8} {version : UInt8} {tenant shardName : String}
    (h : (pushShardHeader magic version tenant strings).length < 2 ^ 64) :
    Decodes (decodeShardHeader magic version shardName)
      (pushShardHeader magic version tenant strings) ⟨tenant, strings⟩ := by
  simp only [pushShardHeader, List.length_append] at h
  have hle := length_le_pushStrings strings
  simp only [pushShardHeader, List.append_assoc, decodeShardHeader]
  refine (decodes_take magic "the magic").bind ?_
  rw [if_neg (not_not_intro rfl)]
  refine (decodes_u8 version "the format version").bind ?_
  rw [if_neg (not_not_intro rfl)]
  refine (decodes_string "the tenant name" (by omega)).bind ?_
  refine decodes_count "dictionary entries" hle (by omega) ?_
  simpa using (decodes_strings "a dictionary entry" (by omega)).map (DecodedShardHeader.mk tenant)

theorem dictionaryEntry_id (hmem : text ∈ strings) (hlen : strings.length < 2 ^ 64) :
    dictionaryEntry strings (UInt64.ofNat (dictionaryId strings text)) = .ok text := by
  have hlt : strings.idxOf text < strings.length := List.idxOf_lt_length_iff.mpr hmem
  rw [dictionaryEntry, dictionaryId, toNat_ofNat_len (by omega), List.getElem?_eq_getElem hlt,
    List.getElem_idxOf]

theorem decodes_dictionaryEntry (what : String) (hmem : text ∈ strings)
    (hlen : strings.length < 2 ^ 64) :
    Decodes (readDictionaryEntry strings what) (pushDictionaryId strings text) text := by
  have hre : Decodes (MonadExcept.ofExcept (dictionaryEntry strings
      (UInt64.ofNat (dictionaryId strings text))) : ByteReader String) [] text := by
    rw [dictionaryEntry_id hmem hlen]
    exact Decodes.pure text
  have hrd : Decodes (readDictionaryEntry strings what) (pushDictionaryId strings text ++ [])
      text :=
    (decodes_uvarint _ what).bind hre
  simpa using hrd

theorem decodeShard_of_decodes {α : Type} {read : ByteReader α} {bytes : List UInt8} {a : α}
    (h : Wire.Decodes read bytes a) (kind objectKey : String) :
    decodeShard read kind objectKey bytes = .ok a := by
  rw [decodeShard, h.run]

end RoundTrip

/-! ### More bytes behind the input -/

section Extending

open Wire ByteReader

theorem extends_take (len : Nat) (what : String) : Extends (ByteReader.take len what) := by
  intro bytes more read rest h
  simp only [ByteReader.take, run, List.length_append] at h ⊢
  split at h <;> cases h
  rename_i hle
  rw [if_pos (by omega), List.take_append_of_le_length hle, List.drop_append_of_le_length hle]

theorem extends_u8 (what : String) : Extends (u8 what) :=
  (extends_take 1 what).bind fun _ => .pure _

theorem extends_u64Le (what : String) : Extends (u64Le what) :=
  (extends_take 8 what).bind fun _ => .pure _

theorem extends_uvarint (what : String) : Extends (uvarint what) := by
  intro bytes more value rest h
  simp only [uvarint, run] at h ⊢
  cases hdgs : readDigits (short what)
      (.invalidBlock ("index shard varint in " ++ what ++ " overflows a u64")) bytes 0 0 with
  | error e => rw [hdgs] at h; cases h
  | ok read =>
    rw [hdgs] at h
    cases h
    rw [readDigits_append more bytes 0 0 read.1 read.2 hdgs]
    rfl

theorem extends_ivarint (what : String) : Extends (ivarint what) :=
  (extends_uvarint what).bind fun _ => .pure _

theorem extends_string (what : String) : Extends (string what) := by
  refine (extends_uvarint what).bind fun len => (extends_take _ what).bind fun bytes => ?_
  rw [utf8]
  split
  · exact .pure _
  · exact .throw _

/-- A count that the bytes allow is allowed by more bytes. -/
theorem extends_count (what : String) : Extends (count what) := by
  intro bytes more n rest h
  obtain ⟨value, left, hval, hgu⟩ := run_bind_eq_ok h
  rw [count, run_bind, extends_uvarint what bytes more value left hval]
  change run (if left.length < value.toNat then _ else _) left = _ at hgu
  change run (if (left ++ more).length < value.toNat then _ else _) (left ++ more) = _
  split at hgu <;> cases hgu
  rw [if_neg (by rw [List.length_append]; omega)]
  rfl

theorem extends_blockLevel : Extends blockLevel :=
  (extends_uvarint "a block level").bind fun _ => .ite (.throw _) (.pure _)

theorem extends_shardBlockPrefix (previousMin : Int64) :
    Extends (readShardBlockPrefix previousMin) :=
  (extends_string _).bind fun _ => (extends_ivarint _).bind fun _ => (extends_ivarint _).bind
    fun _ => (extends_uvarint _).bind fun _ => extends_blockLevel.bind fun _ => .pure _

theorem extends_strings (n : Nat) (what : String) : Extends (readStrings n what) :=
  .readMany (fun _ => (extends_string what).bind fun _ => .pure _) n ()

theorem extends_shardHeader (magic : List UInt8) (version : UInt8) (shardName : String) :
    Extends (decodeShardHeader magic version shardName) :=
  (extends_take _ _).bind fun _ => .ite (.throw _) <| (extends_u8 _).bind fun _ =>
    .ite (.throw _) <| (extends_string _).bind fun _ => (extends_count _).bind fun n =>
      (extends_strings n _).bind fun _ => .pure _

theorem extends_dictionaryEntry (dictionary : List String) (what : String) :
    Extends (readDictionaryEntry dictionary what) := by
  refine (extends_uvarint what).bind fun id => ?_
  cases dictionaryEntry dictionary id with
  | error e => exact .throw e
  | ok text => exact .pure text

end Extending

/-- What a whole shard was read from: bytes that the reader takes to their end. -/
theorem run_of_decodeShard {α : Type} {read : ByteReader α} {kind objectKey : String}
    {bytes : List UInt8} {a : α} (h : decodeShard read kind objectKey bytes = .ok a) :
    read.run bytes = .ok (a, []) := by
  rw [decodeShard] at h
  split at h
  · rename_i hrun
    rw [hrun, Except.ok.inj h]
  all_goals cases h

end KrabkaO11y.Blockstore
