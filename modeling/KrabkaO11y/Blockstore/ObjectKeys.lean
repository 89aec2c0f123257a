import KrabkaO11y.Wire.Reader
import KrabkaO11y.Blockstore.IndexShardRange

/-!
The spelling of object keys (`path_escape.rs`, `index/shard_keys.rs` and the key part of
`index_snapshot.rs`).

The modelled store is keyed by what a key says (a generation, a tenant and a span)
rather than by its spelling; the spellings below are what errors and results name.
-/

namespace KrabkaO11y.Blockstore

def trimSlashes (key : String) : String :=
  String.ofList
    ((key.toList.dropWhile (· = '/')).reverse.dropWhile (· = '/')).reverse

def stripSuffix (text suffix : String) : Option String :=
  if suffix.toList.isSuffixOf text.toList then
    some (String.ofList (text.toList.take (text.length - suffix.length)))
  else none

/-- A sibling of `key`: under its stem when it is a `.json` key, beside it otherwise. -/
def siblingOfKey (key name : String) : String :=
  match stripSuffix (trimSlashes key) ".json" with
  | some stem => stem ++ "/" ++ name
  | none => trimSlashes key ++ "." ++ name

def indexSnapshotPrefixForKey (key : String) : String := siblingOfKey key "snapshots"

def shardPayloadPrefixForKey (key : String) : String := siblingOfKey key "payloads"

/-- Decimal, padded with zeros to twenty digits, the widest a `u64` takes. -/
def paddedDecimal (value : UInt64) : String :=
  String.ofList (List.replicate (20 - (Nat.toDigits 10 value.toNat).length) '0' ++
    Nat.toDigits 10 value.toNat)

/-- One shard bound in offset binary: the sign bit is flipped. -/
def shardBoundKey (bound : Int64) : String :=
  paddedDecimal (bound.toUInt64 ^^^ ((1 : UInt64) <<< 63))

def hexDigitUpper (digit : Nat) : Char :=
  if digit < 10 then Char.ofNat (48 + digit) else Char.ofNat (55 + digit)

def isPlainPathByte (byte : UInt8) : Bool :=
  let c := Char.ofNat byte.toNat
  byte.toNat < 128 && (c.isAlphanum || c = '-' || c = '_' || c = '.')

/-- Holds a value inside one path segment. A whole-segment `.` or `..` escapes every dot. -/
def escapeObjectPathSegment (value : String) : String :=
  String.ofList ((Wire.utf8Bytes value).flatMap fun byte =>
    if !(value = "." || value = "..") && isPlainPathByte byte then [Char.ofNat byte.toNat]
    else ['!', hexDigitUpper (byte.toNat / 16), hexDigitUpper (byte.toNat % 16)])

def snapshotKeyForGeneration (key : String) (generation : UInt64) : String :=
  indexSnapshotPrefixForKey key ++ "/" ++ paddedDecimal generation ++ ".json"

def shardPayloadObjectKey (key tenant : String) (range : IndexShardRange) (content : String) :
    String :=
  shardPayloadPrefixForKey key ++ "/tenant=" ++ escapeObjectPathSegment tenant ++ "/time=" ++
    shardBoundKey range.start ++ "-" ++ shardBoundKey range.stop ++ "/" ++ content ++ ".kbs"

example : shardPayloadObjectKey "idx.json" "a/b" ⟨0, -1⟩ "h" =
    "idx/payloads/tenant=a!2Fb/time=09223372036854775808-09223372036854775807/h.kbs" := by
  decide +kernel

example : snapshotKeyForGeneration "/idx/" 7 = "idx.snapshots/00000000000000000007.json" := by
  decide +kernel

end KrabkaO11y.Blockstore
