import KrabkaO11y.Blockstore.Index.BlockListOrder

/-!
A block list is a map from object key to block.

The abstract side is `Registry`, the map, with its queries written as walks over
its records in time order. `Refines l m` connects the two: the nine structures of
`l` agree with each other (`Wf`) and hold the records of `m`.
-/

open Std (ExtTreeMap ExtTreeSet)

namespace KrabkaO11y.Blockstore

/-! ### The abstract side -/

/-- The last registration of an object key. -/
structure BlockRecord where
  objectKey : String
  minTs : Int64
  maxTs : Int64
  rowCount : UInt64
  level : BlockLevel
  fingerprints : ExtTreeSet SeriesFingerprint

namespace BlockRecord

/-- The record a registration leaves. -/
def ofMeta (block : BlockMeta) : BlockRecord where
  objectKey := block.objectKey
  minTs := block.minTs
  maxTs := block.maxTs
  rowCount := block.rowCount
  level := block.level
  fingerprints := ExtTreeSet.ofList block.fingerprints

/-- The record as a block of `tenant`, its fingerprints ascending. -/
def toMeta (tenant : String) (r : BlockRecord) : BlockMeta where
  tenant := tenant
  objectKey := r.objectKey
  minTs := r.minTs
  maxTs := r.maxTs
  rowCount := r.rowCount
  fingerprints := r.fingerprints.toList
  level := r.level

def orderKey (r : BlockRecord) : BlockOrderKey := blockOrderKey r.minTs r.maxTs r.objectKey

def overlaps (r : BlockRecord) (minTs maxTs : Int64) : Bool :=
  decide (r.minTs ≤ maxTs) && decide (r.maxTs ≥ minTs)

/-- Whether the block carries one of `fps`. -/
def carries (r : BlockRecord) (fps : ExtTreeSet SeriesFingerprint) : Bool :=
  fps.toList.any fun fp => r.fingerprints.contains fp

end BlockRecord

/-- The last registered, not since removed record of each object key. -/
abbrev Registry := ExtTreeMap String BlockRecord

namespace Registry

variable (m : Registry)

/-- Registers `block`: its record replaces whatever the key held. -/
def register (block : BlockMeta) : Registry :=
  m.insert block.objectKey (.ofMeta block)

/-- Removes every key in `keys`. -/
def removeAll (keys : ExtTreeSet String) : Registry :=
  keys.toList.foldl (fun m key => m.erase key) m

/-- The records in time order. -/
def walk : List BlockRecord :=
  (m.toList.map (·.2)).mergeSort fun left right => decide (left.orderKey ≤ right.orderKey)

def overlapping (minTs maxTs : Int64) : List BlockRecord :=
  m.walk.filter (·.overlaps minTs maxTs)

def candidateBlocks (fps : ExtTreeSet SeriesFingerprint) (minTs maxTs : Int64) :
    List String :=
  ((m.overlapping minTs maxTs).filter (·.carries fps)).map (·.objectKey)

def blocksInRange (minTs maxTs : Int64) : List String :=
  (m.overlapping minTs maxTs).map (·.objectKey)

def timeBounds (minTs maxTs : Int64) : Option BlockTimeBounds :=
  (m.overlapping minTs maxTs).foldl (fun bounds r => BlockList.widenBounds bounds r.minTs r.maxTs)
    none

def levelOf (objectKey : String) : Option BlockLevel :=
  m[objectKey]?.map (·.level)

end Registry

/-! ### The relation -/

namespace BlockList

/-- The fingerprints whose posting lists name `ordinal`. -/
def fingerprintsOf (postings : ExtTreeMap SeriesFingerprint (List Nat)) (ordinal : Nat) :
    ExtTreeSet SeriesFingerprint :=
  ExtTreeSet.ofList (postings.filter fun _ ordinals => ordinals.contains ordinal).keys

/-- The record behind an ordinal. -/
def record (l : BlockList) (ordinal : Nat) : BlockRecord where
  objectKey := (l.entry ordinal).objectKey
  minTs := (l.entry ordinal).minTs
  maxTs := (l.entry ordinal).maxTs
  rowCount := (l.entry ordinal).rowCount
  level := (l.entry ordinal).level
  fingerprints := fingerprintsOf l.postings ordinal

end BlockList

/-- Every posting names an entry. -/
def BlockListRepr.Bounded (repr : BlockListRepr) : Prop :=
  ∀ (fp : SeriesFingerprint) (ordinals : List Nat), repr.postings[fp]? = some ordinals →
    ∀ ordinal ∈ ordinals, ordinal < repr.entries.length

/-- The record a decoded entry stands for. -/
def BlockListRepr.record (repr : BlockListRepr) (ordinal : Nat) : BlockRecord :=
  BlockList.record { entries := repr.entries, postings := repr.postings } ordinal

/-- The records of decoded bytes: the entries, registered in ordinal order. -/
def Registry.ofRepr (repr : BlockListRepr) : Registry :=
  (List.range repr.entries.length).foldl
    (fun m ordinal => m.insert (repr.record ordinal).objectKey (repr.record ordinal)) ∅

/-- A fingerprint set under a key, with the size and the digest that its entry records. -/
structure Registration where
  objectKey : String
  size : UInt64
  digest : UInt64
  fingerprints : ExtTreeSet SeriesFingerprint

/-- The registration of a record whose size and digest are those of its set. -/
def Registration.ofRecord (r : BlockRecord) : Registration :=
  ⟨r.objectKey, UInt64.ofNat r.fingerprints.size, fingerprintSetDigest r.fingerprints.toList,
    r.fingerprints⟩

/-- What registering a block computes. -/
def Registration.ofMeta (block : BlockMeta) : Registration := .ofRecord (.ofMeta block)

/-- No two different sets under one key agree in size and digest. -/
def NoCollision (registrations : List Registration) : Prop :=
  ∀ r ∈ registrations, ∀ r' ∈ registrations, r.objectKey = r'.objectKey → r.size = r'.size →
    r.digest = r'.digest → r.fingerprints = r'.fingerprints

namespace BlockList

/-- The registration behind an ordinal: its entry's size and digest, and the set its
postings give. -/
def registration (l : BlockList) (ordinal : Nat) : Registration :=
  ⟨(l.entry ordinal).objectKey, (l.entry ordinal).fingerprintCount,
    (l.entry ordinal).fingerprintDigest, fingerprintsOf l.postings ordinal⟩

/-- Every decoded entry records the size and the digest of the set that its postings give. -/
def RecordsOwnSets (repr : BlockListRepr) : Prop :=
  ∀ ordinal < repr.entries.length,
    (ofRepr repr).registration ordinal = .ofRecord (repr.record ordinal)

/-- The live blocks were all registered so. -/
def Registered (l : BlockList) (registrations : List Registration) : Prop :=
  ∀ ordinal ∈ l.order, l.registration ordinal ∈ registrations

/-- No posting list names an ordinal twice. -/
def DistinctPostings (postings : ExtTreeMap SeriesFingerprint (List Nat)) : Prop :=
  ∀ (fp : SeriesFingerprint) (ordinals : List Nat), postings[fp]? = some ordinals → ordinals.Nodup

/-- The structures of a block list agree with each other. -/
structure Wf (l : BlockList) : Prop where
  placed : Placed l
  columns : Columns l l.order.length
  sorted : Sorted l
  live_len : l.live.length = l.entries.length
  mem_order : ∀ ordinal, ordinal ∈ l.order ↔ l.live.getD ordinal false = true
  byKey_iff : ∀ (key : String) (ordinal : Nat),
    l.byKey[key]? = some ordinal ↔ ordinal ∈ l.order ∧ (l.entry ordinal).objectKey = key
  postings_lt : ∀ (fp : SeriesFingerprint) (ordinals : List Nat), l.postings[fp]? = some ordinals →
    ∀ ordinal ∈ ordinals, ordinal < l.entries.length

/-- The list is well formed and holds exactly the records of `m`. -/
structure Refines (l : BlockList) (m : Registry) : Prop where
  wf : Wf l
  lookup : ∀ key : String, m[key]? = (l.byKey[key]?).map l.record

/-! ### Fingerprint sets behind ordinals -/

theorem mem_fingerprintsOf {postings : ExtTreeMap SeriesFingerprint (List Nat)} {ordinal : Nat}
    {fp : SeriesFingerprint} :
    fp ∈ fingerprintsOf postings ordinal ↔ ∃ os, postings[fp]? = some os ∧ ordinal ∈ os := by
  rw [fingerprintsOf, ExtTreeSet.mem_ofList, List.contains_iff_mem, ExtTreeMap.mem_keys,
    ExtTreeMap.mem_iff_isSome_getElem?, ExtTreeMap.getElem?_filter']
  cases postings[fp]? with
  | none => simp
  | some os => simp [Option.isSome_filter]

theorem record_congr {l l' : BlockList} {ordinal ordinal' : Nat}
    (he : l.entry ordinal = l'.entry ordinal')
    (posting : fingerprintsOf l.postings ordinal = fingerprintsOf l'.postings ordinal') :
    l.record ordinal = l'.record ordinal' := by
  simp only [record, he, posting]

end BlockList

end KrabkaO11y.Blockstore
