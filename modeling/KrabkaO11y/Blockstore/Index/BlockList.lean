import KrabkaO11y.Verified.OverlapWindow
import KrabkaO11y.Blockstore.Block

/-!
A tenant's blocks, ordered by time, with the block-to-series pairs inverted
(`crates/blockstore/src/index/block_list.rs`, `index.rs`).

Nine parallel structures are edited in place: the entries by ordinal, which of
them are live, the ordinal of each key, the postings, the time order, the starts
along it, the position of each ordinal in it, the running maximum of the ends, and
the number of dead ordinals. `Index.BlockListRefinement` shows that together they
are a map from object key to block.

Ordinals are `Nat`: the source asserts that a tenant holds fewer than `2^32`
registrations, and its sentinel `NO_POSITION` is `none` here.
-/

open Std (ExtTreeMap ExtTreeSet)

namespace KrabkaO11y.Blockstore

/-- One block, as the index knows it. Its fingerprint set is not here, only the
size and a digest of it. -/
structure BlockEntry where
  objectKey : String
  minTs : Int64
  maxTs : Int64
  rowCount : UInt64
  fingerprintCount : UInt64
  fingerprintDigest : UInt64
  level : BlockLevel
deriving DecidableEq, Repr, Inhabited

/-- Whether the block's time span meets `[minTs, maxTs]`, inclusive at both ends. -/
def BlockEntry.overlaps (entry : BlockEntry) (minTs maxTs : Int64) : Bool :=
  decide (entry.minTs ≤ maxTs) && decide (entry.maxTs ≥ minTs)

/-- The entry's place in the time order. -/
def BlockEntry.orderKey (entry : BlockEntry) : BlockOrderKey :=
  blockOrderKey entry.minTs entry.maxTs entry.objectKey

/-- One fingerprint through the `SplitMix64` finaliser. -/
def mixFingerprint (fingerprint : SeriesFingerprint) : UInt64 :=
  let mixed := (fingerprint ^^^ (fingerprint >>> 30)) * 0xBF58476D1CE4E5B9
  let mixed := (mixed ^^^ (mixed >>> 27)) * 0x94D049BB133111EB
  mixed ^^^ (mixed >>> 31)

/-- An order-independent digest of a block's fingerprint set. -/
def fingerprintSetDigest (fingerprints : List SeriesFingerprint) : UInt64 :=
  fingerprints.foldl (fun digest fingerprint => digest + mixFingerprint fingerprint) 0

/-- The persisted shape of a block list: everything else is derived on load. -/
structure BlockListRepr where
  entries : List BlockEntry
  postings : ExtTreeMap SeriesFingerprint (List Nat)

structure BlockList where
  /-- Blocks by ordinal. Never reordered while an ordinal is referenced. -/
  entries : List BlockEntry := []
  /-- Whether the ordinal is still part of the index. -/
  live : List Bool := []
  byKey : ExtTreeMap String Nat := ∅
  /-- The ordinals of each fingerprint. The only copy of the pairs. -/
  postings : ExtTreeMap SeriesFingerprint (List Nat) := ∅
  /-- Live ordinals in time order. -/
  order : List Nat := []
  /-- The starts along `order`. -/
  minStart : List Int64 := []
  /-- The position of each ordinal in `order`. -/
  position : List (Option Nat) := []
  /-- The running maximum of the ends along `order`. -/
  maxEnd : List Int64 := []
  dead : Nat := 0

/-- `Vec::resize`. -/
def vecResize {α : Type} (xs : List α) (len : Nat) (fill : α) : List α :=
  xs.take len ++ List.replicate (len - xs.length) fill

namespace BlockList

/-- Number of live blocks. -/
def len (l : BlockList) : Nat := l.order.length

/-- The entry behind an ordinal, live or not. -/
def entry (l : BlockList) (ordinal : Nat) : BlockEntry := l.entries.getD ordinal default

/-! ### The time order -/

/-- One turn of the loop in `refresh_from`. -/
def refreshIndex (l : BlockList) (index : Nat) : BlockList :=
  let ordinal := l.order.getD index 0
  let previous := if index = 0 then Int64.minValue else l.maxEnd.getD (index - 1) 0
  { l with
    position := l.position.set ordinal (some index)
    minStart := l.minStart.set index (l.entry ordinal).minTs
    maxEnd := l.maxEnd.set index (max previous (l.entry ordinal).maxTs) }

/-- Recomputes the position map, the starts and the running maximum from `start` on. -/
def refreshFrom (l : BlockList) (start : Nat) : BlockList :=
  (List.range' start (l.order.length - start)).foldl refreshIndex
    { l with
      minStart := vecResize l.minStart l.order.length Int64.minValue
      maxEnd := vecResize l.maxEnd l.order.length Int64.minValue }

/-- Takes `ordinal` out of the time order and answers with the position it held,
or the end of the order when it held none. -/
def detach (l : BlockList) (ordinal : Nat) : Nat × BlockList :=
  match l.position.getD ordinal none with
  | none => (l.order.length, l)
  | some position =>
    (position, refreshFrom
      { l with order := l.order.eraseIdx position, position := l.position.set ordinal none }
      position)

/-- Puts a live `ordinal` back into the time order. -/
def attach (l : BlockList) (ordinal : Nat) : BlockList :=
  let key := (l.entry ordinal).orderKey
  let position := (l.order.takeWhile fun other => decide ((l.entry other).orderKey < key)).length
  refreshFrom { l with order := l.order.insertIdx position ordinal } position

/-- Takes `ordinal` out of the live set, and says whether it was live. -/
def retire (l : BlockList) (ordinal : Nat) : Bool × BlockList :=
  if l.live.getD ordinal false then
    let l := { l with live := l.live.set ordinal false, dead := l.dead + 1 }
    let l := (l.detach ordinal).2
    let key := (l.entry ordinal).objectKey
    (true, if l.byKey[key]? = some ordinal then { l with byKey := l.byKey.erase key } else l)
  else (false, l)

/-! ### Renumbering -/

/-- The first loop of `rebuild_derived`: a later registration of a key wins. -/
def rebuildKeys (l : BlockList) : ExtTreeMap String Nat :=
  (List.range l.entries.length).foldl
    (fun byKey ordinal =>
      if l.live.getD ordinal false then byKey.insert (l.entry ordinal).objectKey ordinal
      else byKey)
    ∅

/-- Rebuilds everything but the entries and the postings from the entries. -/
def rebuildDerived (l : BlockList) : BlockList :=
  let byKey := l.rebuildKeys
  let wins := fun ordinal => decide (byKey[(l.entry ordinal).objectKey]? = some ordinal)
  let ordinals := List.range l.entries.length
  refreshFrom
    { l with
      byKey := byKey
      live := ordinals.map wins
      dead := (ordinals.filter fun ordinal => !wins ordinal).length
      order := (ordinals.filter wins).mergeSort fun left right =>
        decide ((l.entry left).orderKey ≤ (l.entry right).orderKey)
      position := List.replicate l.entries.length none
      minStart := []
      maxEnd := [] }
    0

def ofRepr (repr : BlockListRepr) : BlockList :=
  rebuildDerived
    { entries := repr.entries
      live := List.replicate repr.entries.length true
      postings := repr.postings
      position := List.replicate repr.entries.length none }

/-- One turn of the loop that renumbers the live entries from zero. -/
def compactOrdinal (l : BlockList) (state : ExtTreeMap Nat Nat × List BlockEntry)
    (ordinal : Nat) : ExtTreeMap Nat Nat × List BlockEntry :=
  if l.live.getD ordinal false then
    (state.1.insert ordinal state.2.length, state.2 ++ [l.entry ordinal])
  else state

/-- The ordinals of a posting list that survive a renumbering, or nothing. -/
def remapOrdinals (remap : ExtTreeMap Nat Nat) (ordinals : List Nat) : Option (List Nat) :=
  let kept := ordinals.filterMap fun ordinal => remap[ordinal]?
  if kept.isEmpty then none else some kept

/-- A copy holding only the live blocks, renumbered from zero in ordinal order. -/
def compacted (l : BlockList) : BlockList :=
  let state := (List.range l.entries.length).foldl l.compactOrdinal (∅, [])
  ofRepr ⟨state.2, l.postings.filterMap fun _ ordinals => remapOrdinals state.1 ordinals⟩

def compactIfMostlyDead (l : BlockList) : BlockList :=
  if l.dead > l.order.length then l.compacted else l

/-! ### Registration -/

/-- The postings after a new ordinal is pushed under each of `fingerprints`. -/
def pushPostings (postings : ExtTreeMap SeriesFingerprint (List Nat)) (ordinal : Nat)
    (fingerprints : List SeriesFingerprint) : ExtTreeMap SeriesFingerprint (List Nat) :=
  fingerprints.foldl
    (fun postings fingerprint =>
      postings.alter fingerprint fun held => some (held.getD [] ++ [ordinal]))
    postings

/-- The entry of a restated block, rewritten in place. -/
def restateEntry (l : BlockList) (ordinal : Nat) (block : BlockMeta) : BlockList :=
  { l with
    entries := l.entries.set ordinal
      { l.entry ordinal with
        minTs := block.minTs
        maxTs := block.maxTs
        rowCount := block.rowCount
        level := block.level } }

/-- The branch of `insert` that restates a block with the series set it has: the
block moves only when its bounds did. -/
def restate (l : BlockList) (ordinal : Nat) (block : BlockMeta) : BlockList :=
  let entry := l.entry ordinal
  if entry.minTs ≠ block.minTs ∨ entry.maxTs ≠ block.maxTs then
    ((l.restateEntry ordinal block).detach ordinal).2.attach ordinal
  else l.restateEntry ordinal block

/-- The entry of a block registered with this fingerprint set. -/
def entryOf (block : BlockMeta) (fingerprints : ExtTreeSet SeriesFingerprint)
    (digest : UInt64) : BlockEntry where
  objectKey := block.objectKey
  minTs := block.minTs
  maxTs := block.maxTs
  rowCount := block.rowCount
  fingerprintCount := UInt64.ofNat fingerprints.size
  fingerprintDigest := digest
  level := block.level

/-- The pushes of `insert`: a new ordinal, not yet in the time order. -/
def push (l : BlockList) (block : BlockMeta) (fingerprints : ExtTreeSet SeriesFingerprint)
    (digest : UInt64) : BlockList :=
  { l with
    entries := l.entries ++ [entryOf block fingerprints digest]
    live := l.live ++ [true]
    position := l.position ++ [none]
    byKey := l.byKey.insert block.objectKey l.entries.length
    postings := pushPostings l.postings l.entries.length fingerprints.toList }

/-- The branch of `insert` that gives the block an ordinal of its own. -/
def append (l : BlockList) (block : BlockMeta) (fingerprints : ExtTreeSet SeriesFingerprint)
    (digest : UInt64) : BlockList :=
  ((l.push block fingerprints digest).attach l.entries.length).compactIfMostlyDead

/-- Records `block`, replacing whatever the same object key held before. -/
def insert (l : BlockList) (block : BlockMeta) : BlockList :=
  let fingerprints := ExtTreeSet.ofList block.fingerprints
  let digest := fingerprintSetDigest fingerprints.toList
  match l.byKey[block.objectKey]? with
  | some ordinal =>
    if (l.entry ordinal).fingerprintCount = UInt64.ofNat fingerprints.size ∧
        (l.entry ordinal).fingerprintDigest = digest then
      l.restate ordinal block
    else (l.retire ordinal).2.append block fingerprints digest
  | none => l.append block fingerprints digest

/-- One turn of the loop in `remove`. -/
def removeKey (state : Nat × BlockList) (key : String) : Nat × BlockList :=
  match state.2.byKey[key]? with
  | some ordinal =>
    let retired := state.2.retire ordinal
    (if retired.1 then state.1 + 1 else state.1, retired.2)
  | none => state

/-- Drops every block whose object key is in `keys`, and answers with how many live
blocks it dropped. -/
def remove (l : BlockList) (keys : ExtTreeSet String) : Nat × BlockList :=
  let state := keys.toList.foldl removeKey (0, l)
  (state.1, state.2.compactIfMostlyDead)

/-! ### Queries -/

/-- The half-open span of `order` that can hold a block overlapping the range. -/
def window (l : BlockList) (minTs maxTs : Int64) : Verified.OverlapWindow :=
  Verified.overlapWindow l.minStart l.maxEnd minTs maxTs

/-- `order[lo..hi]`. -/
def orderSlice (l : BlockList) (lo hi : Nat) : List Nat := (l.order.take hi).drop lo

def keysInWindow (l : BlockList) (lo hi : Nat) (minTs maxTs : Int64) (keep : Nat → Bool) :
    List String :=
  (((l.orderSlice lo hi).filter keep).map l.entry).filter (·.overlaps minTs maxTs)
    |>.map (·.objectKey)

/-- Marks the ordinals of one posting list that lie in the window. The flag says
that every block of the window is marked, which ends both loops. -/
def markOrdinals (l : BlockList) (lo hi : Nat) : List Nat → List Bool → Nat →
    List Bool × Nat × Bool
  | [], hit, found => (hit, found, false)
  | ordinal :: rest, hit, found =>
    match l.position.getD ordinal none with
    | none => l.markOrdinals lo hi rest hit found
    | some position =>
      if position < lo ∨ position ≥ hi ∨ hit.getD ordinal false = true then
        l.markOrdinals lo hi rest hit found
      else if found + 1 = hi - lo then (hit.set ordinal true, found + 1, true)
      else l.markOrdinals lo hi rest (hit.set ordinal true) (found + 1)

/-- The loop over the fingerprints of a query. -/
def markFingerprints (l : BlockList) (lo hi : Nat) : List SeriesFingerprint → List Bool → Nat →
    List Bool
  | [], hit, _ => hit
  | fingerprint :: rest, hit, found =>
    match l.postings[fingerprint]? with
    | none => l.markFingerprints lo hi rest hit found
    | some ordinals =>
      match l.markOrdinals lo hi ordinals hit found with
      | (hit, _, true) => hit
      | (hit, found, false) => l.markFingerprints lo hi rest hit found

/-- Object keys of the blocks that overlap `[minTs, maxTs]` and carry at least one
fingerprint in `fps`, in time order. -/
def candidateBlocks (l : BlockList) (fps : ExtTreeSet SeriesFingerprint) (minTs maxTs : Int64) :
    List String :=
  let window := l.window minTs maxTs
  if window.start ≥ window.stop ∨ fps.isEmpty = true then []
  else
    let hit := l.markFingerprints window.start window.stop fps.toList
      (List.replicate l.entries.length false) 0
    l.keysInWindow window.start window.stop minTs maxTs fun ordinal => hit.getD ordinal false

/-- Object keys of the blocks that overlap `[minTs, maxTs]`, in time order. -/
def blocksInRange (l : BlockList) (minTs maxTs : Int64) : List String :=
  let window := l.window minTs maxTs
  l.keysInWindow window.start window.stop minTs maxTs fun _ => true

/-- The live ordinals whose blocks overlap `[minTs, maxTs]`, in time order. -/
def ordinalsOverlapping (l : BlockList) (minTs maxTs : Int64) : List Nat :=
  let window := l.window minTs maxTs
  (l.orderSlice window.start window.stop).filter fun ordinal =>
    (l.entry ordinal).overlaps minTs maxTs

/-- One step of the fold in `time_bounds`. -/
def widenBounds (bounds : Option BlockTimeBounds) (minTs maxTs : Int64) :
    Option BlockTimeBounds :=
  match bounds with
  | some bounds => some ⟨min bounds.minTs minTs, max bounds.maxTs maxTs⟩
  | none => some ⟨minTs, maxTs⟩

/-- The tightest bounds across the blocks that overlap `[minTs, maxTs]`. -/
def timeBounds (l : BlockList) (minTs maxTs : Int64) : Option BlockTimeBounds :=
  ((l.ordinalsOverlapping minTs maxTs).map l.entry).foldl
    (fun bounds entry => widenBounds bounds entry.minTs entry.maxTs) none

/-- The fingerprints of each live block, by ordinal: one pass over the postings. -/
def fingerprintsByOrdinal (l : BlockList) : ExtTreeMap Nat (List SeriesFingerprint) :=
  l.postings.toList.foldl
    (fun byOrdinal posting => posting.2.foldl
      (fun byOrdinal ordinal =>
        if l.live.getD ordinal false then
          byOrdinal.alter ordinal fun held => some (held.getD [] ++ [posting.1])
        else byOrdinal)
      byOrdinal)
    ∅

/-- Every live block as a `BlockMeta`, in time order. -/
def metas (l : BlockList) (tenant : String) : List BlockMeta :=
  let fingerprints := l.fingerprintsByOrdinal
  l.order.map fun ordinal =>
    let entry := l.entry ordinal
    { tenant := tenant
      objectKey := entry.objectKey
      minTs := entry.minTs
      maxTs := entry.maxTs
      rowCount := entry.rowCount
      fingerprints := fingerprints[ordinal]?.getD []
      level := entry.level }

/-- How many rounds of compaction produced the live block at `objectKey`. -/
def levelOf (l : BlockList) (objectKey : String) : Option BlockLevel :=
  l.byKey[objectKey]?.map fun ordinal => (l.entry ordinal).level

/-- Every fingerprint the list holds a posting of a live block for. -/
def liveFingerprints (l : BlockList) : ExtTreeSet SeriesFingerprint :=
  ExtTreeSet.ofList ((l.postings.filter fun _ ordinals =>
    ordinals.any fun ordinal => l.live.getD ordinal false).keys)

end BlockList

end KrabkaO11y.Blockstore
