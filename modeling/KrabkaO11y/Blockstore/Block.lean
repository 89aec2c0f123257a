import Mathlib

/-!
Block records of the block store (`crates/blockstore/src/block.rs`,
`compaction/block_level.rs`, `compaction.rs`).

A `u32`, `u64` or `i64` of the source is the fixed-width type here, and a `usize`
that is stored as data is a `UInt64`. A `BTreeMap` is a `Std.ExtTreeMap` and a
`BTreeSet` a `Std.ExtTreeSet`, both iterated in key order.
-/

namespace KrabkaO11y.Blockstore

instance lawfulOrderMaxInt64 : Std.LawfulOrderMax Int64 :=
  Std.LawfulOrderMax.of_max_le_iff
    (fun a b c => by change (if a ≤ b then b else a) ≤ c ↔ _; grind)
    (fun a b => by change (if a ≤ b then b else a) = a ∨ (if a ≤ b then b else a) = b; grind)

/-- A series fingerprint. -/
abbrev SeriesFingerprint := UInt64

/-- How many rounds of compaction produced a block. -/
structure BlockLevel where
  get : UInt32
deriving DecidableEq, Repr, Inhabited

namespace BlockLevel

/-- The level of a block written straight from ingested data. -/
def ingested : BlockLevel := ⟨0⟩

/-- The level of the block that compacting blocks at this level produces. The
addition saturates. -/
def next (level : BlockLevel) : BlockLevel :=
  if level.get = 0xFFFFFFFF then level else ⟨level.get + 1⟩

end BlockLevel

/-- Metadata recorded for each written block. -/
structure BlockMeta where
  tenant : String
  objectKey : String
  minTs : Int64
  maxTs : Int64
  rowCount : UInt64
  fingerprints : List SeriesFingerprint
  level : BlockLevel
deriving DecidableEq, Repr, Inhabited

/-- The tightest time bounds across some blocks. -/
structure BlockTimeBounds where
  minTs : Int64
  maxTs : Int64
deriving DecidableEq, Repr

/-- The order of blocks in a list: by start, then by end, then by object key. -/
abbrev BlockOrderKey := Int ×ₗ Int ×ₗ String

/-- The place of a block with these bounds and this key in the block order. -/
def blockOrderKey (minTs maxTs : Int64) (objectKey : String) : BlockOrderKey :=
  toLex (minTs.toInt, toLex (maxTs.toInt, objectKey))

theorem blockOrderKey_inj {a b c d : Int64} {k k' : String}
    (h : blockOrderKey a b k = blockOrderKey c d k') : a = c ∧ b = d ∧ k = k' := by
  simp only [blockOrderKey, EmbeddingLike.apply_eq_iff_eq, Prod.mk.injEq] at h
  exact ⟨Int64.toInt_inj.mp h.1, Int64.toInt_inj.mp h.2.1, h.2.2⟩

/-- A block that comes no later in the order starts no later. -/
theorem minTs_le_of_blockOrderKey_le {a b c d : Int64} {k k' : String}
    (h : blockOrderKey a b k ≤ blockOrderKey c d k') : a ≤ c := by
  rw [blockOrderKey, blockOrderKey, Prod.Lex.toLex_le_toLex] at h
  rw [Int64.le_iff_toInt_le]
  rcases h with h | h
  · exact Int.le_of_lt h
  · exact Int.le_of_eq h.1

end KrabkaO11y.Blockstore
