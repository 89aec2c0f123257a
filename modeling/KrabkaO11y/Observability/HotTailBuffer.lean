import Mathlib.Data.List.Basic
import KrabkaO11y.Observability.Frontier

/-!
The hot tail of the log querier (`crates/observability/src/wal/hot_tail/hot_tail_buffer.rs`):
records in the order of their arrival, and an index of their positions by time bucket.
-/

open Std (ExtTreeMap)

namespace KrabkaO11y.Observability

/-- A value held by `Arc`. The allocation tells two holdings of equal values apart. -/
structure Shared (α : Type) where
  allocation : Nat
  value : α
deriving DecidableEq, Repr

def hotTailBucketKey (timestampNs bucketWidthNs : Int) : Int := Int.ediv timestampNs bucketWidthNs

structure HotTailBuffer where
  bucketWidthNs : Int := 60000000000
  records : List (Shared WalLogRecord) := []
  buckets : ExtTreeMap Int (List Nat) := ∅

namespace HotTailBuffer

/-- The empty buffer of a configured bucket width. -/
def withBucketWidth (bucketWidthNs : Int) : HotTailBuffer := { bucketWidthNs }

def bucketOf (bucketWidthNs : Int) (record : Shared WalLogRecord) : Int :=
  hotTailBucketKey record.value.timestampNs bucketWidthNs

/-- `buckets.entry(bucket).or_default().push(index)`. -/
def pushIndex (buckets : ExtTreeMap Int (List Nat)) (bucket : Int) (index : Nat) :
    ExtTreeMap Int (List Nat) :=
  buckets.insert bucket ((buckets[bucket]?).getD [] ++ [index])

section

variable (buffer : HotTailBuffer)

def push (record : Shared WalLogRecord) : HotTailBuffer :=
  { buffer with
    records := buffer.records ++ [record]
    buckets := pushIndex buffer.buckets (bucketOf buffer.bucketWidthNs record)
      buffer.records.length }

/-- The index of some records, from the position of the first of them on. -/
def indexFrom (bucketWidthNs : Int) :
    Nat → List (Shared WalLogRecord) → ExtTreeMap Int (List Nat) → ExtTreeMap Int (List Nat)
  | _, [], buckets => buckets
  | index, record :: rest, buckets =>
    indexFrom bucketWidthNs (index + 1) rest
      (pushIndex buckets (bucketOf bucketWidthNs record) index)

def rebuildBuckets : HotTailBuffer :=
  { buffer with buckets := indexFrom buffer.bucketWidthNs 0 buffer.records ∅ }

/-- Drops the records that the frontier calls compacted. -/
def pruneCompacted (frontier : CompactionFrontier) :
    HotTailBuffer × Nat :=
  let before := buffer.records.length
  let records := buffer.records.filter fun record => !frontier.isCompacted record.value
  let pruned := before - records.length
  if pruned > 0 then (({ buffer with records := records }).rebuildBuckets, pruned)
  else ({ buffer with records := records }, pruned)

@[simp] theorem records_push (record : Shared WalLogRecord) :
    (buffer.push record).records = buffer.records ++ [record] := rfl

@[simp] theorem records_pruneCompacted (frontier : CompactionFrontier) :
    (buffer.pruneCompacted frontier).1.records =
      buffer.records.filter fun record => !frontier.isCompacted record.value := by
  rw [pruneCompacted]
  split <;> rfl

/-! ### The index -/

/-- The index is the one that a rebuild from the records gives. -/
def Indexed : Prop := buffer.rebuildBuckets = buffer

end

theorem indexFrom_append (bucketWidthNs : Int) (front back : List (Shared WalLogRecord)) :
    ∀ (index : Nat) (buckets : ExtTreeMap Int (List Nat)),
      indexFrom bucketWidthNs index (front ++ back) buckets =
        indexFrom bucketWidthNs (index + front.length) back
          (indexFrom bucketWidthNs index front buckets) := by
  induction front with
  | nil => exact fun _ _ => rfl
  | cons record rest ih =>
    intro index buckets
    rw [List.cons_append, indexFrom, ih, indexFrom, List.length_cons, Nat.add_assoc,
      Nat.add_comm 1]

variable {buffer : HotTailBuffer}

theorem indexed_iff :
    buffer.Indexed ↔ buffer.buckets = indexFrom buffer.bucketWidthNs 0 buffer.records ∅ := by
  cases buffer
  simp only [Indexed, rebuildBuckets, mk.injEq, true_and, eq_comm]

theorem indexed_withBucketWidth (bucketWidthNs : Int) :
    (withBucketWidth bucketWidthNs).Indexed := rfl

theorem indexed_rebuildBuckets (buffer : HotTailBuffer) : buffer.rebuildBuckets.Indexed := rfl

theorem Indexed.push (h : buffer.Indexed) (record : Shared WalLogRecord) :
    (buffer.push record).Indexed := by
  rw [indexed_iff] at h ⊢
  rw [records_push, indexFrom_append, Nat.zero_add]
  exact congrArg (pushIndex · (bucketOf buffer.bucketWidthNs record) buffer.records.length) h

/-- A prune that drops nothing leaves the index it had, which is the one it would rebuild. -/
theorem Indexed.pruneCompacted (h : buffer.Indexed) (frontier : CompactionFrontier) :
    (buffer.pruneCompacted frontier).1.Indexed := by
  rw [HotTailBuffer.pruneCompacted]
  split
  · exact indexed_rebuildBuckets _
  · rename_i hprn
    have hk : buffer.records.length ≤
        (buffer.records.filter fun record => !frontier.isCompacted record.value).length := by
      omega
    rw [List.filter_sublist.eq_of_length_le hk]
    exact h

end HotTailBuffer

end KrabkaO11y.Observability
