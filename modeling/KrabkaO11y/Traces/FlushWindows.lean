import Mathlib.Tactic

/-!
What the trace block builder buffers between two flushes, and the blocks it makes of it
(`crates/traces/src/blockbuilder/wal_consumer.rs`, `flush.rs`, `build_blocks.rs`).

A window holds the decoded spans of one partition and the offsets of the first and the last of
them. `Holds` says that a window is all there is between two offsets of the log. Windows of
adjacent stretches merge to a window of both (`Holds.combine`), so what is buffered after any
number of polls is again a stretch of the log, and the object key of a block determines the spans
in it (`Stretch.rows`).

The partitions are `Fin n` and the maps over them are functions. A record that fails the format
check or does not decode is `unreadable`: either stops the role. The tenant is a whole segment of
an object key, escaped so that it reads back, so keys are records here.
-/

namespace KrabkaO11y.Traces.Builder

open List

variable {n : Nat} {α : Type}

/-! ### Records -/

/-- A span; `body` is what no step of the builder reads. -/
structure Span (α : Type) where
  traceId : Nat
  spanId : Nat
  startNs : Int
  body : α
deriving DecidableEq, Repr

structure SpanRecord (α : Type) where
  tenant : String
  span : Span α
deriving DecidableEq, Repr

inductive WalValue (α : Type) where
  | tombstone
  | unreadable
  | span (record : SpanRecord α)
deriving DecidableEq, Repr

structure ConsumerRecord (n : Nat) (α : Type) where
  partition : Fin n
  offset : Nat
  value : WalValue α
deriving DecidableEq, Repr

def WalValue.span? : WalValue α → Option (SpanRecord α)
  | .tombstone => none
  | .unreadable => none
  | .span record => some record

/-- The spans of a log from one offset up to another. -/
def spansBetween (log : List (WalValue α)) (lo hi : Nat) : List (SpanRecord α) :=
  ((log.take hi).drop lo).filterMap WalValue.span?

section Between

variable {log : List (WalValue α)} {lo mid hi o : Nat} {record : SpanRecord α}

theorem spansBetween_self : spansBetween log lo lo = [] := by
  simp [spansBetween]

theorem spansBetween_append (hlo : lo ≤ mid) (hhi : mid ≤ hi) :
    spansBetween log lo hi = spansBetween log lo mid ++ spansBetween log mid hi := by
  have hsp : hi - lo = (mid - lo) + (hi - mid) := by omega
  have hmid : lo + (mid - lo) = mid := by omega
  simp only [spansBetween, drop_take, hsp, take_add, filterMap_append,
    drop_drop, hmid]

/-- What is appended to a log changes no stretch of it. -/
theorem spansBetween_of_prefix_log {rest : List (WalValue α)} (hhi : hi ≤ log.length) :
    spansBetween (log ++ rest) lo hi = spansBetween log lo hi := by
  rw [spansBetween, take_append_of_le_length hhi, spansBetween]

theorem spansBetween_succ :
    spansBetween log o (o + 1) = (log[o]?.bind WalValue.span?).toList := by
  rw [spansBetween, drop_take, Nat.add_sub_cancel_left, take_one, head?_drop]
  cases log[o]? with
  | none => rfl
  | some value => cases h : value.span? <;> simp [h]

theorem mem_spansBetween (hlo : lo ≤ o) (hhi : o < hi)
    (hspan : log[o]? = some (.span record)) : record ∈ spansBetween log lo hi := by
  rw [spansBetween_append hlo hhi.le, spansBetween_append (Nat.le_succ o) hhi, spansBetween_succ,
    hspan]
  simp [WalValue.span?]

end Between

/-! ### Windows -/

/-- Decoded records of one partition and their inclusive offset range. -/
structure PartitionWindow (α : Type) where
  minOffset : Nat
  maxOffset : Nat
  records : List (SpanRecord α)
deriving DecidableEq, Repr

abbrev Windows (n : Nat) (α : Type) : Type := Fin n → Option (PartitionWindow α)

namespace PartitionWindow

def push (window : PartitionWindow α) (offset : Nat) (record : SpanRecord α) :
    PartitionWindow α where
  minOffset := min window.minOffset offset
  maxOffset := max window.maxOffset offset
  records := window.records ++ [record]

def widen (buffered incoming : PartitionWindow α) : PartitionWindow α where
  minOffset := min buffered.minOffset incoming.minOffset
  maxOffset := max buffered.maxOffset incoming.maxOffset
  records := buffered.records ++ incoming.records

end PartitionWindow

def decodeRecord (windows : Windows n α) (record : ConsumerRecord n α) : Option (Windows n α) :=
  match record.value with
  | .unreadable => none
  | .tombstone => some windows
  | .span span =>
    let window := (windows record.partition).getD ⟨record.offset, record.offset, []⟩
    some (Function.update windows record.partition (some (window.push record.offset span)))

/-- `none` when a record is not readable. -/
def decodeConsumerRecords (records : List (ConsumerRecord n α)) : Option (Windows n α) :=
  records.foldlM decodeRecord fun _ => none

/-- The entry of a partition after a merge. -/
def combine : Option (PartitionWindow α) → Option (PartitionWindow α) →
    Option (PartitionWindow α)
  | none, incoming => incoming
  | some buffered, none => some buffered
  | some buffered, some incoming => some (buffered.widen incoming)

/-- A merge skips a partition without records. -/
def nonEmpty : Option (PartitionWindow α) → Option (PartitionWindow α)
  | none => none
  | some window => if window.records = [] then none else some window

/-- The window is what the log holds from `lo` up to `hi`. -/
inductive Holds (log : List (WalValue α)) (lo hi : Nat) : Option (PartitionWindow α) → Prop where
  | nothing : spansBetween log lo hi = [] → Holds log lo hi none
  | window {window : PartitionWindow α} : lo ≤ window.minOffset →
      window.minOffset ≤ window.maxOffset → window.maxOffset < hi →
      spansBetween log lo window.minOffset = [] →
      window.records = spansBetween log window.minOffset (window.maxOffset + 1) →
      spansBetween log (window.maxOffset + 1) hi = [] → Holds log lo hi (some window)

section Holds

variable {log : List (WalValue α)} {lo mid hi o : Nat} {x y : Option (PartitionWindow α)}
  {window : PartitionWindow α}

theorem Holds.empty : Holds log lo lo none := .nothing spansBetween_self

theorem Holds.extend {rest : List (WalValue α)} (hhi : hi ≤ log.length)
    (h : Holds log lo hi x) : Holds (log ++ rest) lo hi x := by
  cases h with
  | nothing hno => exact .nothing (by rw [spansBetween_of_prefix_log hhi, hno])
  | window hmin hle hmax hbef hrc ha =>
    refine .window hmin hle hmax ?_ ?_ ?_
    · rw [spansBetween_of_prefix_log (by omega), hbef]
    · rw [spansBetween_of_prefix_log (by omega), hrc]
    · rw [spansBetween_of_prefix_log hhi, ha]

/-- Windows of adjacent stretches merge to the window of both. -/
theorem Holds.combine (hlo : lo ≤ mid) (hhi : mid ≤ hi) (hx : Holds log lo mid x)
    (hy : Holds log mid hi y) : Holds log lo hi (combine x y) := by
  cases hx with
  | nothing hno =>
    cases hy with
    | nothing hno' => exact .nothing (by rw [spansBetween_append hlo hhi, hno, hno']; rfl)
    | window hmin hle hmax hbef hrc ha =>
      refine .window (hlo.trans hmin) hle hmax ?_ hrc ha
      rw [spansBetween_append hlo hmin, hno, hbef]
      rfl
  | @window buffered hmin hle hmax hbef hrc ha =>
    cases hy with
    | nothing hno' =>
      refine .window hmin hle (by omega) hbef hrc ?_
      rw [spansBetween_append hmax hhi, ha, hno']
      rfl
    | @window incoming hmin' hle' hmax' hbef' hrc' ha' =>
      have hmi : min buffered.minOffset incoming.minOffset = buffered.minOffset := by omega
      have hma : max buffered.maxOffset incoming.maxOffset = incoming.maxOffset := by omega
      refine .window ?_ ?_ ?_ ?_ ?_ ?_ <;>
        simp only [PartitionWindow.widen, hmi, hma]
      · exact hmin
      · omega
      · exact hmax'
      · exact hbef
      · -- the gap between the two windows lies in the rests that hold no span
        rw [spansBetween_append (show buffered.minOffset ≤ buffered.maxOffset + 1 by omega)
          (show buffered.maxOffset + 1 ≤ incoming.maxOffset + 1 by omega),
          spansBetween_append hmax (show mid ≤ incoming.maxOffset + 1 by omega),
          spansBetween_append hmin' (show incoming.minOffset ≤ incoming.maxOffset + 1 by omega),
          ha, hbef', ← hrc, ← hrc']
        rfl
      · exact ha'

theorem Holds.nonEmpty (h : Holds log lo hi x) : Holds log lo hi (nonEmpty x) := by
  cases h with
  | nothing hno => exact .nothing hno
  | @window window hmin hle hmax hbef hrc ha =>
    by_cases hem : window.records = []
    · simp only [Builder.nonEmpty, if_pos hem]
      refine .nothing ?_
      rw [spansBetween_append hmin (show window.minOffset ≤ hi by omega),
        spansBetween_append (show window.minOffset ≤ window.maxOffset + 1 by omega) hmax,
        hbef, ← hrc, hem, ha]
      rfl
    · simp only [Builder.nonEmpty, if_neg hem]
      exact .window hmin hle hmax hbef hrc ha

/-- A window covers every span of its stretch. -/
theorem Holds.covers {record : SpanRecord α} (h : Holds log lo hi x) (hlo : lo ≤ o) (hhi : o < hi)
    (hspan : log[o]? = some (.span record)) :
    ∃ window, x = some window ∧ window.minOffset ≤ o ∧ o ≤ window.maxOffset ∧
      record ∈ window.records := by
  cases h with
  | nothing hno => exact absurd (mem_spansBetween hlo hhi hspan) (by simp [hno])
  | @window window hmin hle hmax hbef hrc ha =>
    have hf : window.minOffset ≤ o := by
      by_contra hlt
      exact absurd (mem_spansBetween hlo (not_le.mp hlt) hspan) (by simp [hbef])
    have hl : o ≤ window.maxOffset := by
      by_contra hlt
      exact absurd (mem_spansBetween (not_le.mp hlt) hhi hspan) (by simp [ha])
    refine ⟨window, rfl, hf, hl, ?_⟩
    rw [hrc]
    exact mem_spansBetween hf (Nat.lt_succ_of_le hl) hspan

/-- Decoding one more record merges in the window of that record. -/
theorem decodeRecord_holds {windows windows' : Windows n α} {record : ConsumerRecord n α}
    (h : decodeRecord windows record = some windows')
    (hrec : log[record.offset]? = some record.value) :
    ∃ window, Holds log record.offset (record.offset + 1) window ∧
      windows' = Function.update windows record.partition
        (Builder.combine (windows record.partition) window) := by
  unfold decodeRecord at h
  cases hval : record.value with
  | unreadable => simp [hval] at h
  | tombstone =>
    rw [hval] at h hrec
    cases h
    refine ⟨none, .nothing ?_, ?_⟩
    · simp [spansBetween_succ, hrec, WalValue.span?]
    · cases hbu : windows record.partition <;>
        simp [Builder.combine, ← hbu]
  | span span =>
    rw [hval] at h hrec
    cases h
    refine ⟨some ⟨record.offset, record.offset, [span]⟩,
      .window le_rfl le_rfl (Nat.lt_succ_self _) spansBetween_self ?_ spansBetween_self, ?_⟩
    · simp [spansBetween_succ, hrec, WalValue.span?]
    · cases hbu : windows record.partition <;>
        simp [Builder.combine, PartitionWindow.push, PartitionWindow.widen]

end Holds

/-! ### The accumulator -/

structure BlockBuilderConfig where
  flushMaxRecords : Nat
  flushMaxAge : Nat
deriving DecidableEq, Repr

structure FlushAccumulator (n : Nat) (α : Type) where
  windows : Windows n α := fun _ => none
  recordCount : Nat := 0
  oldestRecordAt : Option Nat := none

def windowSize : Option (PartitionWindow α) → Nat
  | none => 0
  | some window => window.records.length

def recordsIn (windows : Windows n α) : Nat :=
  ((List.finRange n).map fun p => windowSize (windows p)).sum

namespace FlushAccumulator

variable (accumulator : FlushAccumulator n α)

def isEmpty : Bool := accumulator.recordCount = 0

def merge (windows : Windows n α) (now : Nat) :
    FlushAccumulator n α where
  windows p := combine (accumulator.windows p) (nonEmpty (windows p))
  recordCount := accumulator.recordCount + recordsIn windows
  oldestRecordAt :=
    if accumulator.oldestRecordAt = none ∧ 0 < recordsIn windows then some now
    else accumulator.oldestRecordAt

def removePartitions (partitions : Finset (Fin n)) :
    FlushAccumulator n α :=
  let recordCount := accumulator.recordCount -
    recordsIn fun p => if p ∈ partitions then accumulator.windows p else none
  { windows := fun p => if p ∈ partitions then none else accumulator.windows p
    recordCount := recordCount
    oldestRecordAt := if recordCount = 0 then none else accumulator.oldestRecordAt }

def shouldFlush (config : BlockBuilderConfig) (now : Nat) :
    Bool :=
  if accumulator.recordCount = 0 then false
  else if config.flushMaxRecords ≤ accumulator.recordCount then true
  else match accumulator.oldestRecordAt with
    | some oldest => config.flushMaxAge ≤ now - oldest
    | none => false

end FlushAccumulator

/-! ### Blocks -/

structure ObjectKey (n : Nat) where
  tenant : String
  partition : Fin n
  minOffset : Nat
  maxOffset : Nat
  windowStartNs : Int
deriving DecidableEq, Repr

structure Block (n : Nat) (α : Type) where
  objectKey : ObjectKey n
  rows : List (Span α)
deriving DecidableEq, Repr

/-- The spans of one trace, by start and span id. -/
def spansOfTrace (tenant : String) (records : List (SpanRecord α)) (traceId : Nat) :
    List (Span α) :=
  ((records.filter fun record => record.tenant = tenant ∧ record.span.traceId = traceId).map
    SpanRecord.span).insertionSort fun a b =>
      a.startNs < b.startNs ∨ (a.startNs = b.startNs ∧ a.spanId ≤ b.spanId)

def tracesOf (tenant : String) (records : List (SpanRecord α)) : List Nat :=
  ((records.filter fun record => record.tenant = tenant).map
    fun record => record.span.traceId).dedup.insertionSort (· ≤ ·)

def rowsOf (tenant : String) (records : List (SpanRecord α)) : List (Span α) :=
  (tracesOf tenant records).flatMap (spansOfTrace tenant records)

variable {record : SpanRecord α} {records : List (SpanRecord α)}

theorem mem_rowsOf
    (h : record ∈ records) : record.span ∈ rowsOf record.tenant records := by
  refine mem_flatMap.mpr ⟨record.span.traceId, ?_, ?_⟩
  · rw [tracesOf, mem_insertionSort, mem_dedup]
    exact mem_map.mpr ⟨record, mem_filter.mpr ⟨h, by simp⟩, rfl⟩
  · rw [spansOfTrace, mem_insertionSort]
    exact mem_map.mpr ⟨record, mem_filter.mpr ⟨h, by simp⟩, rfl⟩

def buildBlock (p : Fin n) (window : PartitionWindow α) (tenant : String) : Block n α :=
  let rows := rowsOf tenant window.records
  { objectKey :=
      { tenant := tenant
        partition := p
        minOffset := window.minOffset
        maxOffset := window.maxOffset
        windowStartNs := (rows.map Span.startNs).foldl min (2 ^ 63 - 1) }
    rows := rows }

def tenantsInRecords (records : List (SpanRecord α)) : List String :=
  (records.map SpanRecord.tenant).dedup.insertionSort (· ≤ ·)

theorem mem_tenantsInRecords
    (h : record ∈ records) : record.tenant ∈ tenantsInRecords records := by
  rw [tenantsInRecords, mem_insertionSort, mem_dedup]
  exact mem_map_of_mem h

/-- The blocks that a flush writes, in the order of the partitions and their tenants. -/
def partitionBlocks (p : Fin n) : Option (PartitionWindow α) → List (Block n α)
  | none => []
  | some window => (tenantsInRecords window.records).map (buildBlock p window)

def flushPartitionWindows (windows : Windows n α) : List (Block n α) :=
  (List.finRange n).flatMap fun p => partitionBlocks p (windows p)

/-- The rows are the spans of the tenant in the stretch of the log that the key names. -/
structure Stretch (logs : Fin n → List (WalValue α)) (block : Block n α) : Prop where
  within : block.objectKey.maxOffset < (logs block.objectKey.partition).length
  rows : block.rows = rowsOf block.objectKey.tenant
    (spansBetween (logs block.objectKey.partition) block.objectKey.minOffset
      (block.objectKey.maxOffset + 1))

/-- The block is the one for a span. -/
structure Covers (key : ObjectKey n) (p : Fin n) (o : Nat) (record : SpanRecord α) : Prop where
  partition : key.partition = p
  tenant : key.tenant = record.tenant
  first : key.minOffset ≤ o
  last : o ≤ key.maxOffset

section Flush

variable {logs : Fin n → List (WalValue α)} {windows : Windows n α} {lo hi : Fin n → Nat}
  {block : Block n α} {p : Fin n} {o : Nat} {record : SpanRecord α}

theorem mem_flushPartitionWindows : block ∈ flushPartitionWindows windows ↔
    ∃ p window, windows p = some window ∧
      ∃ tenant ∈ tenantsInRecords window.records, block = buildBlock p window tenant := by
  rw [flushPartitionWindows, mem_flatMap]
  constructor
  · rintro ⟨p, -, hb⟩
    cases hwin : windows p with
    | none => simp [hwin, partitionBlocks] at hb
    | some window =>
      rw [hwin] at hb
      obtain ⟨tenant, hten, rfl⟩ := mem_map.mp hb
      exact ⟨p, window, hwin, tenant, hten, rfl⟩
  · rintro ⟨p, window, hwin, tenant, hten, rfl⟩
    refine ⟨p, mem_finRange p, ?_⟩
    rw [hwin]
    exact mem_map_of_mem hten

theorem Stretch.extend {logs' : Fin n → List (WalValue α)} (hlogs : ∀ p, logs p <+: logs' p)
    (h : Stretch logs block) : Stretch logs' block := by
  obtain ⟨rest, hr⟩ := hlogs block.objectKey.partition
  refine ⟨lt_of_lt_of_le h.within (hlogs _).length_le, ?_⟩
  rw [← hr, spansBetween_of_prefix_log h.within, h.rows]

/-- A flushed block holds a stretch of the log. -/
theorem stretch_of_mem (hh : ∀ p, Holds (logs p) (lo p) (hi p) (windows p))
    (hw : ∀ p window, windows p = some window → hi p ≤ (logs p).length)
    (hb : block ∈ flushPartitionWindows windows) : Stretch logs block := by
  obtain ⟨p, window, hwin, tenant, -, rfl⟩ := mem_flushPartitionWindows.mp hb
  have hh := hh p
  rw [hwin] at hh
  cases hh with
  | window hmin hle hmax hbef hrc ha =>
    refine ⟨lt_of_lt_of_le hmax (hw p window hwin), ?_⟩
    simp only [buildBlock, hrc]

/-- Every span of the buffered stretches is in one of the flushed blocks. -/
theorem covers_of_holds (hh : Holds (logs p) (lo p) (hi p) (windows p)) (hlo : lo p ≤ o)
    (hhi : o < hi p) (hspan : (logs p)[o]? = some (.span record)) :
    ∃ block ∈ flushPartitionWindows windows, Covers block.objectKey p o record := by
  obtain ⟨window, hwin, hf, hl, hrec⟩ := hh.covers hlo hhi hspan
  exact ⟨buildBlock p window record.tenant, mem_flushPartitionWindows.mpr
    ⟨p, window, hwin, record.tenant, mem_tenantsInRecords hrec, rfl⟩,
    ⟨rfl, rfl, hf, hl⟩⟩

/-- The block of a span holds it. -/
theorem Stretch.mem_rows (h : Stretch logs block) (hcov : Covers block.objectKey p o record)
    (hspan : (logs p)[o]? = some (.span record)) : record.span ∈ block.rows := by
  obtain rfl := hcov.partition
  rw [h.rows, hcov.tenant]
  exact mem_rowsOf (mem_spansBetween hcov.first (Nat.lt_succ_of_le hcov.last) hspan)

end Flush

end KrabkaO11y.Traces.Builder
