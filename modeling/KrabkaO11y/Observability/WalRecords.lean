import Mathlib.Tactic

/-!
Log records of the WAL and how a batch of them is cut into blocks
(`crates/observability/src/compactor/delete_materialization.rs`, `compactor/frontier.rs`).

`walCompactionChunks` cuts a polled batch into runs of one tenant and partition, and
`compactionKey` names the block that a run is written to.
-/

namespace KrabkaO11y.Observability

open List

structure WalPosition where
  partition : Nat
  offset : Int
deriving DecidableEq, Repr

structure WalLogRecord where
  tenant : String
  labels : List (String × String)
  timestampNs : Int
  line : String
  structuredMetadata : List (String × String)
  position : Option WalPosition
deriving DecidableEq, Repr

structure TimeRange where
  startNs : Int
  endNs : Int
deriving DecidableEq, Repr

def TimeRange.overlaps (range other : TimeRange) : Bool :=
  decide (range.startNs ≤ other.endNs) && decide (other.startNs ≤ range.endNs)

/-- A timestamp lies in the range, both ends included. -/
def TimeRange.covers (range : TimeRange) (timestampNs : Int) : Bool :=
  decide (range.startNs ≤ timestampNs) && decide (timestampNs ≤ range.endNs)

structure BlockKey where
  tenant : String
  partition : Nat
  firstOffset : Int
  lastOffset : Int
  timeRange : TimeRange
deriving DecidableEq, Repr

inductive CompactionError where
  | emptyWalBatch
  | missingWalPosition (timestampNs : Int)
  | mixedTenant (expected actual : String)
  | mixedPartition (expected actual : Nat)
deriving DecidableEq, Repr

/-! ### The key of a block -/

/-- One pass of the loop that widens the offsets and times over a record. -/
def widenKey (key : BlockKey) (record : WalLogRecord) : Except CompactionError BlockKey :=
  if record.tenant ≠ key.tenant then
    .error (.mixedTenant key.tenant record.tenant)
  else
    match record.position with
    | none => .error (.missingWalPosition record.timestampNs)
    | some position =>
      if position.partition ≠ key.partition then
        .error (.mixedPartition key.partition position.partition)
      else
        .ok { key with
          firstOffset := min key.firstOffset position.offset
          lastOffset := max key.lastOffset position.offset
          timeRange := ⟨min key.timeRange.startNs record.timestampNs,
            max key.timeRange.endNs record.timestampNs⟩ }

/-- The key of the block that `compact_wal_records_to_object_store_…` writes. -/
def compactionKey : List WalLogRecord → Except CompactionError BlockKey
  | [] => .error .emptyWalBatch
  | first :: rest =>
    match first.position with
    | none => .error (.missingWalPosition first.timestampNs)
    | some position =>
      (first :: rest).foldlM widenKey
        ⟨first.tenant, position.partition, position.offset, position.offset,
          ⟨first.timestampNs, first.timestampNs⟩⟩

/-- The record lies in the offsets that a key names. -/
def BlockKey.Spans (key : BlockKey) (record : WalLogRecord) : Prop :=
  ∃ offset, record.position = some ⟨key.partition, offset⟩ ∧
    key.firstOffset ≤ offset ∧ offset ≤ key.lastOffset

/-- The record is one that a block of the key may hold. -/
structure BlockKey.Describes (key : BlockKey) (record : WalLogRecord) : Prop where
  tenant : record.tenant = key.tenant
  spans : key.Spans record
  covers : key.timeRange.covers record.timestampNs = true

theorem TimeRange.covers_iff {range : TimeRange} {timestampNs : Int} :
    range.covers timestampNs = true ↔
      range.startNs ≤ timestampNs ∧ timestampNs ≤ range.endNs := by
  simp [covers]

variable {record : WalLogRecord} {key key' : BlockKey}

/-- What one pass of the loop does where it does not fail. -/
theorem widenKey_eq_ok (h : widenKey key record = .ok key') :
    record.tenant = key.tenant ∧ ∃ offset, record.position = some ⟨key.partition, offset⟩ ∧
      key' = { key with
        firstOffset := min key.firstOffset offset
        lastOffset := max key.lastOffset offset
        timeRange := ⟨min key.timeRange.startNs record.timestampNs,
          max key.timeRange.endNs record.timestampNs⟩ } := by
  rw [widenKey] at h
  split at h
  · cases h
  · rename_i hten
    split at h
    · cases h
    · rename_i position hpos
      split at h <;> cases h
      rename_i hp
      refine ⟨not_not.mp hten, position.offset, ?_, rfl⟩
      rw [hpos, ← not_not.mp hp]

/-- A key that contains another one's offsets and times. -/
structure BlockKey.Within (key key' : BlockKey) : Prop where
  tenant : key'.tenant = key.tenant
  partition : key'.partition = key.partition
  first : key'.firstOffset ≤ key.firstOffset
  last : key.lastOffset ≤ key'.lastOffset
  start : key'.timeRange.startNs ≤ key.timeRange.startNs
  stop : key.timeRange.endNs ≤ key'.timeRange.endNs

theorem BlockKey.Within.refl (key : BlockKey) : key.Within key :=
  ⟨rfl, rfl, le_rfl, le_rfl, le_rfl, le_rfl⟩

theorem BlockKey.Within.trans {key key' key'' : BlockKey} (h : key.Within key')
    (h' : key'.Within key'') : key.Within key'' :=
  ⟨h'.tenant.trans h.tenant, h'.partition.trans h.partition, h'.first.trans h.first,
    h.last.trans h'.last, h'.start.trans h.start, h.stop.trans h'.stop⟩

theorem BlockKey.Describes.widen (h : key.Describes record)
    (hw : key.Within key') : key'.Describes record := by
  obtain ⟨offset, hpos, hf, hl⟩ := h.spans
  have hcov := TimeRange.covers_iff.mp h.covers
  constructor
  · rw [h.tenant, hw.tenant]
  · exact ⟨offset, by rw [hpos, hw.partition], hw.first.trans hf,
      hl.trans hw.last⟩
  · exact TimeRange.covers_iff.mpr
      ⟨hw.start.trans hcov.1, hcov.2.trans hw.stop⟩

/-- One pass contains the key before it and describes its record. -/
theorem widenKey_within (h : widenKey key record = .ok key') :
    key.Within key' ∧ key'.Describes record := by
  obtain ⟨hten, offset, hpos, rfl⟩ := widenKey_eq_ok h
  constructor
  · exact ⟨rfl, rfl, min_le_left _ _, le_max_left _ _, min_le_left _ _, le_max_left _ _⟩
  · exact ⟨hten, ⟨offset, hpos, min_le_right _ _, le_max_right _ _⟩,
      TimeRange.covers_iff.mpr ⟨min_le_right _ _, le_max_right _ _⟩⟩

/-- The offset is that of one of the records on the partition. -/
def AttainedBy (records : List WalLogRecord) (partition : Nat) (offset : Int) : Prop :=
  ∃ record ∈ records, record.position = some ⟨partition, offset⟩

variable {records : List WalLogRecord}

/-- The loop over some records: the key grows, describes them all, and its ends are those
of the key before or of some of them. -/
theorem foldlM_widenKey :
    ∀ {key key' : BlockKey}, records.foldlM widenKey key = .ok key' →
      key.Within key' ∧ (∀ record ∈ records, key'.Describes record) ∧
        (key'.firstOffset = key.firstOffset ∨
          AttainedBy records key.partition key'.firstOffset) ∧
        (key'.lastOffset = key.lastOffset ∨
          AttainedBy records key.partition key'.lastOffset) := by
  induction records with
  | nil =>
    intro key key' h
    cases h
    exact ⟨.refl _, by simp, .inl rfl, .inl rfl⟩
  | cons record rest ih =>
    intro key key' h
    rw [foldlM_cons] at h
    cases hpa : widenKey key record with
    | error error => simp [hpa, bind, Except.bind] at h
    | ok next =>
      have hr : rest.foldlM widenKey next = .ok key' := by
        simpa [hpa, bind, Except.bind] using h
      obtain ⟨hw, hall, hf, hl⟩ := ih hr
      obtain ⟨hn, hrec⟩ := widenKey_within hpa
      obtain ⟨-, offset, hpos, hkey⟩ := widenKey_eq_ok hpa
      -- an end that moved in this pass is the record's offset
      have hat : ∀ {end' : Int}, AttainedBy rest next.partition end' →
          AttainedBy (record :: rest) key.partition end' := by
        rintro end' ⟨other, hmem, ho⟩
        exact ⟨other, mem_cons_of_mem _ hmem, by rw [ho, hn.partition]⟩
      have hse : AttainedBy (record :: rest) key.partition offset :=
        ⟨record, mem_cons_self, hpos⟩
      refine ⟨hn.trans hw, ?_, ?_, ?_⟩
      · intro other hmem
        rcases mem_cons.mp hmem with rfl | hmem
        · exact hrec.widen hw
        · exact hall other hmem
      · rcases hf with hf | hf
        · rw [hf, hkey]
          rcases min_choice key.firstOffset offset with hmin | hmin
          · exact .inl hmin
          · exact .inr (by rw [hmin]; exact hse)
        · exact .inr (hat hf)
      · rcases hl with hl | hl
        · rw [hl, hkey]
          rcases max_choice key.lastOffset offset with hmax | hmax
          · exact .inl hmax
          · exact .inr (by rw [hmax]; exact hse)
        · exact .inr (hat hl)

/-- The key of a block describes every record of its batch, and its first and last offsets
are those of records of the batch. -/
theorem compactionKey_spec {key : BlockKey} (h : compactionKey records = .ok key) :
    (∀ record ∈ records, key.Describes record) ∧
      AttainedBy records key.partition key.firstOffset ∧
      AttainedBy records key.partition key.lastOffset := by
  cases records with
  | nil => cases h
  | cons first rest =>
    rw [compactionKey] at h
    split at h
    · cases h
    · rename_i position hpos
      obtain ⟨hw, hall, hf, hl⟩ := foldlM_widenKey h
      have hse : AttainedBy (first :: rest) position.partition position.offset :=
        ⟨first, mem_cons_self, hpos⟩
      refine ⟨hall, ?_, ?_⟩
      · rw [hw.partition]
        rcases hf with hf | hf
        · rw [hf]
          exact hse
        · exact hf
      · rw [hw.partition]
        rcases hl with hl | hl
        · rw [hl]
          exact hse
        · exact hl

/-! ### The chunks of a batch -/

/-- The record goes on the run that a chunk began. -/
def continuesChunk (chunk : List WalLogRecord) (record : WalLogRecord)
    (position : WalPosition) : Bool :=
  chunk.head?.any fun first =>
    first.tenant == record.tenant &&
      first.position.any fun firstPosition => firstPosition.partition == position.partition

/-- One pass of the loop over a batch. -/
def pushRecord (chunks : List (List WalLogRecord)) (record : WalLogRecord) :
    List (List WalLogRecord) :=
  match record.position with
  | none => chunks ++ [[record]]
  | some position =>
    match chunks.getLast? with
    | none => chunks ++ [[record]]
    | some chunk =>
      if continuesChunk chunk record position then chunks.dropLast ++ [chunk ++ [record]]
      else chunks ++ [[record]]

def walCompactionChunks (records : List WalLogRecord) : List (List WalLogRecord) :=
  records.foldl pushRecord []

/-- A pass appends its record, to the last chunk or in one of its own. -/
theorem flatten_pushRecord (chunks : List (List WalLogRecord)) (record : WalLogRecord) :
    (pushRecord chunks record).flatten = chunks.flatten ++ [record] := by
  rw [pushRecord]
  split
  · simp
  · split
    · simp
    · rename_i chunk hl
      split
      · obtain ⟨front, rfl⟩ := getLast?_eq_some_iff.mp hl
        simp
      · simp

theorem flatten_foldl_pushRecord (records : List WalLogRecord) :
    ∀ chunks : List (List WalLogRecord),
      (records.foldl pushRecord chunks).flatten = chunks.flatten ++ records := by
  induction records with
  | nil => simp
  | cons record rest ih =>
    intro chunks
    rw [foldl_cons, ih, flatten_pushRecord, append_assoc, singleton_append]

/-- The chunks of a batch hold its records in order. -/
theorem flatten_walCompactionChunks (records : List WalLogRecord) :
    (walCompactionChunks records).flatten = records := by
  rw [walCompactionChunks, flatten_foldl_pushRecord, flatten_nil, nil_append]

/-- A chunk is a run of consecutive records of its batch. -/
theorem exists_of_mem_walCompactionChunks {chunk : List WalLogRecord}
    (h : chunk ∈ walCompactionChunks records) :
    ∃ before after, records = before ++ (chunk ++ after) := by
  obtain ⟨earlier, later, hsp⟩ := append_of_mem h
  refine ⟨earlier.flatten, later.flatten, ?_⟩
  calc records = (walCompactionChunks records).flatten :=
        (flatten_walCompactionChunks records).symm
    _ = earlier.flatten ++ (chunk ++ later.flatten) := by
        rw [hsp, flatten_append, flatten_cons]

end KrabkaO11y.Observability
