import KrabkaO11y.Machine.Saturating
import KrabkaO11y.Observability.WalRecords

/-!
The log compaction frontier (`crates/observability/src/compactor/frontier.rs`): for each
partition the last offset that is in a block, and the version that a process gives each
frontier it holds.
-/

open Std (ExtTreeMap)

namespace KrabkaO11y.Observability

/-- `i64::MIN`. -/
def i64Min : Int := -9223372036854775808

/-- `i64::saturating_sub`. -/
def saturatingSub (left right : Int) : Int := Machine.clamp (left - right)

structure CompactionFrontier where
  compactedThroughNs : Int
  partitionOffsets : ExtTreeMap Nat Int := ∅
deriving DecidableEq

namespace CompactionFrontier

def new (compactedThroughNs : Int) : CompactionFrontier := ⟨compactedThroughNs, ∅⟩

def advancePartitionOffset (frontier : CompactionFrontier) (position : WalPosition) :
    CompactionFrontier :=
  { frontier with
    partitionOffsets := frontier.partitionOffsets.alter position.partition fun
      | some offset => some (max offset position.offset)
      | none => some position.offset }

/-- The offset is at or below the one stored for its partition. -/
def reaches (frontier : CompactionFrontier) (position : WalPosition) : Bool :=
  frontier.partitionOffsets[position.partition]?.any fun offset => decide (position.offset ≤ offset)

def isCompacted (frontier : CompactionFrontier) (record : WalLogRecord) : Bool :=
  record.position.any frontier.reaches || decide (record.timestampNs ≤ frontier.compactedThroughNs)

variable {frontier : CompactionFrontier} {position : WalPosition}

theorem reaches_iff :
    frontier.reaches position = true ↔
      ∃ offset, frontier.partitionOffsets[position.partition]? = some offset ∧
        position.offset ≤ offset := by
  simp [reaches, Option.any_eq_true]

/-- Past its time bound, a frontier calls a record compacted for its offset only. -/
theorem isCompacted_iff {record : WalLogRecord}
    (h : frontier.compactedThroughNs < record.timestampNs) :
    frontier.isCompacted record = true ↔
      ∃ position, record.position = some position ∧ frontier.reaches position = true := by
  simp only [isCompacted, Bool.or_eq_true, decide_eq_true_eq, not_le.mpr h, or_false,
    Option.any_eq_true]

theorem getElem?_advancePartitionOffset (frontier : CompactionFrontier) (position : WalPosition)
    (partition : Nat) :
    (frontier.advancePartitionOffset position).partitionOffsets[partition]? =
      if partition = position.partition then
        some ((frontier.partitionOffsets[partition]?.elim position.offset (max · position.offset)))
      else frontier.partitionOffsets[partition]? := by
  rw [advancePartitionOffset, ExtTreeMap.getElem?_alter]
  by_cases h : partition = position.partition
  · subst h
    rw [if_pos (by simp), if_pos rfl]
    cases frontier.partitionOffsets[position.partition]? <;> rfl
  · rw [if_neg h, if_neg fun heq => h (Std.compare_eq_iff_eq.mp heq).symm]

/-- An offset stored after an advance was stored before or is the one advanced to. -/
theorem of_advancePartitionOffset {partition : Nat} {offset : Int}
    (h : (frontier.advancePartitionOffset position).partitionOffsets[partition]? = some offset) :
    frontier.partitionOffsets[partition]? = some offset ∨
      (partition = position.partition ∧ offset = position.offset) := by
  rw [getElem?_advancePartitionOffset] at h
  split at h
  · rename_i heq
    cases hsto : frontier.partitionOffsets[partition]? with
    | none =>
      rw [hsto] at h
      exact .inr ⟨heq, (Option.some.inj h).symm⟩
    | some stored =>
      rw [hsto] at h
      cases h
      rcases max_choice stored position.offset with hmax | hmax
      · exact .inl (congrArg some hmax.symm)
      · exact .inr ⟨heq, hmax⟩
  · exact .inl h

/-- Every partition's offset is stored in the other frontier too, and is at most that. -/
def Le (frontier other : CompactionFrontier) : Prop :=
  ∀ (partition : Nat) (offset : Int), frontier.partitionOffsets[partition]? = some offset →
    ∃ later, other.partitionOffsets[partition]? = some later ∧ offset ≤ later

theorem Le.refl (frontier : CompactionFrontier) : frontier.Le frontier :=
  fun _ offset h => ⟨offset, h, le_rfl⟩

theorem Le.trans {other third : CompactionFrontier} (h : frontier.Le other) (h' : other.Le third) :
    frontier.Le third := by
  intro partition offset hoff
  obtain ⟨later, hl, hle⟩ := h partition offset hoff
  obtain ⟨last, hla, hle'⟩ := h' partition later hl
  exact ⟨last, hla, hle.trans hle'⟩

theorem le_advancePartitionOffset (frontier : CompactionFrontier) (position : WalPosition) :
    frontier.Le (frontier.advancePartitionOffset position) := by
  intro partition offset h
  rw [getElem?_advancePartitionOffset, h]
  split
  · exact ⟨_, rfl, le_max_left _ _⟩
  · exact ⟨offset, rfl, le_rfl⟩

end CompactionFrontier

/-- The locked state of a `SharedCompactionFrontier`. -/
structure SharedFrontierState where
  version : Nat
  frontier : CompactionFrontier
deriving DecidableEq

namespace SharedFrontierState

def new (frontier : CompactionFrontier) : SharedFrontierState := ⟨0, frontier⟩

/-- `SharedCompactionFrontier::default`. -/
def initial : SharedFrontierState := .new (.new i64Min)

def advancePartitionOffset (state : SharedFrontierState) (position : WalPosition) :
    SharedFrontierState :=
  if state.frontier.partitionOffsets[position.partition]?.all
      fun offset => decide (offset < position.offset) then
    ⟨state.version + 1, state.frontier.advancePartitionOffset position⟩
  else state

def replace (state : SharedFrontierState) (frontier : CompactionFrontier) : SharedFrontierState :=
  if state.frontier = frontier then state else ⟨state.version + 1, frontier⟩

theorem frontier_replace (state : SharedFrontierState) (frontier : CompactionFrontier) :
    (state.replace frontier).frontier = frontier := by
  rw [replace]
  split
  · assumption
  · rfl

/-- The version never goes down, and where it stays the frontier does. -/
theorem version_replace (state : SharedFrontierState) (frontier : CompactionFrontier) :
    state.replace frontier = state ∨ state.version < (state.replace frontier).version := by
  rw [replace]
  split
  · exact .inl rfl
  · exact .inr (Nat.lt_succ_self _)

/-- Advancing the shared frontier advances the frontier, or leaves one that has the offset. -/
theorem frontier_advance (state : SharedFrontierState) (position : WalPosition) :
    (state.advancePartitionOffset position).frontier = state.frontier ∨
      (state.advancePartitionOffset position).frontier =
        state.frontier.advancePartitionOffset position := by
  rw [advancePartitionOffset]
  split
  · exact .inr rfl
  · exact .inl rfl

end SharedFrontierState

end KrabkaO11y.Observability
