import Mathlib.Tactic
import KrabkaO11y.Concurrent.System

/-!
A partitioned log with two consumers: one that makes records durable and commits afterwards,
and one that holds them in memory only and commits for itself.

The memory of the second is empty after a restart, and it resumes at what it committed. A
record that it committed is then found only where the first has saved it. Records that are not
recent, by a relation to the others consumed, need not be found.
-/

namespace KrabkaO11y.Concurrent.VolatileTier

open List

variable {n : Nat} {ρ : Type}

structure Tiers (n : Nat) (ρ : Type) where
  log : Fin n → List ρ := fun _ => []
  -- the durable consumer: where it reads, what it committed, and how far its saved data reach
  builderPosition : Fin n → Nat := fun _ => 0
  builderCommitted : Fin n → Nat := fun _ => 0
  saved : Fin n → Nat := fun _ => 0
  -- the volatile consumer, with the batches that it took since its last start
  position : Fin n → Nat := fun _ => 0
  committed : Fin n → Nat := fun _ => 0
  batches : List (List ρ) := []

inductive TierEvent (n : Nat) (ρ : Type) where
  | append (partition : Fin n) (record : ρ)
  | builderPoll (partition : Fin n)
  | builderSave
  | builderCommit
  | builderRestart
  | poll (takes : List (Fin n))
  | commit
  | restart

/-- The next records of some partitions in order, and the positions after them. -/
def takeNext (log : Fin n → List ρ) : (Fin n → Nat) → List (Fin n) →
    Option (List ρ × (Fin n → Nat))
  | position, [] => some ([], position)
  | position, partition :: rest =>
    (log partition)[position partition]?.bind fun record =>
      (takeNext log (Function.update position partition (position partition + 1)) rest).map
        fun taken => (record :: taken.1, taken.2)

namespace Tiers

def step (s : Tiers n ρ) : TierEvent n ρ → Option (Tiers n ρ)
  | .append partition record =>
    some { s with log := Function.update s.log partition (s.log partition ++ [record]) }
  | .builderPoll partition =>
    if s.builderPosition partition < (s.log partition).length then
      some { s with builderPosition :=
        Function.update s.builderPosition partition (s.builderPosition partition + 1) }
    else none
  | .builderSave => some { s with saved := fun p => max (s.saved p) (s.builderPosition p) }
  -- the commit follows a save of everything that was polled
  | .builderCommit =>
    if ∀ p, s.builderPosition p ≤ s.saved p then
      some { s with builderCommitted := s.builderPosition }
    else none
  | .builderRestart => some { s with builderPosition := s.builderCommitted }
  | .poll takes =>
    (takeNext s.log s.position takes).map fun taken =>
      { s with position := taken.2, batches := s.batches ++ [taken.1] }
  | .commit => some { s with committed := s.position }
  | .restart => some { s with position := s.committed, batches := [] }

/-- The records that the durable consumer has saved. -/
def savedRecords (s : Tiers n ρ) : List ρ :=
  (List.finRange n).flatMap fun p => (s.log p).take (s.saved p)

end Tiers

/-- A record of the log below some positions. -/
def Below (log : Fin n → List ρ) (position : Fin n → Nat) (record : ρ) : Prop :=
  ∃ p o, o < position p ∧ (log p)[o]? = some record

/-- A record that every record below some positions leaves recent. -/
def Recent (within : ρ → ρ → Prop) (log : Fin n → List ρ) (position : Fin n → Nat) (record : ρ) :
    Prop :=
  ∀ other, Below log position other → within other record

/-- The volatile consumer restarts only when the recent records that it committed are saved. -/
def SavedAtRestart (within : ρ → ρ → Prop) (s : Tiers n ρ) : TierEvent n ρ → Prop
  | .restart => ∀ p o record, o < s.committed p → (s.log p)[o]? = some record →
      Recent within s.log s.committed record → o < s.saved p
  | _ => True

/-- Recent records below the position are saved or in memory. -/
structure Covered (within : ρ → ρ → Prop) (s : Tiers n ρ) : Prop where
  position_le : ∀ p, s.position p ≤ (s.log p).length
  committed_le : ∀ p, s.committed p ≤ s.position p
  batches : ∀ record ∈ s.batches.flatten, Below s.log s.position record
  covered : ∀ p o record, o < s.position p → (s.log p)[o]? = some record →
    Recent within s.log s.position record → o < s.saved p ∨ record ∈ s.batches.flatten

variable {log : Fin n → List ρ} {position later : Fin n → Nat} {record : ρ}

theorem Below.mono (hle : ∀ p, position p ≤ later p)
    (h : Below log position record) :
    Below log later record := by
  obtain ⟨p, o, hlt, hrec⟩ := h
  exact ⟨p, o, lt_of_lt_of_le hlt (hle p), hrec⟩

/-- More consumed records leave fewer recent. -/
theorem Recent.anti {within : ρ → ρ → Prop}
    (hle : ∀ p, position p ≤ later p) (h : Recent within log later record) :
    Recent within log position record :=
  fun other ho => h other (ho.mono hle)

/-- What taking records moves: positions only forward, over records that were taken. -/
theorem takeNext_spec (takes : List (Fin n)) :
    ∀ {position later : Fin n → Nat} {records : List ρ},
      (∀ p, position p ≤ (log p).length) → takeNext log position takes = some (records, later) →
      (∀ p, position p ≤ later p) ∧ (∀ p, later p ≤ (log p).length) ∧
        (∀ record ∈ records, Below log later record) ∧
        ∀ p o record, position p ≤ o → o < later p → (log p)[o]? = some record →
          record ∈ records := by
  induction takes with
  | nil =>
    intro position later records hle h
    cases h
    exact ⟨fun _ => le_rfl, hle, by simp, fun p o _ hge hlt => absurd hlt (not_lt.mpr hge)⟩
  | cons partition rest ih =>
    intro position later records hle h
    obtain ⟨first, hf, h⟩ := Option.bind_eq_some_iff.mp h
    obtain ⟨⟨others, after⟩, hr, heq⟩ := Option.map_eq_some_iff.mp h
    cases heq
    have hlt : position partition < (log partition).length :=
      (List.getElem?_eq_some_iff.mp hf).1
    have hmo : ∀ p, position p ≤
        Function.update position partition (position partition + 1) p := by
      intro p
      by_cases hp : p = partition
      · subst hp; simp
      · rw [Function.update_of_ne hp]
    have hmoved_le : ∀ p, Function.update position partition (position partition + 1) p ≤
        (log p).length := by
      intro p
      by_cases hp : p = partition
      · subst hp; simpa using hlt
      · rw [Function.update_of_ne hp]; exact hle p
    obtain ⟨hfo, hl, hbl, hta⟩ := ih hmoved_le hr
    have hfirst_lt : position partition < after partition := by
      have := hfo partition
      rw [Function.update_self] at this
      omega
    refine ⟨fun p => (hmo p).trans (hfo p), hl, ?_, ?_⟩
    · intro record hrec
      rcases mem_cons.mp hrec with rfl | ho
      · exact ⟨partition, position partition, hfirst_lt, hf⟩
      · exact hbl record ho
    · intro p o record hge hlt hrec
      by_cases hf' : p = partition ∧ o = position partition
      · obtain ⟨rfl, rfl⟩ := hf'
        rw [hf] at hrec
        cases hrec
        exact mem_cons_self
      · refine mem_cons_of_mem _ (hta p o record ?_ hlt hrec)
        by_cases hp : p = partition
        · subst hp
          rw [Function.update_self]
          have : o ≠ position p := fun heq => hf' ⟨rfl, heq⟩
          omega
        · rwa [Function.update_of_ne hp]

theorem covered_initial (within : ρ → ρ → Prop) : Covered within ({} : Tiers n ρ) where
  position_le _ := le_rfl
  committed_le _ := le_rfl
  batches := by simp
  covered p o _ hlt := absurd hlt (Nat.not_lt_zero o)

variable {within : ρ → ρ → Prop} {s s' : Tiers n ρ}

/-- Appending leaves the records below the positions as they are. -/
theorem Covered.append (h : Covered within s) (partition : Fin n) (record : ρ) :
    Covered within
      { s with log := Function.update s.log partition (s.log partition ++ [record]) } := by
  have hlog : ∀ p o, o < s.position p →
      (Function.update s.log partition (s.log partition ++ [record]) p)[o]? = (s.log p)[o]? := by
    intro p o hlt
    by_cases hp : p = partition
    · subst hp
      rw [Function.update_self]
      exact getElem?_append_left (lt_of_lt_of_le hlt (h.position_le p))
    · rw [Function.update_of_ne hp]
  have hbl : ∀ other, Below (Function.update s.log partition (s.log partition ++ [record]))
      s.position other ↔ Below s.log s.position other := by
    intro other
    refine exists_congr fun p => exists_congr fun o => and_congr_right fun hlt => ?_
    rw [hlog p o hlt]
  refine ⟨fun p => ?_, h.committed_le,
    fun other ho => (hbl other).mpr (h.batches other ho),
    fun p o other hlt ho hrct => ?_⟩
  · refine (h.position_le p).trans ?_
    by_cases hp : p = partition
    · subst hp; simp
    · simp only [Function.update_of_ne hp, le_refl]
  · rw [hlog p o hlt] at ho
    exact h.covered p o other hlt ho fun third hth => hrct third ((hbl third).mpr hth)

theorem Covered.step (h : Covered within s) {event : TierEvent n ρ}
    (condition : SavedAtRestart within s event) (hs : s.step event = some s') :
    Covered within s' := by
  cases event with
  | append partition record =>
    cases hs
    exact h.append partition record
  | builderPoll partition =>
    simp only [Tiers.step] at hs
    split at hs <;> cases hs
    exact ⟨h.position_le, h.committed_le, h.batches, h.covered⟩
  | builderSave =>
    cases hs
    exact ⟨h.position_le, h.committed_le, h.batches, fun p o record hlt hrec hrct =>
      (h.covered p o record hlt hrec hrct).imp_left fun hsv =>
        lt_of_lt_of_le hsv (le_max_left _ _)⟩
  | builderCommit =>
    simp only [Tiers.step] at hs
    split at hs <;> cases hs
    exact ⟨h.position_le, h.committed_le, h.batches, h.covered⟩
  | builderRestart =>
    cases hs
    exact ⟨h.position_le, h.committed_le, h.batches, h.covered⟩
  | poll takes =>
    obtain ⟨⟨records, later⟩, hta, rfl⟩ := Option.map_eq_some_iff.mp hs
    obtain ⟨hfo, hl, hbl, hall⟩ := takeNext_spec takes h.position_le hta
    refine ⟨hl, fun p => (h.committed_le p).trans (hfo p), ?_, ?_⟩
    · intro record hrec
      rw [flatten_append, mem_append, flatten_singleton] at hrec
      rcases hrec with hold | hnew
      · exact (h.batches record hold).mono hfo
      · exact hbl record hnew
    · intro p o record hlt hrec hrct
      rw [flatten_append, mem_append, flatten_singleton]
      rcases Nat.lt_or_ge o (s.position p) with hold | hnew
      · exact (h.covered p o record hold hrec (hrct.anti hfo)).imp_right Or.inl
      · exact .inr (.inr (hall p o record hnew hlt hrec))
  | commit =>
    cases hs
    exact ⟨h.position_le, fun _ => le_rfl, h.batches, h.covered⟩
  | restart =>
    cases hs
    exact ⟨fun p => (h.committed_le p).trans (h.position_le p), fun _ => le_rfl, by simp,
      fun p o record hlt hrec hrct => .inl (condition p o record hlt hrec hrct)⟩

/-- In every run whose restarts find the recent records saved, a recent record below the
position is saved or in memory. -/
theorem covered_of_reachable
    (h : System.Reachable Tiers.step (· = ({} : Tiers n ρ)) (SavedAtRestart within) s) :
    Covered within s :=
  h.invariant (fun _ hs => hs ▸ covered_initial within)
    fun _ _ _ hs hco hst => hs.step hco hst

theorem mem_savedRecords {p : Fin n} {o : Nat} (hsaved : o < s.saved p)
    (hrec : (s.log p)[o]? = some record) : record ∈ s.savedRecords := by
  refine mem_flatMap.mpr ⟨p, mem_finRange p, ?_⟩
  rw [mem_take_iff_getElem]
  obtain ⟨hlt, heq⟩ := List.getElem?_eq_some_iff.mp hrec
  exact ⟨o, by omega, heq⟩

end KrabkaO11y.Concurrent.VolatileTier
