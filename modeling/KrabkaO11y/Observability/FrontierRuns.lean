import KrabkaO11y.Observability.CompactionRuns

/-!
The frontier object over runs of the compactors.

Every offset in it is in a published block. It is one object that each process puts whole
from its own memory, so a put can take back what another process stored
(`persisted_frontier_moves_back`). Where each put is by a process that has loaded or put
the object after the last put of every other one, no offset goes down or is dropped.
-/

namespace KrabkaO11y.Observability

open Concurrent.System
open ObjectStore (Outcome)

namespace Compaction

variable {s s' : Compaction}

/-- A put is by a process that has loaded or put the object after the last put of every
other process. -/
def PutsCurrent (s : Compaction) : Event → Prop
  | .putFrontier _ .refused => True
  | .putFrontier id _ => s.behind id = false
  | _ => True

/-- A process that is not behind has the offsets of the object, or later ones. -/
def Current (s : Compaction) : Prop :=
  ∀ id compactor, s.compactors id = some compactor → s.behind id = false →
    ∀ frontier, s.frontier = some frontier → frontier.Le compactor.frontier.frontier

variable {event : Event}

/-- The object before a step has offsets that it still has after, or later ones. -/
def Onward (s s' : Compaction) : Prop :=
  ∀ frontier, s.frontier = some frontier →
    ∃ next, s'.frontier = some next ∧ frontier.Le next

theorem Onward.refl (s : Compaction) : Onward s s :=
  fun frontier h => ⟨frontier, h, .refl _⟩

theorem Onward.trans {s t u : Compaction} (h : Onward s t) (h' : Onward t u) : Onward s u := by
  intro frontier hfr
  obtain ⟨next, hn, hle⟩ := h frontier hfr
  obtain ⟨last, hl, hle'⟩ := h' next hn
  exact ⟨last, hl, hle.trans hle'⟩

/-- A put of a process that is not behind moves the object onward. -/
theorem Current.onward (h : s.Current) (puts : s.PutsCurrent event) (he : Effect s event s') :
    Onward s s' := by
  rcases he.frontiers with hk | ⟨id, outcome, compactor, rfl, hap, hput⟩
  · rw [Onward, hk.frontier]
    exact Onward.refl s
  · intro frontier hsto
    have hcur : s.behind id = false := by
      cases outcome with
      | refused => exact absurd rfl hap
      | ok | lost => exact puts
    exact ⟨_, hput.frontier, h id compactor hput.running hcur frontier hsto⟩

theorem Current.step (h : s.Current) (he : Effect s event s') : s'.Current := by
  intro id compactor hcp hcur frontier hfr
  rcases he.frontiers with hk | ⟨writer, outcome, wrote, -, -, -, hwr, hbeh, next, hco, hn⟩
  · rw [hk.frontier] at hfr
    rcases hk.compactors id compactor hcp hcur with
      ⟨hbef, before, hsm, hle⟩ | hlo
    · exact (h id before hsm hbef frontier hfr).trans hle
    · rw [hlo, hfr, loadExistingCompactionFrontier, Option.elim_some,
        SharedFrontierState.frontier_replace]
      exact .refl _
  · -- only the process that put the object is not behind
    rw [hbeh, decide_eq_false_iff_not, not_not] at hcur
    subst hcur
    rw [hco, Function.update_self] at hcp
    cases hcp
    rw [hwr] at hfr
    rw [hn, Option.some.inj hfr]
    exact .refl _

theorem current_new : new.Current := by
  intro id compactor hcp
  cases hcp

/-- The states that runs of the compactors reach, from an empty store. -/
abbrev Reached (condition : Compaction → Event → Prop) (s : Compaction) : Prop :=
  Reachable step (· = new) condition s

variable {condition : Compaction → Event → Prop}

theorem Reached.current (h : Reached condition s) :
    s.Valid ∧ s.Current := by
  refine h.invariant (P := fun s => s.Valid ∧ s.Current) ?_ ?_
  · rintro _ rfl
    exact ⟨valid_new, current_new⟩
  · exact fun _ _ _ hs _ hst => ⟨hs.1.step hst, hs.2.step (effect_step hs.1 hst)⟩

/-- In every run an offset of the frontier object is in a published block; and where each
put is by a process that is not behind, no offset goes down or is dropped. -/
theorem persisted_frontier_bounded_and_onward (s : Compaction) (partition : Nat) (offset : Int)
    (hstored : s.storedOffset partition = some offset) :
    (Reached (fun _ _ => True) s →
      ∃ key ∈ s.published, key.partition = partition ∧ offset ≤ key.lastOffset) ∧
    ∀ s' events, Reached PutsCurrent s → Meets step PutsCurrent s events →
      run step s events = some s' →
        ∃ later, s'.storedOffset partition = some later ∧ offset ≤ later := by
  obtain ⟨frontier, hfrontier, hoffset⟩ := Option.bind_eq_some_iff.mp hstored
  constructor
  · intro hs
    have hsettled := (hs.current.1.frontier frontier hfrontier).settled partition offset hoffset
    obtain ⟨record, hrecord, hposition⟩ := hsettled.reached
    obtain ⟨key, hkey, -, hdescribes⟩ := hsettled.stored hrecord hposition le_rfl
    obtain ⟨offset', hposition', -, hle⟩ := hdescribes.spans
    obtain ⟨rfl, rfl⟩ : partition = key.partition ∧ offset = offset' := by
      simpa using hposition.symm.trans hposition'
    exact ⟨key, hkey, rfl, hle⟩
  · intro s' events hs hmeets hrun
    have honward : Onward s s' := run_related Onward.refl Onward.trans
      (fun _ _ _ (hold : Valid _ ∧ Current _) _ hstep =>
        ⟨hold.1.step hstep, hold.2.step (effect_step hold.1 hstep)⟩)
      (fun _ _ _ hold hputs hstep => hold.2.onward hputs (effect_step hold.1 hstep)) hs.current
        hmeets
      hrun
    obtain ⟨next, hnext, hle⟩ := honward frontier hfrontier
    obtain ⟨later, hlater, hoffsets⟩ := hle partition offset hoffset
    exact ⟨later, Option.bind_eq_some_iff.mpr ⟨next, hnext, hlater⟩, hoffsets⟩

/-- In every run, with any failures, crashes and rebalances, a record up to an offset that the
group has committed or the frontier object holds is a row of a published block, and the rows of
a block are records of the WAL that its key describes, each once. -/
theorem committed_records_published {s : Compaction} (h : Reached (fun _ _ => True) s) :
    (∀ record ∈ s.wal, ∀ partition offset through, record.position = some ⟨partition, offset⟩ →
      offset ≤ through → s.committed partition = some through ∨
        s.storedOffset partition = some through → s.Stored record) ∧
    ∀ key, (s.objects key).Nodup ∧
      ∀ record ∈ s.objects key, record ∈ s.wal ∧ key.Describes record := by
  have hv := h.current.1
  refine ⟨fun record hrec partition offset through hpos hle hth => ?_,
    fun key => ⟨hv.rowsNodup key, hv.rows key⟩⟩
  have hset : s.Settled [] partition through := by
    rcases hth with hcom | hsto
    · exact hv.committed partition through hcom
    · obtain ⟨frontier, hfr, hoff⟩ := Option.bind_eq_some_iff.mp hsto
      exact (hv.frontier frontier hfr).settled partition through hoff
  exact hset.stored hrec hpos hle

/-! ### Two processes with a partition each -/

section Sample

def sampleRecord (partition : Nat) (offset timestampNs : Int) : WalLogRecord :=
  ⟨"t", [("app", "api")], timestampNs, "line", [], some ⟨partition, offset⟩⟩

/-- A process reads a batch, publishes its one block and puts the frontier. -/
def sampleBatch (id : Nat) (batch : List WalLogRecord) : List Event :=
  [.poll id batch, .writeBlock id, .publishBlock id true, .commit id, .advance id,
    .putFrontier id .ok]

/-- Two processes start on an empty store, each with its partition. -/
def sampleStart : List Event :=
  [.produce (sampleRecord 0 0 100), .produce (sampleRecord 1 0 100), .start 0, .start 1,
    .assign 0 0, .assign 1 1]

def sampleRun (events : List Event) : Compaction :=
  (run step new events).getD new

theorem reached_sampleRun {events : List Event}
    (meets : Meets step condition new events) (h : (run step new events).isSome = true) :
    Reached condition (sampleRun events) :=
  Reachable.getD (.initial rfl) meets h

theorem committed_record_published_after_crash :
    (sampleRun (sampleStart ++ sampleBatch 0 [sampleRecord 0 0 100] ++ [.crash 0])).Stored
      (sampleRecord 0 0 100) :=
  (committed_records_published (reached_sampleRun (meets_of_forall fun _ _ => trivial)
    (by decide +kernel))).1 _ (by decide +kernel) 0 0 0 rfl le_rfl (.inl (by decide +kernel))

/-- The second process puts a map that has its own partition only. -/
theorem persisted_frontier_moves_back :
    ∃ s s' event, Reached (fun _ _ => True) s ∧ s.step event = some s' ∧
      s.storedOffset 0 = some 0 ∧ s'.storedOffset 0 = none := by
  have hreached : Reached (fun _ _ => True) (sampleRun (sampleStart ++
      sampleBatch 0 [sampleRecord 0 0 100] ++ (sampleBatch 1 [sampleRecord 1 0 100]).take 5)) :=
    reached_sampleRun (meets_of_forall fun _ _ => trivial) (by decide +kernel)
  refine ⟨_, sampleRun (sampleStart ++ sampleBatch 0 [sampleRecord 0 0 100] ++
    sampleBatch 1 [sampleRecord 1 0 100]), .putFrontier 1 .ok, hreached, ?_, ?_, ?_⟩
  · rfl
  · decide +kernel
  · decide +kernel

instance (s : Compaction) : (event : Event) → Decidable (s.PutsCurrent event)
  | .putFrontier id .ok | .putFrontier id .lost => inferInstanceAs (Decidable (s.behind id = false))
  | .putFrontier _ .refused | .produce _ | .start _ | .assign _ _ | .revoke _ _ | .poll _ _
  | .writeBlock _ | .publishBlock _ _ | .retry _ | .commit _ | .advance _ | .crash _ =>
    .isTrue trivial

/-- One process takes both partitions, one after the other. -/
theorem persisted_frontier_onward_alone :
    ∃ later, (sampleRun (sampleStart ++ [.assign 0 1] ++ sampleBatch 0 [sampleRecord 0 0 100] ++
      sampleBatch 0 [sampleRecord 1 0 100])).storedOffset 0 = some later ∧ 0 ≤ later := by
  have hreached : Reached PutsCurrent (sampleRun (sampleStart ++ [.assign 0 1] ++
      sampleBatch 0 [sampleRecord 0 0 100])) :=
    reached_sampleRun (by decide +kernel) (by decide +kernel)
  exact (persisted_frontier_bounded_and_onward _ 0 0 (by decide +kernel)).2 _
    (sampleBatch 0 [sampleRecord 1 0 100]) hreached (by decide +kernel) rfl

end Sample

end Compaction

end KrabkaO11y.Observability
