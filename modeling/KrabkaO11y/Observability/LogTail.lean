import Mathlib.Data.List.Nodup
import KrabkaO11y.Concurrent.System
import KrabkaO11y.Observability.HotTailBuffer

/-!
A live log tail over the hot tail (`crates/observability/src/querier/tail.rs`).

The tail remembers how many records of the source it has passed to frames, not which. A
poll starts at that position, and starts over when the source holds fewer records. The
position is right when no passed record was pruned since, and starting over is right when
all of them were; a prune between two polls that appends hide from the count is neither.
-/

namespace KrabkaO11y.Observability

open List

/-! ### The tail -/

/-- What `send_tail_stream` remembers between two polls. -/
structure TailPosition where
  initialRecords : Nat
  sentRecords : Nat := 0
deriving DecidableEq, Repr

/-- The records passed to one frame, and whether it is a live one. -/
structure TailFrame where
  records : List (Shared WalLogRecord)
  live : Bool
deriving DecidableEq, Repr

def eligibleTailRecordCount (records : List (Shared WalLogRecord)) (delayFor nowNs : Int) : Nat :=
  if delayFor ≤ 0 then records.length
  else
    let cutoff := saturatingSub nowNs delayFor
    (records.takeWhile fun record => decide (record.value.timestampNs ≤ cutoff)).length

/-- The frame of `records[start..end]`, unless that is empty. -/
def tailFrame (records : List (Shared WalLogRecord)) (start stop : Nat) (live : Bool) :
    List TailFrame :=
  if start < stop then [⟨(records.drop start).take (stop - start), live⟩] else []

/-- The position that a poll starts from: the first record, where fewer are held than
were counted. -/
def TailPosition.start (tail : TailPosition) (held : Nat) : Nat :=
  if held < tail.sentRecords then 0 else tail.sentRecords

/-- One tick of the poll interval. -/
def TailPosition.poll (tail : TailPosition) (delayFor nowNs : Int)
    (records : List (Shared WalLogRecord)) : TailPosition × List TailFrame :=
  let sentRecords := tail.start records.length
  if sentRecords < records.length then
    let eligible := eligibleTailRecordCount (records.drop sentRecords) delayFor nowNs
    if 0 < eligible then
      let eligibleEnd := sentRecords + eligible
      let split := max sentRecords (min tail.initialRecords eligibleEnd)
      ({ tail with sentRecords := eligibleEnd },
        tailFrame records sentRecords split false ++ tailFrame records split eligibleEnd true)
    else ({ tail with sentRecords := sentRecords }, [])
  else ({ tail with sentRecords := sentRecords }, [])

theorem TailPosition.start_le (tail : TailPosition) (held : Nat) : tail.start held ≤ held := by
  rw [start]
  split <;> omega

theorem records_tailFrame (records : List (Shared WalLogRecord)) (start stop : Nat)
    (live : Bool) :
    (tailFrame records start stop live).flatMap TailFrame.records =
      (records.drop start).take (stop - start) := by
  rw [tailFrame]
  split
  · simp
  · rw [show stop - start = 0 by omega, take_zero, flatMap_nil]

/-- Without a delay, a poll passes everything from its start on, and counts it. -/
theorem TailPosition.poll_noDelay (tail : TailPosition) (nowNs : Int)
    (records : List (Shared WalLogRecord)) :
    (tail.poll 0 nowNs records).1.sentRecords = records.length ∧
      (tail.poll 0 nowNs records).2.flatMap TailFrame.records =
        records.drop (tail.start records.length) := by
  have hst := tail.start_le records.length
  rw [poll]
  simp only [eligibleTailRecordCount, le_refl, if_true, length_drop]
  rcases Nat.lt_or_ge (tail.start records.length) records.length with hlt | hge
  · rw [if_pos hlt, if_pos (by omega), Nat.add_sub_cancel' hst, flatMap_append,
      records_tailFrame, records_tailFrame]
    refine ⟨rfl, ?_⟩
    -- The two frames are cut at `split`, which lies between the start and the end.
    generalize hsp : max (tail.start records.length) (min tail.initialRecords records.length)
      = split
    have hdr : records.drop split =
        (records.drop (tail.start records.length)).drop (split - tail.start records.length) := by
      rw [drop_drop]
      congr 1
      omega
    have hall : ((records.drop (tail.start records.length)).drop
        (split - tail.start records.length)).length ≤ records.length - split := by
      rw [← hdr, length_drop]
    rw [hdr, take_of_length_le hall, take_append_drop]
  · rw [if_neg (by omega)]
    exact ⟨Nat.le_antisymm hst hge, by rw [drop_eq_nil_of_le hge]; rfl⟩

/-! ### Runs -/

/-- A source, a tail of it, and what the tail has passed and seen so far. -/
structure TailRun where
  buffer : HotTailBuffer
  tail : TailPosition
  frames : List TailFrame := []
  /-- Records that were held and not compacted at some poll. -/
  polled : List (Shared WalLogRecord) := []
  /-- The next free allocation. -/
  allocations : Nat

inductive TailEvent where
  | append (record : WalLogRecord)
  | prune (frontier : CompactionFrontier)
  | poll (frontier : CompactionFrontier) (nowNs : Int)

namespace TailRun

def step (s : TailRun) : TailEvent → Option TailRun
  | .append record => some { s with
      buffer := s.buffer.push ⟨s.allocations, record⟩
      allocations := s.allocations + 1 }
  | .prune frontier => some { s with buffer := (s.buffer.pruneCompacted frontier).1 }
  | .poll frontier nowNs => some { s with
      tail := (s.tail.poll 0 nowNs s.buffer.records).1
      frames := s.frames ++ (s.tail.poll 0 nowNs s.buffer.records).2
      polled := s.polled ++
        s.buffer.records.filter fun record => !frontier.isCompacted record.value }

/-- A tail just opened over a source. -/
structure Opened (s : TailRun) : Prop where
  tail : s.tail = { initialRecords := s.buffer.records.length }
  frames : s.frames = []
  polled : s.polled = []
  increasing : s.buffer.records.Pairwise fun a b => a.allocation < b.allocation
  allocated : ∀ record ∈ s.buffer.records, record.allocation < s.allocations

/-- The records passed to frames so far, one entry for each time. -/
def passed (s : TailRun) : List (Shared WalLogRecord) := s.frames.flatMap TailFrame.records

/-- No record was passed twice, and every record seen by a poll was passed. -/
structure ExactlyOnce (s : TailRun) : Prop where
  once : s.passed.Nodup
  seen : ∀ record ∈ s.polled, record ∈ s.passed

/-- How many records that were passed the source still holds. -/
def passedHeld (s : TailRun) : Nat := s.buffer.records.countP fun record => record ∈ s.passed

/-- No passed record was pruned, or all of them were and the source holds fewer records
than the tail has counted. -/
def InPlace (s : TailRun) : Prop :=
  s.passedHeld = s.tail.sentRecords ∨
    (s.passedHeld = 0 ∧ s.buffer.records.length < s.tail.sentRecords)
deriving Decidable

/-- The polls of a run find the position in place. -/
def PollsInPlace (s : TailRun) : TailEvent → Prop
  | .poll _ _ => s.InPlace
  | _ => True

instance decidablePollsInPlace (s : TailRun) (event : TailEvent) :
    Decidable (s.PollsInPlace event) := by
  cases event <;> unfold PollsInPlace <;> infer_instance

/-- The source holds some passed records, then some that were not passed. -/
structure Split (s : TailRun) (old fresh : List (Shared WalLogRecord)) : Prop where
  held : s.buffer.records = old ++ fresh
  wasPassed : ∀ record ∈ old, record ∈ s.passed
  notPassed : ∀ record ∈ fresh, record ∉ s.passed
  counted : old.length ≤ s.tail.sentRecords

/-- What holds between the events of a run. -/
structure Valid (s : TailRun) : Prop where
  exactlyOnce : s.ExactlyOnce
  increasing : s.buffer.records.Pairwise fun a b => a.allocation < b.allocation
  allocated : ∀ record ∈ s.buffer.records, record.allocation < s.allocations
  passedAllocated : ∀ record ∈ s.passed, record.allocation < s.allocations
  split : ∃ old fresh, s.Split old fresh

variable {s s' : TailRun} {old fresh : List (Shared WalLogRecord)}

theorem passedHeld_eq (h : s.Split old fresh) :
    s.passedHeld = old.length := by
  rw [passedHeld, h.held, countP_append,
    countP_eq_length.mpr fun record hrec => decide_eq_true (h.wasPassed record hrec),
    countP_eq_zero.mpr fun record hrec => by simpa using h.notPassed record hrec,
    Nat.add_zero]

/-- In place, a poll starts at the first record that was not passed. -/
theorem drop_start (h : s.Split old fresh)
    (place : s.InPlace) :
    s.buffer.records.drop (s.tail.start s.buffer.records.length) = fresh := by
  rw [InPlace, passedHeld_eq h] at place
  rcases place with hall | ⟨hno, hfe⟩
  · rw [TailPosition.start, h.held, length_append, if_neg (by omega), ← hall,
      drop_left]
  · obtain rfl := eq_nil_of_length_eq_zero hno
    rw [TailPosition.start, if_pos hfe, h.held]
    rfl

theorem valid_of_opened (h : s.Opened) : s.Valid where
  exactlyOnce := ⟨by simp [passed, h.frames], by simp [h.polled]⟩
  increasing := h.increasing
  allocated := h.allocated
  passedAllocated := by simp [passed, h.frames]
  split := ⟨[], s.buffer.records, rfl, by simp, by simp [passed, h.frames], Nat.zero_le _⟩

theorem Valid.append (h : s.Valid) {record : WalLogRecord}
    (hs : s.step (.append record) = some s') : s'.Valid := by
  cases hs
  obtain ⟨old, fresh, hsp⟩ := h.split
  refine ⟨⟨h.exactlyOnce.once, h.exactlyOnce.seen⟩, ?_, ?_, ?_, old,
    fresh ++ [⟨s.allocations, record⟩], ?_⟩
  · rw [HotTailBuffer.records_push, pairwise_append]
    exact ⟨h.increasing, pairwise_singleton _ _, fun held hh other ho => by
      rw [mem_singleton.mp ho]
      exact h.allocated held hh⟩
  · intro held hh
    rcases mem_append.mp hh with hold | hnew
    · exact Nat.lt_succ_of_lt (h.allocated held hold)
    · rw [mem_singleton.mp hnew]
      exact Nat.lt_succ_self _
  · exact fun held hh => Nat.lt_succ_of_lt (h.passedAllocated held hh)
  · refine ⟨?_, hsp.wasPassed, ?_, hsp.counted⟩
    · rw [HotTailBuffer.records_push, hsp.held, append_assoc]
    · intro held hh
      rcases mem_append.mp hh with hold | hnew
      · exact hsp.notPassed held hold
      · -- A new record has an allocation that no passed record has.
        rw [mem_singleton.mp hnew]
        exact fun hpas => Nat.lt_irrefl _ (h.passedAllocated _ hpas)

variable {frontier : CompactionFrontier}

theorem Valid.prune (h : s.Valid) (hs : s.step (.prune frontier) = some s') : s'.Valid := by
  cases hs
  obtain ⟨old, fresh, hsp⟩ := h.split
  refine ⟨⟨h.exactlyOnce.once, h.exactlyOnce.seen⟩, ?_, ?_, h.passedAllocated,
    old.filter fun record => !frontier.isCompacted record.value,
    fresh.filter fun record => !frontier.isCompacted record.value, ?_, ?_, ?_, ?_⟩
  · rw [HotTailBuffer.records_pruneCompacted]
    exact h.increasing.sublist filter_sublist
  · intro held hh
    rw [HotTailBuffer.records_pruneCompacted] at hh
    exact h.allocated held (mem_of_mem_filter hh)
  · rw [HotTailBuffer.records_pruneCompacted, hsp.held, filter_append]
  · exact fun held hh => hsp.wasPassed held (mem_of_mem_filter hh)
  · exact fun held hh => hsp.notPassed held (mem_of_mem_filter hh)
  · exact (length_filter_le _ _).trans hsp.counted

variable {nowNs : Int}

theorem passed_poll (hs : s.step (.poll frontier nowNs) = some s') :
    s'.passed = s.passed ++ s.buffer.records.drop (s.tail.start s.buffer.records.length) ∧
      s'.tail.sentRecords = s.buffer.records.length ∧ s'.buffer = s.buffer ∧
      s'.allocations = s.allocations := by
  cases hs
  obtain ⟨hse, hfr⟩ := s.tail.poll_noDelay nowNs s.buffer.records
  exact ⟨by rw [passed, flatMap_append, hfr]; rfl, hse, rfl, rfl⟩

theorem nodup_of_increasing {records : List (Shared WalLogRecord)}
    (h : records.Pairwise fun a b => a.allocation < b.allocation) : records.Nodup := by
  refine List.Pairwise.imp ?_ h
  rintro a _ hlt rfl
  exact Nat.lt_irrefl _ hlt

/-- A poll from the first record that was not passed passes each of the rest once. -/
theorem Valid.poll (h : s.Valid) (place : s.InPlace)
    (hs : s.step (.poll frontier nowNs) = some s') : s'.Valid := by
  obtain ⟨old, fresh, hsp⟩ := h.split
  obtain ⟨hpas, hse, hbu, hal⟩ := passed_poll hs
  rw [drop_start hsp place] at hpas
  have hh : ∀ record ∈ s.buffer.records, record ∈ s'.passed := by
    intro record hrec
    rw [hsp.held, mem_append] at hrec
    rw [hpas, mem_append]
    exact hrec.imp_left (hsp.wasPassed record)
  have hfs : fresh <:+ s.buffer.records := ⟨old, hsp.held.symm⟩
  refine ⟨⟨?_, ?_⟩, ?_, ?_, ?_, s'.buffer.records, [], ?_, ?_, ?_, ?_⟩
  · rw [hpas]
    exact h.exactlyOnce.once.append ((nodup_of_increasing h.increasing).sublist hfs.sublist)
      fun record hold hnew => hsp.notPassed record hnew hold
  · intro record hrec
    cases hs
    rcases mem_append.mp hrec with hbef | hnow
    · rw [hpas]
      exact mem_append_left _ (h.exactlyOnce.seen record hbef)
    · exact hh record (mem_of_mem_filter hnow)
  · rw [hbu]
    exact h.increasing
  · rw [hbu, hal]
    exact h.allocated
  · intro record hrec
    rw [hal]
    rw [hpas, mem_append] at hrec
    exact hrec.elim (h.passedAllocated record) fun hnew =>
      h.allocated record (hfs.subset hnew)
  · rw [append_nil]
  · rw [hbu]
    exact hh
  · exact nofun
  · rw [hbu, hse]

theorem valid_of_reachable
    (h : Concurrent.System.Reachable step Opened PollsInPlace s) : s.Valid := by
  refine h.invariant (fun s => valid_of_opened) ?_
  intro s event s' hv hco hs
  cases event with
  | append record => exact hv.append hs
  | prune frontier => exact hv.prune hs
  | poll frontier nowNs => exact hv.poll hco hs

/-- A cut that has none of the first part behind it and all of the second lies between
the two. -/
theorem eq_length_of_drop {α : Type} {old fresh : List α} {start : Nat} (hfresh : fresh.Nodup)
    (hstart : start ≤ (old ++ fresh).length)
    (hold : ∀ a ∈ old, a ∉ (old ++ fresh).drop start)
    (hnew : ∀ a ∈ fresh, a ∈ (old ++ fresh).drop start) : start = old.length := by
  rw [length_append] at hstart
  simp only [drop_append, mem_append, not_or] at hold hnew
  have hnil : old.drop start = [] :=
    eq_nil_iff_forall_not_mem.mpr fun a ha => (hold a (mem_of_mem_drop ha)).1 ha
  have hle := drop_eq_nil_iff.mp hnil
  have hsu : fresh ⊆ fresh.drop (start - old.length) := fun a ha =>
    (hnew a ha).resolve_left (hnil ▸ not_mem_nil)
  have hlen := (hfresh.subperm hsu).length_le
  rw [length_drop] at hlen
  omega

/-- Away from its place, a poll passes a record again or skips one that it holds. -/
theorem Valid.inPlace_of_poll (h : s.Valid)
    (hs : s.step (.poll frontier nowNs) = some s') (once : s'.passed.Nodup)
    (hh : ∀ record ∈ s.buffer.records, record ∈ s'.passed) : s.InPlace := by
  obtain ⟨old, fresh, hsp⟩ := h.split
  obtain ⟨hpas, -, -, -⟩ := passed_poll hs
  have hnd := nodup_of_increasing h.increasing
  have hst := s.tail.start_le s.buffer.records.length
  rw [hpas] at once hh
  rw [InPlace, passedHeld_eq hsp, hsp.held]
  rw [hsp.held] at hnd hst once hh
  have heq := eq_length_of_drop hnd.of_append_right hst
    (fun record hrec hag =>
      (nodup_append.mp once).2.2 _ (hsp.wasPassed record hrec) _ hag rfl)
    (fun record hrec => (mem_append.mp (hh record
      (mem_append_right _ hrec))).resolve_left (hsp.notPassed record hrec))
  rw [TailPosition.start] at heq
  split at heq <;> omega

/-- Where every poll finds the position in place, each record that a poll saw was passed
to one frame; and a further poll passes what the source holds once if and only if it finds
the position in place. -/
theorem tail_exactly_once
    (h : Concurrent.System.Reachable step Opened PollsInPlace s) :
    s.ExactlyOnce ∧ ∀ frontier nowNs, ∀ s' ∈ s.step (.poll frontier nowNs),
      (s'.passed.Nodup ∧ ∀ record ∈ s.buffer.records, record ∈ s'.passed) ↔ s.InPlace := by
  have hvalid := valid_of_reachable h
  refine ⟨hvalid.exactlyOnce, fun frontier nowNs s' hstep => ⟨?_, ?_⟩⟩
  · rintro ⟨honce, hheld⟩
    exact hvalid.inPlace_of_poll hstep honce hheld
  · intro hplace
    obtain ⟨old, fresh, hsplit⟩ := hvalid.split
    refine ⟨(hvalid.poll hplace hstep).exactlyOnce.once, fun record hrecord => ?_⟩
    rw [(passed_poll hstep).1, drop_start hsplit hplace, mem_append]
    rw [hsplit.held, mem_append] at hrecord
    exact hrecord.imp_left (hsplit.wasPassed record)

/-! ### Sample runs -/

def sampleRecord (timestampNs : Int) : WalLogRecord :=
  ⟨"tenant", [], timestampNs, "line", [], some ⟨0, timestampNs⟩⟩

/-- A tail opened over an empty source. -/
def sampleOpened : TailRun where
  buffer := {}
  tail := ⟨0, 0⟩
  allocations := 0

theorem opened_sampleOpened : sampleOpened.Opened := ⟨rfl, rfl, rfl, .nil, by simp [sampleOpened]⟩

def stateAfter (events : List TailEvent) : TailRun :=
  (Concurrent.System.run step sampleOpened events).getD sampleOpened

theorem reached_stateAfter {events : List TailEvent}
    (meets : Concurrent.System.Meets step PollsInPlace sampleOpened events)
    (hsm : (Concurrent.System.run step sampleOpened events).isSome) :
    Concurrent.System.Reachable step Opened PollsInPlace (stateAfter events) :=
  Concurrent.System.Reachable.getD (.initial opened_sampleOpened) meets hsm

/-- Two records are passed, both are pruned, and a poll comes before the next append. -/
def prunedThenPolled : List TailEvent :=
  [.append (sampleRecord 1), .append (sampleRecord 2), .poll (.new 0) 0, .prune (.new 2),
    .poll (.new 2) 0, .append (sampleRecord 3), .poll (.new 2) 0]

theorem tail_exactly_once_prunedThenPolled :
    (stateAfter prunedThenPolled).passed.length = 3 ∧ (stateAfter prunedThenPolled).ExactlyOnce :=
  ⟨by decide +kernel, (tail_exactly_once (reached_stateAfter (by decide +kernel) (by decide))).1⟩

/-- As many records are appended as were pruned before the next poll. -/
def prunedThenReplaced : List TailEvent :=
  [.append (sampleRecord 1), .append (sampleRecord 2), .poll (.new 0) 0, .prune (.new 2),
    .append (sampleRecord 3), .append (sampleRecord 4), .poll (.new 2) 0]

/-- One of two passed records is pruned. -/
def prunedInPart : List TailEvent :=
  [.append (sampleRecord 1), .append (sampleRecord 2), .poll (.new 0) 0, .prune (.new 1),
    .poll (.new 1) 0]

/-- In the first run a poll sees the records 2 and 3 and no frame has them; in the second
the record 1 is in two frames. -/
theorem tail_skips_and_repeats :
    ((stateAfter prunedThenReplaced).polled.map Shared.allocation = [0, 1, 2, 3] ∧
      (stateAfter prunedThenReplaced).passed.map Shared.allocation = [0, 1]) ∧
    (stateAfter prunedInPart).passed.map Shared.allocation = [0, 1, 1] ∧
    ¬ (stateAfter prunedThenReplaced).ExactlyOnce ∧ ¬ (stateAfter prunedInPart).ExactlyOnce := by
  refine ⟨⟨by decide +kernel, by decide +kernel⟩, by decide +kernel, fun h => ?_, fun h => ?_⟩
  · have hseen := h.seen
    revert hseen
    decide +kernel
  · have honce := h.once
    revert honce
    decide +kernel

end TailRun

end KrabkaO11y.Observability
