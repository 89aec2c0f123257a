import KrabkaO11y.Concurrent.System
import KrabkaO11y.Traces.MetricsGenerator

/-!
The metrics generator as a service (`crates/traces/src/metricsgen/service.rs`, `sink.rs`): polls,
collections whose payloads are written one at a time, the commit, the checkpoints of the edges
that are still open, and crashes between any two of these.

A commit covers everything polled: also what was polled after the payloads were collected that it
waits for, and what a poll had read when it was dropped. And a poll removes the checkpoints of the
edges that it completed before their payload is written. `committed_spans_accounted` is what holds
when none of this happens: a span below the committed position is counted in an accepted payload,
and its edge is in one or in a checkpoint.

A write or a commit may fail with or without effect. A checkpoint is read back as it was saved.
-/

namespace KrabkaO11y.Traces.MetricsGen

open Concurrent.System List

variable {β δ : Type}

/-! ### The service -/

/-- Where a collection stands; polls run when none is going on. -/
inductive Phase where
  | idle
  | writing
  | committing
  | syncing
deriving DecidableEq, Repr

/-- The log, what is durable, and the running process. `collected` is the position when the
payloads were last collected, and `skipped` whether the process read spans that it did not
process; no step reads them. -/
structure State (β δ : Type) where
  log : List (SpanRecord β) := []
  committed : Nat := 0
  accepted : List (Payload δ) := []
  checkpoints : List (Edge δ) := []
  position : Nat := 0
  generator : Generator δ := {}
  pending : List (Payload δ) := []
  checkpointKeys : List EdgeKey := []
  phase : Phase := .idle
  collected : Nat := 0
  skipped : Bool := false

/-- The clock is read for every span of a poll, which also bounds the poll. A poll is dropped when
the timer of the collection fires after the consumer has moved, or when a record does not
decode. -/
inductive Event (β : Type) where
  | append (span : SpanRecord β)
  | poll (nows : List Int64)
  | dropPoll (count : Nat)
  | collect (now : Int64)
  | write (delivered ok : Bool)
  | commit (effective ok : Bool)
  | sync
  | crash

namespace State

/-- The spans that a poll returns, with the readings of the clock. -/
def polled (s : State β δ) (nows : List Int64) : List (SpanRecord β × Int64) :=
  (s.log.drop s.position).zip nows

/-- Saves every open edge, and removes the checkpoints of those that were open before. -/
def syncEdgeCheckpoints (s : State β δ) : State β δ :=
  { s with
    checkpoints := s.generator.edges ++ s.checkpoints.filter fun edge =>
      edge.key ∉ s.generator.edges.map Edge.key ∧ edge.key ∉ s.checkpointKeys
    checkpointKeys := s.generator.edges.map Edge.key }

def processPolled (config : Config β δ) (s : State β δ) (nows : List Int64) : State β δ :=
  { s with
    position := s.position + (s.polled nows).length
    generator := s.generator.processAll config s.position (s.polled nows) }

def pollOnce (config : Config β δ) (s : State β δ) (nows : List Int64) : State β δ :=
  if (s.polled nows).isEmpty then s else (s.processPolled config nows).syncEdgeCheckpoints

def dropPolled (s : State β δ) (count : Nat) : State β δ :=
  let records := (s.log.drop s.position).take count
  { s with
    position := s.position + records.length
    skipped := s.skipped || !records.isEmpty }

def snapshot (config : Config β δ) (s : State β δ) (now : Int64) : State β δ :=
  let collected := s.generator.expireAll config now
  { s with generator := collected.drained, pending := collected.payloads, collected := s.position }

/-- Payloads that are still pending are kept. -/
def collectPending (config : Config β δ) (s : State β δ) (now : Int64) : State β δ :=
  match s.pending with
  | [] => s.snapshot config now
  | _ :: _ => s

def beginWrites (s : State β δ) : State β δ :=
  match s.pending with
  | [] => s.syncEdgeCheckpoints
  | _ :: _ => { s with phase := .writing }

def writePayload (s : State β δ) (delivered ok : Bool) : Option (State β δ) :=
  match s.pending with
  | [] => none
  | payload :: rest =>
    let accepted := if delivered || ok then s.accepted ++ [payload] else s.accepted
    some { s with
      accepted := accepted
      pending := if ok then rest else s.pending
      phase := if ok then (if rest.isEmpty then .committing else .writing) else .idle }

def commit (s : State β δ) (effective ok : Bool) : State β δ :=
  { s with
    committed := if effective || ok then s.position else s.committed
    phase := if ok then .syncing else .idle }

def restart (s : State β δ) : State β δ :=
  { s with
    position := s.committed
    generator := Generator.restore s.checkpoints
    pending := []
    checkpointKeys := s.checkpoints.map Edge.key
    phase := .idle
    collected := s.committed
    skipped := false }

end State

def step (config : Config β δ) (s : State β δ) : Event β → Option (State β δ)
  | .append span => some { s with log := s.log ++ [span] }
  | .poll nows => if s.phase = .idle then some (s.pollOnce config nows) else none
  | .dropPoll count => if s.phase = .idle then some (s.dropPolled count) else none
  | .collect now =>
    if s.phase = .idle then some (s.collectPending config now).beginWrites else none
  | .write delivered ok => if s.phase = .writing then s.writePayload delivered ok else none
  | .commit effective ok => if s.phase = .committing then some (s.commit effective ok) else none
  | .sync =>
    if s.phase = .syncing then some { s.syncEdgeCheckpoints with phase := .idle } else none
  | .crash => some s.restart

def initial (s : State β δ) : Prop := ∃ log, s = { log := log }

/-! ### The property -/

/-- Some payload counts the span. -/
def Counted (payloads : List (Payload δ)) (tenant : String) (o : Nat) : Prop :=
  ∃ payload ∈ payloads, (tenant, o) ∈ payload.recorded
deriving Decidable

/-- Some payload has the finished edge of the span. -/
def Emitted (payloads : List (Payload δ)) (o : Nat) : Prop :=
  ∃ payload ∈ payloads, OnFinished payload.finished o
deriving Decidable

/-- The spans below the committed position are accounted for. -/
def Accounted (config : Config β δ) (s : State β δ) : Prop :=
  ∀ o < s.committed, ∀ span, s.log[o]? = some span →
    (config.counted span = true → Counted s.accepted span.tenant o) ∧
    (onServiceGraph config span = true → Emitted s.accepted o ∨ OnEdge s.checkpoints o)

/-- A checkpointed edge has a committed span that is in no accepted payload. -/
def State.Awaited (s : State β δ) (edge : Edge δ) : Prop :=
  ∃ o ∈ edge.spans, o < s.committed ∧ ¬ Emitted s.accepted o

/-- When a poll returns spans, the awaited edges are open, and the spans are of other edges and
read before any of these expires. When a commit takes effect, nothing was polled since the
collection before it, and no poll was dropped since the start. -/
def Careful (config : Config β δ) (s : State β δ) : Event β → Prop
  | .poll nows => s.polled nows ≠ [] → ∀ edge ∈ s.checkpoints, s.Awaited edge →
      edge ∈ s.generator.edges ∧ ∀ entry ∈ s.polled nows, Spared config edge entry
  | .commit effective ok =>
    (effective || ok) = true → s.position = s.collected ∧ s.skipped = false
  | _ => True

/-! ### The invariant -/

/-- Where the span of an edge is kept that was read and not committed. -/
def Placed (s : State β δ) (o : Nat) : Prop :=
  (OnEdge s.generator.edges o ∨ OnFinished s.generator.finished o) ∨
    Emitted (s.pending ++ s.accepted) o

structure Invariant (config : Config β δ) (s : State β δ) : Prop where
  committed_le : s.committed ≤ s.position
  collected_le : s.collected ≤ s.position
  position_le : s.position ≤ s.log.length
  accounted : Accounted config s
  recorded : s.skipped = false → ∀ o, s.committed ≤ o → o < s.position → ∀ span,
    s.log[o]? = some span → config.counted span = true → (span.tenant, o) ∈ s.generator.recorded
  placed : s.skipped = false → ∀ o, s.committed ≤ o → o < s.position → ∀ span,
    s.log[o]? = some span → onServiceGraph config span = true → Placed s o
  collected : s.skipped = false → ∀ o, s.committed ≤ o → o < s.collected → ∀ span,
    s.log[o]? = some span → config.counted span = true →
      Counted (s.pending ++ s.accepted) span.tenant o
  drained : s.collected = s.position → s.generator.finished = []
  wellFormed : WellFormed s.generator
  live : ∀ edge ∈ s.generator.edges, edge ∈ s.checkpoints
  keys : ∀ edge ∈ s.checkpoints, edge.key ∈ s.checkpointKeys
  stored : ∀ edge ∈ s.checkpoints, edge ∈ s.generator.edges ∨
    ∀ o ∈ edge.spans, Emitted (s.pending ++ s.accepted) o
  written : s.phase = .committing ∨ s.phase = .syncing → s.pending = []

section Steps

variable {config : Config β δ} {s s' : State β δ} {payloads payloads' : List (Payload δ)}
  {o : Nat} {tenant : String}

theorem Counted.mono (h : ∀ payload ∈ payloads, payload ∈ payloads')
    (hcnt : Counted payloads tenant o) : Counted payloads' tenant o := by
  obtain ⟨payload, hpay, hmem⟩ := hcnt
  exact ⟨payload, h payload hpay, hmem⟩

theorem Emitted.mono (h : ∀ payload ∈ payloads, payload ∈ payloads')
    (emitted : Emitted payloads o) : Emitted payloads' o := by
  obtain ⟨payload, hpay, hmem⟩ := emitted
  exact ⟨payload, h payload hpay, hmem⟩

/-- With the keys of all checkpoints known, a sync leaves the open edges. -/
theorem mem_syncEdgeCheckpoints (hkeys : ∀ edge ∈ s.checkpoints, edge.key ∈ s.checkpointKeys)
    {edge : Edge δ} : edge ∈ s.syncEdgeCheckpoints.checkpoints ↔ edge ∈ s.generator.edges := by
  simp only [State.syncEdgeCheckpoints, mem_append, mem_filter]
  refine ⟨?_, .inl⟩
  rintro (live | ⟨hold, hk⟩)
  · exact live
  · simp [hkeys edge hold] at hk

/-- A sync with nothing pending removes only what is in accepted payloads. -/
theorem Invariant.syncEdgeCheckpoints (h : Invariant config s) (hpending : s.pending = []) :
    Invariant config s.syncEdgeCheckpoints := by
  have hmem := @mem_syncEdgeCheckpoints β δ s h.keys
  refine { h with
    accounted := fun o ho span hspan => ⟨(h.accounted o ho span hspan).1, fun hgraph => ?_⟩
    live := fun edge he => hmem.mpr he
    keys := fun edge he => mem_map_of_mem (hmem.mp he)
    stored := fun edge he => .inl (hmem.mp he) }
  rcases (h.accounted o ho span hspan).2 hgraph with emitted | ⟨edge, he, ho⟩
  · exact .inl emitted
  · rcases h.stored edge he with hlive | hfin
    · exact .inr ⟨edge, hmem.mpr hlive, ho⟩
    · refine .inl ((hfin o ho).mono fun payload hpay => ?_)
      rw [hpending] at hpay
      exact hpay

/-- A span that is appended is not polled yet. -/
theorem Invariant.append (h : Invariant config s) (span : SpanRecord β) :
    Invariant config { s with log := s.log ++ [span] } := by
  have hlog : ∀ o < s.position, (s.log ++ [span])[o]? = s.log[o]? := fun o ho =>
    getElem?_append_left (lt_of_lt_of_le ho h.position_le)
  refine { h with
    position_le := h.position_le.trans (by simp)
    accounted := fun o ho other hspan => h.accounted o ho other ?_
    recorded := fun hsk o hlo hhi other hspan => h.recorded hsk o hlo hhi other ?_
    placed := fun hsk o hlo hhi other hspan => h.placed hsk o hlo hhi other ?_
    collected := fun hsk o hlo hhi other hspan => h.collected hsk o hlo hhi other ?_ }
  · rwa [← hlog o (lt_of_lt_of_le ho h.committed_le)]
  · rwa [← hlog o hhi]
  · rwa [← hlog o hhi]
  · rwa [← hlog o (lt_of_lt_of_le hhi h.collected_le)]

/-- A polled entry is the span at its place in the log. -/
theorem getElem?_polled {nows : List Int64} {i : Nat} (hi : i < (s.polled nows).length) :
    ∃ entry, (s.polled nows)[i]? = some entry ∧ s.log[s.position + i]? = some entry.1 := by
  obtain ⟨entry, he⟩ : ∃ entry, (s.polled nows)[i]? = some entry :=
    ⟨_, getElem?_eq_getElem hi⟩
  refine ⟨entry, he, ?_⟩
  have hzip := (getElem?_zip_eq_some.mp he).1
  rwa [getElem?_drop] at hzip

/-- A careful poll places its spans and leaves the awaited edges open. -/
theorem Invariant.poll {nows : List Int64} (h : Invariant config s)
    (careful : Careful config s (.poll nows)) : Invariant config (s.pollOnce config nows) := by
  by_cases hemp : s.polled nows = []
  · rwa [State.pollOnce, if_pos (by simp [hemp])]
  have careful := careful hemp
  rw [State.pollOnce, if_neg (by simpa using hemp)]
  have hspe := @processAll_spec β δ config (s.polled nows) s.generator s.position
  have hlen : (s.polled nows).length ≤ s.log.length - s.position := by
    simp [State.polled]
  have hpos : 0 < (s.polled nows).length := length_pos_iff.mpr hemp
  have hfit := h.position_le
  -- a span is one of an earlier poll or the entry of this one
  have he : ∀ o, s.position ≤ o → o < s.position + (s.polled nows).length → ∀ span,
      s.log[o]? = some span → ∃ entry, (s.polled nows)[o - s.position]? = some entry ∧
        entry.1 = span := by
    intro o hlo hhi span hspan
    obtain ⟨entry, he, hlog⟩ := @getElem?_polled β δ s nows (o - s.position) (by omega)
    rw [show s.position + (o - s.position) = o by omega, hspan] at hlog
    exact ⟨entry, he, (Option.some.inj hlog).symm⟩
  have hmem := @mem_syncEdgeCheckpoints β δ (s.processPolled config nows) h.keys
  refine
    { committed_le := h.committed_le.trans (Nat.le_add_right _ _)
      collected_le := h.collected_le.trans (Nat.le_add_right _ _)
      position_le := by
        simp only [State.syncEdgeCheckpoints, State.processPolled]
        omega
      accounted := fun o ho span hspan => ⟨(h.accounted o ho span hspan).1, fun hgraph => ?_⟩
      recorded := fun hsk o hlo hhi span hspan hcnt => ?_
      placed := fun hsk o hlo hhi span hspan hgraph => ?_
      collected := h.collected
      drained := fun hcollected => ?_
      wellFormed := hspe.1.wellFormed h.wellFormed
      live := fun edge hedge => hmem.mpr hedge
      keys := fun edge hedge => mem_map_of_mem (hmem.mp hedge)
      stored := fun edge hedge => .inl (hmem.mp hedge)
      written := h.written }
  · rcases (h.accounted o ho span hspan).2 hgraph with emitted | ⟨edge, hedge, hoff⟩
    · exact .inl emitted
    · by_cases emitted : Emitted s.accepted o
      · exact .inl emitted
      · obtain ⟨hopen, hspared⟩ := careful edge hedge ⟨o, hoff, ho, emitted⟩
        exact .inr ⟨edge, hmem.mpr (mem_processAll_of_spared hopen hspared), hoff⟩
  · rcases lt_or_ge o s.position with hold | hnew
    · exact hspe.1.recorded _ (h.recorded hsk o hlo hold span hspan hcnt)
    · obtain ⟨entry, hpol, rfl⟩ := he o hnew hhi span hspan
      have hrecorded := (hspe.2 _ entry hpol).1 hcnt
      rwa [show s.position + (o - s.position) = o by omega] at hrecorded
  · rcases lt_or_ge o s.position with hold | hnew
    · exact (h.placed hsk o hlo hold span hspan hgraph).imp (hspe.1.offsets o) id
    · obtain ⟨entry, hpol, rfl⟩ := he o hnew hhi span hspan
      have hplaced := (hspe.2 _ entry hpol).2 hgraph
      rw [show s.position + (o - s.position) = o by omega] at hplaced
      exact .inl hplaced
  · have hle := h.collected_le
    simp only [State.syncEdgeCheckpoints, State.processPolled] at hcollected
    omega

/-- A dropped poll moves the position, and nothing is claimed of what it skipped. -/
theorem Invariant.dropPoll (h : Invariant config s) (count : Nat) :
    Invariant config (s.dropPolled count) := by
  cases hrecords : (s.log.drop s.position).take count with
  | nil =>
    have hsame : s.dropPolled count = s := by simp [State.dropPolled, hrecords]
    rwa [hsame]
  | cons record records =>
    have hlength := congrArg length hrecords
    rw [length_take, length_drop, length_cons] at hlength
    have hmoved : s.dropPolled count =
        { s with position := s.position + (records.length + 1), skipped := true } := by
      simp [State.dropPolled, hrecords]
    have hposition := h.position_le
    rw [hmoved]
    exact { h with
      committed_le := h.committed_le.trans (Nat.le_add_right _ _)
      collected_le := h.collected_le.trans (Nat.le_add_right _ _)
      position_le := by simp only; omega
      recorded := nofun
      placed := nofun
      collected := nofun
      drained := fun heq => absurd heq (by have := h.collected_le; simp only; omega) }

/-- What was recorded is counted in the payload of its tenant. -/
theorem counted_payloads {g : Generator δ} (hg : WellFormed g) (h : (tenant, o) ∈ g.recorded) :
    Counted g.payloads tenant o :=
  ⟨_, mem_map_of_mem (hg.recorded _ h), mem_filter.mpr ⟨h, by simp⟩⟩

/-- A finished edge is in the payload of its tenant. -/
theorem emitted_payloads {g : Generator δ} (hg : WellFormed g) {edge : Finished δ}
    (he : edge ∈ g.finished) (ho : o ∈ edge.spans) : Emitted g.payloads o :=
  ⟨_, mem_map_of_mem (hg.finished _ he), edge, mem_filter.mpr ⟨he, by simp⟩, ho⟩

/-- A collection moves what was recorded and finished into payloads. -/
theorem Invariant.snapshot {now : Int64} (h : Invariant config s) (hphase : s.phase = .idle)
    (hpending : s.pending = []) : Invariant config (s.snapshot config now) := by
  have hext : Extends s.generator (s.generator.expireAll config now) := extends_expireAll
  have formed := hext.wellFormed h.wellFormed
  have hedges := @expireAll_edges β δ config s.generator now
  -- nothing was pending, so what was emitted is accepted
  have hold : ∀ payload ∈ s.pending ++ s.accepted,
      payload ∈ (s.generator.expireAll config now).payloads ++ s.accepted := by
    intro payload hpay
    rw [hpending] at hpay
    exact mem_append_right _ hpay
  have hnew : ∀ payload ∈ (s.generator.expireAll config now).payloads,
      payload ∈ (s.generator.expireAll config now).payloads ++ s.accepted := fun _ =>
    mem_append_left _
  refine
    { committed_le := h.committed_le
      collected_le := le_rfl
      position_le := h.position_le
      accounted := h.accounted
      recorded := fun hsk o hlo hhi span hspan hcnt =>
        hext.recorded _ (h.recorded hsk o hlo hhi span hspan hcnt)
      placed := fun hsk o hlo hhi span hspan hgraph => ?_
      collected := fun hsk o hlo hhi span hspan hcnt => (counted_payloads formed
        (hext.recorded _ (h.recorded hsk o hlo hhi span hspan hcnt))).mono hnew
      drained := fun _ => rfl
      wellFormed := ⟨formed.recorded, formed.edges, nofun⟩
      live := fun edge he => h.live edge (hedges.1 edge he)
      keys := h.keys
      stored := fun edge he => ?_
      written := fun phase' => ?_ }
  · rcases h.placed hsk o hlo hhi span hspan hgraph with hh | emitted
    · rcases hext.offsets o hh with hlive | ⟨edge, he, ho⟩
      · exact .inl (.inl hlive)
      · exact .inr ((emitted_payloads formed he ho).mono hnew)
    · exact .inr (emitted.mono hold)
  · rcases h.stored edge he with hlive | emitted
    · rcases hedges.2 edge hlive with hk | ⟨finished, hfin, spans⟩
      · exact .inl hk
      · exact .inr fun o ho =>
          (emitted_payloads formed hfin (spans ▸ ho)).mono hnew
    · exact .inr fun o ho => (emitted o ho).mono hold
  · simp [State.snapshot, hphase] at phase'

theorem Invariant.collect {now : Int64} (h : Invariant config s) (hphase : s.phase = .idle) :
    Invariant config (s.collectPending config now).beginWrites := by
  have collected : Invariant config (s.collectPending config now) := by
    unfold State.collectPending
    split
    next pending => exact h.snapshot hphase pending
    next => exact h
  unfold State.beginWrites
  split
  next pending => exact collected.syncEdgeCheckpoints pending
  next => exact { collected with written := fun writing => by simp at writing }

/-- A payload leaves the queue only when it is accepted. -/
theorem Invariant.write {delivered ok : Bool} (h : Invariant config s)
    (hs : s.writePayload delivered ok = some s') : Invariant config s' := by
  unfold State.writePayload at hs
  split at hs
  next => cases hs
  next payload rest hpending =>
    cases hs
    have hacc : ∀ other ∈ s.accepted,
        other ∈ (if delivered || ok then s.accepted ++ [payload] else s.accepted) := by
      intro other hother
      split
      next => exact mem_append_left _ hother
      next => exact hother
    have hk : ∀ other ∈ s.pending ++ s.accepted, other ∈
        (if ok then rest else s.pending) ++
          (if delivered || ok then s.accepted ++ [payload] else s.accepted) := by
      intro other hother
      rcases mem_append.mp hother with hother | hother
      · cases ok with
        | false => exact mem_append_left _ hother
        | true =>
          rw [hpending] at hother
          rcases mem_cons.mp hother with rfl | hr
          · simp
          · exact mem_append_left _ hr
      · exact mem_append_right _ (hacc other hother)
    refine { h with
      accounted := fun o ho span hspan => ⟨fun hcnt =>
        ((h.accounted o ho span hspan).1 hcnt).mono hacc, fun hgraph =>
        ((h.accounted o ho span hspan).2 hgraph).imp (Emitted.mono hacc) id⟩
      placed := fun hsk o hlo hhi span hspan hgraph =>
        (h.placed hsk o hlo hhi span hspan hgraph).imp id (Emitted.mono hk)
      collected := fun hsk o hlo hhi span hspan hcnt =>
        (h.collected hsk o hlo hhi span hspan hcnt).mono hk
      stored := fun edge he =>
        (h.stored edge he).imp id fun emitted o ho => (emitted o ho).mono hk
      written := fun phase => ?_ }
    cases ok with
    | false => simp at phase
    | true =>
      cases rest with
      | nil => rfl
      | cons => simp at phase

/-- A commit that takes effect covers what was collected and accepted. -/
theorem Invariant.commit {effective ok : Bool} (h : Invariant config s)
    (careful : Careful config s (.commit effective ok)) (hphase : s.phase = .committing) :
    Invariant config (s.commit effective ok) := by
  have hpending := h.written (.inl hphase)
  have hacc : ∀ payload ∈ s.pending ++ s.accepted, payload ∈ s.accepted := by
    simp [hpending]
  by_cases moves : (effective || ok) = true
  · obtain ⟨hcollected, hsk⟩ := careful moves
    have hcom : (s.commit effective ok).committed = s.position := if_pos moves
    refine { h with
      committed_le := hcom.le
      accounted := fun o ho span hspan => ?_
      recorded := fun _ o hlo hhi => absurd hhi (not_lt.mpr (hcom ▸ hlo))
      placed := fun _ o hlo hhi => absurd hhi (not_lt.mpr (hcom ▸ hlo))
      collected := fun _ o hlo hhi =>
        absurd hhi (not_lt.mpr (h.collected_le.trans (hcom ▸ hlo)))
      written := fun _ => hpending }
    rcases lt_or_ge o s.committed with hold | hnew
    · exact h.accounted o hold span hspan
    · rw [hcom] at ho
      refine ⟨fun hcnt => (h.collected hsk o hnew (hcollected ▸ ho) span hspan hcnt).mono
        hacc, fun hgraph => ?_⟩
      rcases h.placed hsk o hnew ho span hspan hgraph with (⟨edge, he, hmem⟩ | hfin) | emitted
      · exact .inr ⟨edge, h.live edge he, hmem⟩
      · rw [h.drained hcollected.symm] at hfin
        obtain ⟨edge, he, -⟩ := hfin
        cases he
      · exact .inl (emitted.mono hacc)
  · have same : s.commit effective ok = { s with phase := if ok then .syncing else .idle } := by
      simp [State.commit, moves]
    rw [same]
    exact { h with written := fun _ => hpending }

/-- After a restart the checkpointed edges are open again. -/
theorem Invariant.restart (h : Invariant config s) : Invariant config s.restart where
  committed_le := le_rfl
  collected_le := le_rfl
  position_le := h.committed_le.trans h.position_le
  accounted := h.accounted
  recorded _ _ hlo hhi := absurd hhi (not_lt.mpr hlo)
  placed _ _ hlo hhi := absurd hhi (not_lt.mpr hlo)
  collected _ _ hlo hhi := absurd hhi (not_lt.mpr hlo)
  drained _ := rfl
  wellFormed := ⟨nofun, fun _ edge =>
    mem_dedup.mpr (mem_map_of_mem edge), nofun⟩
  live _ edge := edge
  keys _ edge := mem_map_of_mem edge
  stored _ edge := .inl edge
  written _ := rfl

theorem Invariant.step {event : Event β} (h : Invariant config s)
    (careful : Careful config s event) (hs : step config s event = some s') :
    Invariant config s' := by
  cases event with
  | append span =>
    cases hs
    exact h.append span
  | poll nows =>
    obtain ⟨-, heq⟩ := Option.ite_none_right_eq_some.mp hs
    cases heq
    exact h.poll careful
  | dropPoll count =>
    obtain ⟨-, heq⟩ := Option.ite_none_right_eq_some.mp hs
    cases heq
    exact h.dropPoll count
  | collect now =>
    obtain ⟨phase, heq⟩ := Option.ite_none_right_eq_some.mp hs
    cases heq
    exact h.collect phase
  | write delivered ok =>
    obtain ⟨-, hw⟩ := Option.ite_none_right_eq_some.mp hs
    exact h.write hw
  | commit effective ok =>
    obtain ⟨phase, heq⟩ := Option.ite_none_right_eq_some.mp hs
    cases heq
    exact h.commit careful phase
  | sync =>
    obtain ⟨phase, heq⟩ := Option.ite_none_right_eq_some.mp hs
    cases heq
    have synced := h.syncEdgeCheckpoints (h.written (.inr phase))
    exact { synced with written := fun idle => by simp at idle }
  | crash =>
    cases hs
    exact h.restart

theorem invariant_of_initial (h : initial s) : Invariant config s := by
  obtain ⟨log, rfl⟩ := h
  exact
    { committed_le := le_rfl
      collected_le := le_rfl
      position_le := Nat.zero_le _
      accounted := fun _ ho => absurd ho (Nat.not_lt_zero _)
      recorded := fun _ _ _ hhi => absurd hhi (Nat.not_lt_zero _)
      placed := fun _ _ _ hhi => absurd hhi (Nat.not_lt_zero _)
      collected := fun _ _ _ hhi => absurd hhi (Nat.not_lt_zero _)
      drained := fun _ => rfl
      wellFormed := ⟨nofun,
        nofun, nofun⟩
      live := nofun
      keys := nofun
      stored := nofun
      written := fun _ => rfl }

end Steps

/-! ### Runs -/

/-- In every run of careful steps the spans below the committed position are accounted for. -/
theorem committed_spans_accounted {config : Config β δ} {s : State β δ}
    (h : Reachable (step config) initial (Careful config) s) : Accounted config s :=
  (h.invariant (fun _ => invariant_of_initial) fun _ _ _ hs hcareful hstep =>
    hs.step hcareful hstep).accounted

/-- Every span counts, and an edge is complete once it has a client and a server span. -/
def pairing : Config Unit (Bool × Bool) where
  counted _ := true
  allowed _ := true
  maxItems _ := 10
  ttl _ := 1000
  newData _ isClient := (isClient, !isClient)
  fill data _ isClient := (data.1 || isClient, data.2 || !isClient)
  bothSides data := data.1 && data.2

def request (kind : SpanKind) (spanId parentSpanId : Nat) : SpanRecord Unit :=
  ⟨"a", 1, spanId, parentSpanId, kind, ()⟩

/-- A client span and the server span of its edge. -/
def requests : State Unit (Bool × Bool) where
  log := [request .client 1 0, request .server 2 1]

instance decidableCareful (config : Config Unit (Bool × Bool)) (s : State Unit (Bool × Bool)) :
    (event : Event Unit) → Decidable (Careful config s event)
  | .poll nows =>
    have : DecidablePred s.Awaited := fun edge =>
      inferInstanceAs (Decidable (∃ o ∈ edge.spans, _ ∧ _))
    have : ∀ edge entry, Decidable (Spared config edge entry) := fun _ _ =>
      inferInstanceAs (Decidable (_ ∧ _))
    inferInstanceAs (Decidable (s.polled nows ≠ [] → ∀ edge ∈ s.checkpoints, s.Awaited edge → _))
  | .commit _ _ => inferInstanceAs (Decidable (_ → _))
  | .append _ | .dropPoll _ | .collect _ | .write _ _ | .sync | .crash => .isTrue trivial

/-- Client spans of two edges, the second read while the first waits in its checkpoint. -/
def openRequests : State Unit (Bool × Bool) where
  log := [request .client 1 0, request .client 3 0]

def openRun : List (Event Unit) :=
  [.poll [5], .collect 6, .write true true, .commit true true, .sync, .poll [7], .collect 8,
    .write true true, .commit true true, .crash]

/-- Two rounds that commit, and a crash. -/
theorem committed_spans_accounted_open :
    ∃ s, run (step pairing) openRequests openRun = some s ∧ s.committed = 2 ∧
      Accounted pairing s := by
  have hmeets : Meets (step pairing) (Careful pairing) openRequests openRun := by decide +kernel
  have hcommitted : (run (step pairing) openRequests openRun).map State.committed = some 2 := by
    decide +kernel
  obtain ⟨s, hrun, hcommitted⟩ := Option.map_eq_some_iff.mp hcommitted
  exact ⟨s, hrun, hcommitted, committed_spans_accounted
    (Reachable.run (.initial ⟨_, rfl⟩) hmeets hrun)⟩

/-- The first payload waits for the sink while the second span is read; its commit covers both. -/
def overtakenRun : List (Event Unit) :=
  [.poll [5], .collect 6, .write false false, .poll [7], .collect 8, .write true true,
    .commit true true]

/-- The poll of the second span is dropped, and the payload of the first is written. -/
def droppedRun : List (Event Unit) :=
  [.poll [5], .dropPoll 1, .collect 6, .write true true, .commit true true]

/-- The client span is committed with its open edge in a checkpoint; the server span completes the
edge, the checkpoint goes, and the process stops before the payload is written. -/
def tombstonedRun : List (Event Unit) :=
  [.poll [5], .collect 6, .write true true, .commit true true, .sync, .poll [7], .crash]

/-- In the first two runs the second span is committed and in no accepted payload, in the third
the edge of the first span is in no accepted payload and in no checkpoint. -/
theorem committed_spans_unaccounted :
    (∀ events ∈ [overtakenRun, droppedRun],
      ∃ s, run (step pairing) requests events = some s ∧ s.committed = 2 ∧
        ¬ Counted s.accepted "a" 1 ∧ ¬ Accounted pairing s) ∧
    ∃ s, run (step pairing) requests tombstonedRun = some s ∧ s.committed = 1 ∧
      ¬ (Emitted s.accepted 0 ∨ OnEdge s.checkpoints 0) ∧ ¬ Accounted pairing s := by
  constructor
  · intro events hevents
    have hread : ∀ events ∈ [overtakenRun, droppedRun],
        (run (step pairing) requests events).map (fun s =>
          (s.committed, s.log[1]?, decide (Counted s.accepted "a" 1))) =
            some (2, some (request .server 2 1), false) := by decide +kernel
    obtain ⟨s, hrun, hread⟩ := Option.map_eq_some_iff.mp (hread events hevents)
    obtain ⟨hcommitted, hread⟩ := Prod.mk.inj hread
    obtain ⟨hspan, hcounted⟩ := Prod.mk.inj hread
    have hcounted : ¬ Counted s.accepted "a" 1 := of_decide_eq_false hcounted
    exact ⟨s, hrun, hcommitted, hcounted, fun h =>
      hcounted ((h 1 (by omega) _ hspan).1 rfl)⟩
  · obtain ⟨s, hrun⟩ : ∃ s, run (step pairing) requests tombstonedRun = some s := ⟨_, rfl⟩
    have hread : (run (step pairing) requests tombstonedRun).map (fun s =>
        (s.committed, s.log[0]?, decide (Emitted s.accepted 0 ∨ OnEdge s.checkpoints 0))) =
          some (1, some (request .client 1 0), false) := by decide +kernel
    rw [hrun] at hread
    obtain ⟨hcommitted, hread⟩ := Prod.mk.inj (Option.some.inj hread)
    obtain ⟨hspan, hlost⟩ := Prod.mk.inj hread
    have hlost : ¬ (Emitted s.accepted 0 ∨ OnEdge s.checkpoints 0) := of_decide_eq_false hlost
    exact ⟨s, hrun, hcommitted, hlost, fun h => hlost ((h 0 (by omega) _ hspan).2 rfl)⟩

end KrabkaO11y.Traces.MetricsGen
