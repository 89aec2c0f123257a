import KrabkaO11y.Collections.Upsert

/-!
The merge of trace search partials (`crates/traces/src/frontend/merge.rs`).

Partials are folded in as their jobs complete. A trace is reunited with the one of its id,
and a span set with the one of its grouping attributes; the result is then sorted by start
time, newest first, and cut. `Reunited` says what a merged trace holds of all the partial
traces of its id, in terms that do not mention their order. Grouping attributes are a
parameter.
-/

namespace KrabkaO11y.Traces

open List

open Collections (upsert upsertAll Gathered Absorbs)

/-! ### The answer of a querier -/

structure Span where
  spanId : String
  startTimeUnixNano : String
  durationNanos : String
deriving DecidableEq, Repr

structure SpanSet (α : Type) where
  spans : List Span
  matched : Nat
  attributes : α
deriving DecidableEq, Repr

structure Trace (α : Type) where
  traceId : String
  rootServiceName : String
  rootTraceName : String
  startTimeUnixNano : String
  durationNs : Int
  spanSets : List (SpanSet α)
deriving DecidableEq, Repr

open Trace

structure SearchMetrics where
  totalJobs : Nat := 0
  completedJobs : Nat := 0
  totalBlocks : Nat := 0
  inspectedTraces : Nat := 0
  inspectedBytes : Nat := 0
  inspectedSpans : Nat := 0
deriving DecidableEq, Repr

structure SearchPartial (α : Type) where
  traces : List (Trace α)
  metrics : SearchMetrics := {}

structure SearchResponse (α : Type) where
  traces : List (Trace α)
  metrics : SearchMetrics
  warnings : List String := []

def u32Max : Nat := 2 ^ 32 - 1

def u64Max : Nat := 2 ^ 64 - 1

def SearchMetrics.add (metrics other : SearchMetrics) : SearchMetrics where
  totalJobs := min (metrics.totalJobs + other.totalJobs) u64Max
  completedJobs := min (metrics.completedJobs + other.completedJobs) u64Max
  totalBlocks := min (metrics.totalBlocks + other.totalBlocks) u64Max
  inspectedTraces := min (metrics.inspectedTraces + other.inspectedTraces) u64Max
  inspectedBytes := min (metrics.inspectedBytes + other.inspectedBytes) u64Max
  inspectedSpans := min (metrics.inspectedSpans + other.inspectedSpans) u64Max

def SpanSet.spanIds {α : Type} (set : SpanSet α) : List String := set.spans.map Span.spanId

/-! ### The start time of a trace -/

/-- The number that some digits write, if all of them are digits and there is one. -/
def parseDigits (digits : List Char) : Option Nat :=
  if digits ≠ [] ∧ digits.all Char.isDigit then
    some (digits.foldl (fun n digit => 10 * n + (digit.toNat - '0'.toNat)) 0)
  else none

/-- An `i128` in decimal, with or without a sign. -/
def parseI128 (text : List Char) : Option Int :=
  let number :=
    match text with
    | '-' :: digits => (parseDigits digits).map fun n => -(n : Int)
    | '+' :: digits => (parseDigits digits).map Nat.cast
    | digits => (parseDigits digits).map Nat.cast
  number.filter fun n => -2 ^ 127 ≤ n ∧ n < 2 ^ 127

/-- A text that is no number counts as the least. -/
def parseNanos (text : String) : Int := (parseI128 text.toList).getD (-2 ^ 127)

def Trace.startNanos {α : Type} (trace : Trace α) : Int := parseNanos trace.startTimeUnixNano

/-! ### The merge -/

variable {α : Type} [DecidableEq α]

/-- Folds a span set into the one of the same attributes. A span that is there already
counts once. -/
def SpanSet.absorb (first spanSet : SpanSet α) : SpanSet α :=
  let duplicates :=
    (spanSet.spans.filter fun span => span.spanId ∈ first.spanIds).length
  let newMatches := spanSet.matched - min duplicates u32Max
  { first with
    matched := min (first.matched + newMatches) u32Max
    spans := upsertAll Span.spanId (fun there _ => there) first.spans spanSet.spans }

def mergeSpanSets (existing incoming : List (SpanSet α)) : List (SpanSet α) :=
  upsertAll SpanSet.attributes SpanSet.absorb existing incoming

/-- The name kept of a trace and a partial of it: the first that is not empty. -/
def keptName (existing incoming : String) : String :=
  if existing = "" then incoming else existing

def Trace.absorb (existing trace : Trace α) : Trace α where
  traceId := existing.traceId
  rootServiceName := keptName existing.rootServiceName trace.rootServiceName
  rootTraceName := keptName existing.rootTraceName trace.rootTraceName
  startTimeUnixNano :=
    if trace.startNanos < existing.startNanos then trace.startTimeUnixNano
    else existing.startTimeUnixNano
  durationNs := if existing.durationNs < trace.durationNs then trace.durationNs
    else existing.durationNs
  spanSets := mergeSpanSets existing.spanSets trace.spanSets

def mergeTrace (merged : List (Trace α)) (trace : Trace α) : List (Trace α) :=
  upsert traceId absorb trace merged

def SpanSet.truncate (spss : Nat) (set : SpanSet α) : SpanSet α :=
  { set with spans := set.spans.take spss }

def Trace.truncate (spss : Nat) (trace : Trace α) : Trace α :=
  { trace with spanSets := trace.spanSets.map (SpanSet.truncate spss) }

/-- The sort is stable. -/
def newestFirst (traces : List (Trace α)) : List (Trace α) :=
  traces.insertionSort fun a b => b.startNanos ≤ a.startNanos

/-- Newest first, at most `limit` traces and `spss` spans of a span set; zero is no limit. -/
def applySearchLimits (traces : List (Trace α)) (limit spss : Nat) : List (Trace α) :=
  let kept := if 0 < limit then (newestFirst traces).take limit else newestFirst traces
  if 0 < spss then kept.map (truncate spss) else kept

variable (partials : List (SearchPartial α))

def mergeSearch (limit spss : Nat) : SearchResponse α :=
  let merged := partials.foldl (fun merged answer => answer.traces.foldl mergeTrace merged) []
  { traces := applySearchLimits merged limit spss
    metrics := partials.foldl (fun metrics answer => metrics.add answer.metrics) {} }

/-! ### What a span set is assembled from -/

/-- A span set lists all the spans it matched, each once. -/
def SpanSet.Listed (set : SpanSet α) : Prop :=
  set.spanIds.Nodup ∧ set.matched = min set.spans.length u32Max
deriving Decidable

/-- A span set holds the spans of all the sets of its attributes, each once. -/
structure SpanSet.Assembled (sets : List (SpanSet α)) (set : SpanSet α) : Prop where
  listed : set.Listed
  mem_spanIds : ∀ id, id ∈ set.spanIds ↔
    ∃ other ∈ sets, other.attributes = set.attributes ∧ id ∈ other.spanIds

section Assembly

omit [DecidableEq α]

variable {first spanSet : SpanSet α}

theorem SpanSet.gathered_absorb (hf : first.spanIds.Nodup) :
    Gathered Span.spanId (fun _ _ => True) (first.spans ++ spanSet.spans)
      (first.absorb spanSet).spans := by
  have hab : Absorbs Span.spanId (fun there _ => there) (fun _ => True)
      (fun _ _ => True) :=
    ⟨fun _ _ => rfl, fun _ _ _ => trivial, fun _ _ => trivial, fun _ _ => trivial⟩
  have hst : Gathered Span.spanId (fun _ _ => True) first.spans first.spans :=
    ⟨hf, fun _ => Iff.rfl, fun _ _ => trivial⟩
  exact hst.upsertAll hab fun _ _ => trivial

theorem SpanSet.mem_spanIds_absorb (hf : first.spanIds.Nodup) (id : String) :
    id ∈ (first.absorb spanSet).spanIds ↔ id ∈ first.spanIds ∨ id ∈ spanSet.spanIds := by
  rw [SpanSet.spanIds, (SpanSet.gathered_absorb hf).keys id, map_append, mem_append]
  rfl

/-- Saturated counts of two sets add up to that of their union. -/
theorem saturated_union {first set duplicates union bound : Nat}
    (h : union + duplicates = first + set) (hset : set ≤ union) (hduplicates : duplicates ≤ set) :
    min (min first bound + (min set bound - min duplicates bound)) bound = min union bound := by
  omega

/-- Sets that list all their spans come together to one that does. -/
theorem SpanSet.Listed.absorb (hf : first.Listed) (hset : spanSet.Listed) :
    (first.absorb spanSet).Listed := by
  obtain ⟨hf, hfi⟩ := hf
  obtain ⟨hset, hse⟩ := hset
  have hnd : (first.absorb spanSet).spanIds.Nodup := (SpanSet.gathered_absorb hf).nodup
  refine ⟨hnd, ?_⟩
  have hlen : (first.absorb spanSet).spans.length +
      (spanSet.spans.filter fun span => span.spanId ∈ first.spanIds).length =
        first.spans.length + spanSet.spans.length :=
    Collections.length_upsertAll (fun _ _ => rfl) hset
  have hsu : spanSet.spanIds ⊆ (first.absorb spanSet).spanIds := fun id hid =>
    (SpanSet.mem_spanIds_absorb hf id).mpr (.inr hid)
  have hle := (List.Nodup.subperm hset hsu).length_le
  have hfil := length_filter_le (fun span => span.spanId ∈ first.spanIds) spanSet.spans
  rw [SpanSet.spanIds, SpanSet.spanIds, length_map, length_map] at hle
  change min (first.matched + (spanSet.matched - min _ u32Max)) u32Max = _
  rw [hfi, hse]
  exact saturated_union hlen hle hfil

theorem absorbs_assembled :
    Absorbs SpanSet.attributes SpanSet.absorb SpanSet.Listed (@SpanSet.Assembled α) where
  key_absorb _ _ := rfl
  absorbs {sets first spanSet} hset h hat := by
    refine ⟨h.listed.absorb hset, fun id => ?_⟩
    rw [SpanSet.mem_spanIds_absorb h.listed.1, h.mem_spanIds]
    simp only [mem_append, mem_singleton]
    constructor
    · rintro (⟨other, ho, heq, hid⟩ | hid)
      · exact ⟨other, .inl ho, heq, hid⟩
      · exact ⟨spanSet, .inr rfl, hat.symm, hid⟩
    · rintro ⟨other, ho | rfl, heq, hid⟩
      · exact .inl ⟨other, ho, heq, hid⟩
      · exact .inr hid
  appends {sets spanSet} hset hnew := by
    refine ⟨hset, fun id => ⟨fun hid => ⟨spanSet, by simp, rfl, hid⟩, ?_⟩⟩
    rintro ⟨other, ho, heq, hid⟩
    rcases mem_append.mp ho with ho | ho
    · exact absurd (heq ▸ mem_map_of_mem ho) hnew
    · rw [mem_singleton.mp ho] at hid
      exact hid
  frames {sets first spanSet} h hne := by
    refine ⟨h.listed, fun id => (h.mem_spanIds id).trans ?_⟩
    simp only [mem_append, mem_singleton]
    constructor
    · rintro ⟨other, ho, heq, hid⟩
      exact ⟨other, .inl ho, heq, hid⟩
    · rintro ⟨other, ho | rfl, heq, hid⟩
      · exact ⟨other, ho, heq, hid⟩
      · exact absurd heq.symm hne

end Assembly

/-! ### What a trace is reunited from -/

/-- A trace lists its span sets, each once for its attributes, with all their spans. -/
def Trace.Listed (trace : Trace α) : Prop :=
  (trace.spanSets.map SpanSet.attributes).Nodup ∧ ∀ set ∈ trace.spanSets, set.Listed

instance Trace.decidableListed (trace : Trace α) : Decidable trace.Listed :=
  inferInstanceAs (Decidable (_ ∧ _))

/-- A field is the best among the traces of the same id. -/
structure Chosen {β : Type} (field : Trace α → β) (better : β → β → Prop)
    (traces : List (Trace α)) (trace : Trace α) : Prop where
  occurs : ∃ other ∈ traces, other.traceId = trace.traceId ∧ field other = field trace
  best : ∀ other ∈ traces, other.traceId = trace.traceId → better (field trace) (field other)

/-- The span sets of the traces of an id. -/
def spanSetsOf (traces : List (Trace α)) (id : String) : List (SpanSet α) :=
  (traces.filter fun trace => trace.traceId = id).flatMap spanSets

/-- A name is better than another unless it is empty and the other is not. -/
def FilledIn (name other : String) : Prop := name = "" → other = ""

/-- A start time is better than a later one. -/
def Earlier (start other : String) : Prop := parseNanos start ≤ parseNanos other

/-- A trace is what all the traces of its id come to. -/
structure Reunited (traces : List (Trace α)) (trace : Trace α) : Prop where
  start : Chosen startTimeUnixNano Earlier traces trace
  duration : Chosen durationNs (fun d other => other ≤ d) traces trace
  serviceName : Chosen rootServiceName FilledIn traces trace
  traceName : Chosen rootTraceName FilledIn traces trace
  spanSets : Gathered SpanSet.attributes SpanSet.Assembled (spanSetsOf traces trace.traceId)
    trace.spanSets

section Reunion

omit [DecidableEq α]

variable {β : Type} {field : Trace α → β} {better : β → β → Prop} {traces : List (Trace α)}
  {trace other : Trace α}

/-- The better of a chosen field and that of one more trace is chosen. -/
theorem Chosen.absorb (h : Chosen field better traces trace)
    (htrans : ∀ a b c, better a b → better b c → better a c) (hrefl : ∀ a, better a a)
    (hid : trace.traceId = other.traceId) {result : Trace α} (hres : result.traceId = trace.traceId)
    (hbet : (field result = field trace ∧ better (field trace) (field other)) ∨
      field result = field other ∧ better (field other) (field trace)) :
    Chosen field better (traces ++ [other]) result := by
  obtain ⟨⟨source, hsrc, hso, hsou⟩, hbe⟩ := h
  rcases hbet with ⟨hfl, hle⟩ | ⟨hfl, hle⟩
  · refine ⟨⟨source, mem_append_left _ hsrc, hso.trans hres.symm,
      hsou.trans hfl.symm⟩, fun x hx hxId => ?_⟩
    rw [hfl]
    rcases mem_append.mp hx with hx | hx
    · exact hbe x hx (hxId.trans hres)
    · rw [mem_singleton.mp hx]
      exact hle
  · refine ⟨⟨other, by simp, hid.symm.trans hres.symm, hfl.symm⟩, fun x hx hxId => ?_⟩
    rw [hfl]
    rcases mem_append.mp hx with hx | hx
    · exact htrans _ _ _ hle (hbe x hx (hxId.trans hres))
    · rw [mem_singleton.mp hx]
      exact hrefl _

theorem Chosen.frame (h : Chosen field better traces trace) (hne : trace.traceId ≠ other.traceId) :
    Chosen field better (traces ++ [other]) trace := by
  obtain ⟨source, hsrc, hso, hsou⟩ := h.occurs
  refine ⟨⟨source, mem_append_left _ hsrc, hso, hsou⟩, fun x hx hxId => ?_⟩
  rcases mem_append.mp hx with hx | hx
  · exact h.best x hx hxId
  · rw [mem_singleton.mp hx] at hxId
    exact absurd hxId.symm hne

theorem Chosen.single (hrefl : ∀ a, better a a) (hnew : trace.traceId ∉ traces.map traceId) :
    Chosen field better (traces ++ [trace]) trace := by
  refine ⟨⟨trace, by simp, rfl, rfl⟩, fun x hx hxId => ?_⟩
  rcases mem_append.mp hx with hx | hx
  · exact absurd (hxId ▸ mem_map_of_mem hx) hnew
  · rw [mem_singleton.mp hx]
    exact hrefl _

theorem keptName_cases (existing incoming : String) :
    (keptName existing incoming = existing ∧ FilledIn existing incoming) ∨
      keptName existing incoming = incoming ∧ FilledIn incoming existing := by
  rw [keptName]
  split
  · rename_i hem
    exact .inr ⟨rfl, fun _ => hem⟩
  · rename_i hfi
    exact .inl ⟨rfl, fun hem => absurd hem hfi⟩

theorem spanSetsOf_append_of_eq (traces : List (Trace α)) (trace : Trace α) :
    spanSetsOf (traces ++ [trace]) trace.traceId =
      spanSetsOf traces trace.traceId ++ trace.spanSets := by
  simp [spanSetsOf]

/-- The span sets of a trace as a querier lists them are assembled from themselves. -/
theorem Trace.Listed.gathered (h : trace.Listed) :
    Gathered SpanSet.attributes SpanSet.Assembled trace.spanSets trace.spanSets := by
  refine ⟨h.1, fun _ => Iff.rfl, fun set hset => ⟨h.2 set hset, fun id => ?_⟩⟩
  constructor
  · exact fun hid => ⟨set, hset, rfl, hid⟩
  · rintro ⟨other, ho, heq, hid⟩
    rwa [← inj_on_of_nodup_map h.1 ho hset heq]

end Reunion

theorem Reunited.absorb {traces : List (Trace α)} {existing trace : Trace α}
    (htrace : trace.Listed) (h : Reunited traces existing)
    (hid : existing.traceId = trace.traceId) :
    Reunited (traces ++ [trace]) (existing.absorb trace) where
  start := by
    refine h.start.absorb (fun _ _ _ => Int.le_trans) (fun _ => Int.le_refl _) hid rfl ?_
    change ((if _ then _ else _) = _ ∧ _) ∨ (if _ then _ else _) = _ ∧ _
    split
    · rename_i hlt
      exact .inr ⟨rfl, le_of_lt hlt⟩
    · rename_i hnot
      exact .inl ⟨rfl, not_lt.mp hnot⟩
  duration := by
    refine h.duration.absorb (fun _ _ _ h h' => Int.le_trans h' h) (fun _ => Int.le_refl _)
      hid rfl ?_
    change ((if _ then _ else _) = _ ∧ _) ∨ (if _ then _ else _) = _ ∧ _
    split
    · rename_i hlt
      exact .inr ⟨rfl, le_of_lt hlt⟩
    · rename_i hnot
      exact .inl ⟨rfl, not_lt.mp hnot⟩
  serviceName := h.serviceName.absorb (fun _ _ _ h h' => h' ∘ h) (fun _ => id) hid rfl
    (keptName_cases ..)
  traceName := h.traceName.absorb (fun _ _ _ h h' => h' ∘ h) (fun _ => id) hid rfl
    (keptName_cases ..)
  spanSets := by
    change Gathered _ _ (spanSetsOf (traces ++ [trace]) existing.traceId) _
    rw [hid, spanSetsOf_append_of_eq, ← hid]
    exact h.spanSets.upsertAll absorbs_assembled htrace.2

/-- The traces of some partials, in the order they are folded in. -/
def tracesOf : List (Trace α) :=
  partials.flatMap SearchPartial.traces

end KrabkaO11y.Traces
