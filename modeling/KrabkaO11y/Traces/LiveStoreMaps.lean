import KrabkaO11y.Collections.Sorted
import KrabkaO11y.Traces.LiveStore

/-!
The maps of the live store (`crates/traces/src/livestore/live_store.rs`).

Spans are held by tenant, trace and arrival slot. Eviction reads the expiration index and
looks its tenant and trace up without a check, so a run is an option: `none` is the failure
of such a lookup. `Shows` relates the maps to the spans in the order of their arrival; each
step on the maps is matched by the step of `LiveStore` on that list.
-/

namespace KrabkaO11y.Traces.Live

open List

open Std (ExtTreeMap)

open Machine (saturatingSub)

abbrev TraceSpans (α : Type) := ExtTreeMap Nat (Span α)

abbrev ByTenant (α : Type) := ExtTreeMap String (ExtTreeMap (BitVec 128) (TraceSpans α))

structure SpanMaps (α : Type) where
  retentionNs : Int64
  maxStartNs : Int64 := Int64.minValue
  expirations : List Expiration := []
  byTenant : ByTenant α := ∅

variable {α : Type}

/-- Writes an inner map back, or takes it out where it became empty. -/
def putBack {κ ι β : Type} [Ord κ] [Std.TransOrd κ] [Ord ι] [Std.TransOrd ι]
    (outer : ExtTreeMap κ (ExtTreeMap ι β)) (key : κ) (inner : ExtTreeMap ι β) :
    ExtTreeMap κ (ExtTreeMap ι β) :=
  if inner.isEmpty then outer.erase key else outer.insert key inner

namespace ByTenant

/-- One turn of the loop of `evict_old`. -/
def remove (byTenant : ByTenant α) (entry : Expiration) : Option (ByTenant α) := do
  let traces ← byTenant[entry.tenant]?
  let spans ← traces[entry.traceId]?
  return putBack byTenant entry.tenant (putBack traces entry.traceId (spans.erase entry.slot))

def evictBefore (cutoff : Int64) : List Expiration → ByTenant α →
    Option (List Expiration × ByTenant α)
  | [], byTenant => some ([], byTenant)
  | first :: rest, byTenant =>
    if first.startNs < cutoff then (byTenant.remove first).bind (evictBefore cutoff rest)
    else some (first :: rest, byTenant)

def spansAt (byTenant : ByTenant α) (tenant : String) (traceId : BitVec 128) : TraceSpans α :=
  (((byTenant[tenant]?).getD ∅)[traceId]?).getD ∅

def insert (byTenant : ByTenant α) (held : Held α) : ByTenant α :=
  ExtTreeMap.insert byTenant held.tenant (((byTenant[held.tenant]?).getD ∅).insert held.span.traceId
    ((byTenant.spansAt held.tenant held.span.traceId).insert held.slot held.span))

end ByTenant

namespace SpanMaps

def evictOld (store : SpanMaps α) : Option (SpanMaps α) :=
  if store.retentionNs = Int64.maxValue ∨ store.maxStartNs = Int64.minValue then some store
  else (ByTenant.evictBefore (saturatingSub store.maxStartNs store.retentionNs) store.expirations
    store.byTenant).map fun kept => { store with expirations := kept.1, byTenant := kept.2 }

/-- A record under the slot after the last of its trace. -/
def newHeld (store : SpanMaps α) (record : SpanRecord α) : Held α :=
  ⟨record.tenant, ((store.byTenant.spansAt record.tenant record.span.traceId).toList.getLast?.map
    (·.1 + 1)).getD 0, record.span⟩

def place (store : SpanMaps α) (record : SpanRecord α) : SpanMaps α :=
  if store.retentionNs ≠ Int64.maxValue ∧ store.maxStartNs ≠ Int64.minValue ∧
      record.span.startNs < saturatingSub store.maxStartNs store.retentionNs then store
  else
    let held := store.newHeld record
    { store with
      expirations :=
        if store.retentionNs ≠ Int64.maxValue ∧ held.expiration ∉ store.expirations then
          store.expirations.orderedInsert (fun a b => a.startNs.toInt ≤ b.startNs.toInt)
            held.expiration
        else store.expirations
      byTenant := store.byTenant.insert held }

def ingest (store : SpanMaps α) (record : SpanRecord α) : Option (SpanMaps α) :=
  (if store.maxStartNs < record.span.startNs then
      ({ store with maxStartNs := record.span.startNs } : SpanMaps α).evictOld
    else some store).map (·.place record)

/-- The maps after some calls, in order. -/
def fed (retentionNs : Int64) (records : List (SpanRecord α)) : Option (SpanMaps α) :=
  records.foldlM ingest { retentionNs }

end SpanMaps

/-! ### What the maps show -/

/-- No map of a tenant or of a trace is empty. -/
def ByTenant.NoneEmpty (byTenant : ByTenant α) : Prop :=
  ∀ (tenant : String) (traces : ExtTreeMap (BitVec 128) (TraceSpans α)),
    byTenant[tenant]? = some traces → traces ≠ ∅ ∧
      ∀ (traceId : BitVec 128) (spans : TraceSpans α), traces[traceId]? = some spans → spans ≠ ∅

/-- The maps hold some spans, each under its slot. -/
structure Shows (byTenant : ByTenant α) (held : List (Held α)) : Prop where
  mem_iff : ∀ {tenant traceId slot span}, (byTenant.spansAt tenant traceId)[slot]? = some span ↔
    span.traceId = traceId ∧ ⟨tenant, slot, span⟩ ∈ held
  noneEmpty : byTenant.NoneEmpty

variable {byTenant : ByTenant α} {held : List (Held α)}

/-- The listing of a trace: its spans in the order of their arrival. -/
theorem Shows.toList_spansAt (h : Shows byTenant held) (hsl : Slotted held) (tenant : String)
    (traceId : BitVec 128) : (byTenant.spansAt tenant traceId).toList =
      (held.filter fun held => held.tenant = tenant && held.span.traceId = traceId).map
        fun held => (held.slot, held.span) := by
  have hlist : (byTenant.spansAt tenant traceId).toList.Pairwise fun a b => a.1 < b.1 :=
    ExtTreeMap.ordered_keys_toList.imp Nat.compare_eq_lt.mp
  refine Collections.eq_of_pairwise_key_lt hlist ?_ ?_
  · rw [pairwise_map, pairwise_filter]
    refine hsl.imp fun {a b} hab ha hb => ?_
    simp only [Bool.and_eq_true, decide_eq_true_eq] at ha hb
    exact hab (ha.1.trans hb.1.symm) (ha.2.trans hb.2.symm)
  · rintro ⟨slot, span⟩
    rw [ExtTreeMap.mem_toList_iff_getElem?_eq_some, h.mem_iff]
    simp only [mem_map, mem_filter, Bool.and_eq_true, decide_eq_true_eq, Prod.mk.injEq]
    constructor
    · rintro ⟨htr, hmem⟩
      exact ⟨_, ⟨hmem, rfl, htr⟩, rfl, rfl⟩
    · rintro ⟨⟨_, _, _⟩, ⟨hmem, rfl, htr⟩, rfl, rfl⟩
      exact ⟨htr, hmem⟩

section Maps

variable {κ ι β : Type} [Ord κ] [Std.TransOrd κ] [Ord ι] [Std.TransOrd ι] [Std.LawfulEqOrd κ]
  [DecidableEq κ] {outer : ExtTreeMap κ (ExtTreeMap ι β)} {key key' : κ} {inner : ExtTreeMap ι β}

theorem getElem?_putBack : (putBack outer key inner)[key']? =
    if key = key' then if inner.isEmpty then none else some inner else outer[key']? := by
  rw [putBack]
  split
  · simp [ExtTreeMap.getElem?_erase]
  · simp [ExtTreeMap.getElem?_insert]

theorem of_getElem?_putBack {found : ExtTreeMap ι β}
    (h : (putBack outer key inner)[key']? = some found) :
    found = inner ∧ found ≠ ∅ ∨ outer[key']? = some found := by
  rw [getElem?_putBack] at h
  split at h
  · split at h <;> cases h
    rename_i hem
    exact .inl ⟨rfl, mt ExtTreeMap.isEmpty_iff.mpr hem⟩
  · exact .inr h

theorem getD_putBack : ((putBack outer key inner)[key']?).getD ∅ =
    if key = key' then inner else (outer[key']?).getD ∅ := by
  rw [getElem?_putBack]
  split
  · split
    · rename_i hem
      exact (ExtTreeMap.isEmpty_iff.mp hem).symm
    · rfl
  · rfl

omit [Std.TransOrd ι] in
theorem getD_insert : ((outer.insert key inner)[key']?).getD ∅ =
    if key = key' then inner else (outer[key']?).getD ∅ := by
  rw [ExtTreeMap.getElem?_insert]
  simp only [Std.compare_eq_iff_eq]
  split <;> rfl

end Maps

theorem spansAt_putBack {tenant tenant' : String} {traceId traceId' : BitVec 128}
    {spans : TraceSpans α} :
    ByTenant.spansAt (putBack byTenant tenant (putBack ((byTenant[tenant]?).getD ∅) traceId spans))
        tenant' traceId' =
      if tenant = tenant' ∧ traceId = traceId' then spans
      else byTenant.spansAt tenant' traceId' := by
  rw [ByTenant.spansAt, ByTenant.spansAt, getD_putBack]
  by_cases ht : tenant = tenant'
  · subst ht
    rw [if_pos rfl, getD_putBack]
    simp only [true_and]
  · simp [ht]

theorem spansAt_insert {new : Held α} {tenant : String} {traceId : BitVec 128} :
    (byTenant.insert new).spansAt tenant traceId =
      if new.tenant = tenant ∧ new.span.traceId = traceId then
        (byTenant.spansAt new.tenant new.span.traceId).insert new.slot new.span
      else byTenant.spansAt tenant traceId := by
  rw [ByTenant.spansAt, ByTenant.insert, getD_insert]
  by_cases ht : new.tenant = tenant
  · subst ht
    rw [if_pos rfl, getD_insert]
    simp only [true_and]
    rfl
  · simp [ht, ByTenant.spansAt]

/-- The tenant and the trace of a held span are there, and its span is taken out. -/
theorem Shows.remove (h : Shows byTenant held) {own : Held α} (hown : own ∈ held) :
    ∃ left, byTenant.remove own.expiration = some left ∧
      Shows left (held.filter fun span => !own.expiration.names span) := by
  have hat := h.mem_iff.mpr ⟨rfl, hown⟩
  rw [ByTenant.spansAt] at hat
  cases hten : byTenant[own.tenant]? with
  | none => simp [hten] at hat
  | some traces =>
    cases htr : traces[own.span.traceId]? with
    | none => simp [hten, htr] at hat
    | some spans =>
      have hspans : byTenant.spansAt own.tenant own.span.traceId = spans := by
        simp [ByTenant.spansAt, hten, htr]
      refine ⟨putBack byTenant own.tenant (putBack traces own.span.traceId (spans.erase own.slot)),
        by simp [ByTenant.remove, Held.expiration, hten, htr], ?_, ?_⟩
      · intro tenant traceId slot span
        have hput := @spansAt_putBack α byTenant own.tenant tenant own.span.traceId traceId
          (spans.erase own.slot)
        rw [hten, Option.getD_some] at hput
        rw [hput, mem_filter, ← and_assoc, ← h.mem_iff, Bool.not_eq_true', ← Bool.not_eq_true,
          Expiration.names_iff]
        split
        · rename_i hsame
          obtain ⟨rfl, rfl⟩ := hsame
          rw [hspans, ExtTreeMap.getElem?_erase]
          simp only [Std.compare_eq_iff_eq]
          split
          · rename_i hslot
            refine iff_of_false (by simp) ?_
            rintro ⟨hin, hne⟩
            rw [← hspans] at hin
            exact hne ⟨rfl, (h.mem_iff.mp hin).1, hslot.symm⟩
          · rename_i hslot
            exact (and_iff_left fun hnames => hslot hnames.2.2.symm).symm
        · rename_i hother
          refine ⟨fun hin => ⟨hin, fun hnames => hother ⟨hnames.1.symm, ?_⟩⟩, And.left⟩
          exact hnames.2.1.symm.trans (h.mem_iff.mp hin).1
      · intro tenant found hfound
        rcases of_getElem?_putBack hfound with ⟨rfl, hne⟩ | hfound
        · refine ⟨hne, fun traceId found hfound => ?_⟩
          rcases of_getElem?_putBack hfound with ⟨-, hne⟩ | hfound
          · exact hne
          · exact (h.noneEmpty _ _ hten).2 _ _ hfound
        · exact h.noneEmpty _ _ hfound

/-- A span under a slot that is not taken. -/
theorem Shows.insert (h : Shows byTenant held) {new : Held α}
    (hnew : ∀ span ∈ held, new.expiration.names span ≠ true) :
    Shows (byTenant.insert new) (held ++ [new]) := by
  constructor
  · intro tenant traceId slot span
    rw [spansAt_insert, mem_append, mem_singleton]
    split
    · rename_i hsame
      obtain ⟨rfl, rfl⟩ := hsame
      rw [ExtTreeMap.getElem?_insert]
      simp only [Std.compare_eq_iff_eq]
      split
      · rename_i hslot
        subst hslot
        refine ⟨fun heq => ?_, ?_⟩
        · cases heq
          exact ⟨rfl, .inr rfl⟩
        · rintro ⟨htr, hmem | heq⟩
          · exact absurd (Expiration.names_iff.mpr ⟨rfl, htr, rfl⟩) (hnew _ hmem)
          · rw [← heq]
      · rename_i hslot
        rw [h.mem_iff, or_iff_left]
        rintro heq
        exact hslot (by rw [← heq])
    · rename_i hother
      rw [h.mem_iff]
      refine and_congr_right fun htr => (or_iff_left fun heq => hother ?_).symm
      rw [← heq]
      exact ⟨rfl, htr⟩
  · intro tenant found hfound
    rw [ByTenant.insert, ExtTreeMap.getElem?_insert] at hfound
    split at hfound
    · cases hfound
      refine ⟨by simp, fun traceId found hfound => ?_⟩
      rw [ExtTreeMap.getElem?_insert] at hfound
      split at hfound
      · cases hfound
        simp
      · cases hten : byTenant[new.tenant]? with
        | none => simp [hten] at hfound
        | some traces =>
          rw [hten] at hfound
          exact (h.noneEmpty _ _ hten).2 _ _ hfound
    · exact h.noneEmpty _ _ hfound

/-- The loop never fails a lookup, and its maps show what is left of the spans. -/
theorem Shows.evictBefore (cutoff : Int64) (expirations : List Expiration) :
    ∀ {byTenant : ByTenant α} {held : List (Held α)}, Shows byTenant held →
      Indexed expirations held → Slotted held →
      ∃ left, byTenant.evictBefore cutoff expirations =
          some ((Live.evictBefore cutoff expirations held).1, left) ∧
        Shows left (Live.evictBefore cutoff expirations held).2 := by
  induction expirations with
  | nil => exact fun h _ _ => ⟨_, rfl, h⟩
  | cons first rest ih =>
    intro byTenant held h hidx hsl
    rw [ByTenant.evictBefore, Live.evictBefore]
    split
    · obtain ⟨own, hown, rfl⟩ := mem_map.mp (hidx.perm.mem_iff.mp mem_cons_self)
      obtain ⟨left, hleft, hshows⟩ := h.remove hown
      obtain ⟨hfil, hidx⟩ := hidx.drop_first hsl
      rw [hleft]
      exact ih hshows (hfil ▸ hidx) (hsl.sublist filter_sublist)
    · exact ⟨byTenant, rfl, h⟩

/-! ### The maps and the list -/

/-- The maps are those of a store that keeps its spans in a list. -/
structure Simulates (maps : SpanMaps α) (store : LiveStore α) : Prop where
  retentionNs : maps.retentionNs = store.retentionNs
  maxStartNs : maps.maxStartNs = store.maxStartNs
  expirations : maps.expirations = store.expirations
  held : Shows maps.byTenant store.held
  unbounded : store.retentionNs = Int64.maxValue → store.expirations = []

variable {maps : SpanMaps α} {store : LiveStore α} {record : SpanRecord α}

theorem Simulates.evictOld (h : Simulates maps store) (hsl : Slotted store.held)
    (hidx : store.retentionNs ≠ Int64.maxValue → Indexed store.expirations store.held) :
    ∃ left, maps.evictOld = some left ∧ Simulates left store.evictOld := by
  rw [SpanMaps.evictOld, LiveStore.evictOld, h.retentionNs, h.maxStartNs, h.expirations]
  split
  · exact ⟨maps, rfl, h⟩
  · rename_i hbounded
    have hret : store.retentionNs ≠ Int64.maxValue := fun heq => hbounded (.inl heq)
    obtain ⟨left, hleft, hshows⟩ := h.held.evictBefore
      (saturatingSub store.maxStartNs store.retentionNs) store.expirations (hidx hret) hsl
    rw [hleft]
    exact ⟨_, rfl, rfl, rfl, rfl, hshows, fun heq => absurd heq hret⟩

theorem Simulates.place (h : Simulates maps store) (hsl : Slotted store.held)
    (hidx : store.retentionNs ≠ Int64.maxValue → Indexed store.expirations store.held) :
    Simulates (maps.place record) (store.place record) := by
  have hnew : maps.newHeld record = store.newHeld record := by
    rw [SpanMaps.newHeld, h.held.toList_spansAt hsl, getLast?_map, Option.map_map]
    rfl
  have hfree : ∀ span ∈ store.held, (store.newHeld record).expiration.names span ≠ true := by
    intro span hspan hnames
    obtain ⟨hten, htr, hslot⟩ := Expiration.names_iff.mp hnames
    exact (slot_lt hsl hspan hten htr).ne hslot
  rw [SpanMaps.place, LiveStore.place, h.retentionNs, h.maxStartNs, hnew]
  split
  · exact h
  · refine ⟨rfl, rfl, ?_, h.held.insert hfree, fun hret => ?_⟩
    · rw [LiveStore.hold, h.expirations]
      by_cases hret : store.retentionNs = Int64.maxValue
      · simp [hret]
      · have hnot : (store.newHeld record).expiration ∉ store.expirations := by
          intro hmem
          obtain ⟨span, hspan, heq⟩ := mem_map.mp ((hidx hret).perm.mem_iff.mp hmem)
          exact hfree span hspan (heq ▸ Expiration.names_iff.mpr ⟨rfl, rfl, rfl⟩)
        simp [hret, hnot]
    · change store.retentionNs = Int64.maxValue at hret
      simpa [LiveStore.hold, hret] using h.unbounded hret

theorem Simulates.ingest {records : List (SpanRecord α)} (h : Simulates maps store)
    (hv : Valid records store) (record : SpanRecord α) :
    ∃ left, maps.ingest record = some left ∧ Simulates left (store.ingest record) := by
  rw [SpanMaps.ingest, LiveStore.ingest, h.maxStartNs]
  split
  · rename_i hnew
    obtain ⟨-, hret, -, hsl, hidx⟩ := hv.advance hnew
    have hmoved : Simulates { maps with maxStartNs := record.span.startNs }
        { store with maxStartNs := record.span.startNs } :=
      ⟨h.retentionNs, rfl, h.expirations, h.held, h.unbounded⟩
    obtain ⟨left, hleft, hsim⟩ := hmoved.evictOld hv.slotted hv.indexed
    rw [hleft]
    exact ⟨_, rfl, hsim.place hsl fun hne => hidx (hret ▸ hne)⟩
  · exact ⟨_, rfl, h.place hv.slotted hv.indexed⟩

/-- No call fails, and after each one the maps are those of the list. -/
theorem simulates_fed (retentionNs : Int64) (records : List (SpanRecord α)) :
    ∃ maps, SpanMaps.fed retentionNs records = some maps ∧
      Simulates maps (LiveStore.fed retentionNs records) := by
  induction records using List.reverseRecOn with
  | nil =>
    refine ⟨_, rfl, rfl, rfl, rfl, ⟨?_, ?_⟩, fun _ => rfl⟩
    · simp [ByTenant.spansAt, LiveStore.fed]
    · simp [ByTenant.NoneEmpty]
  | append_singleton records record ih =>
    obtain ⟨maps, hmaps, hsim⟩ := ih
    obtain ⟨left, hleft, hsim⟩ := hsim.ingest (valid_fed retentionNs records).1 record
    refine ⟨left, ?_, ?_⟩
    · rw [SpanMaps.fed, foldlM_append]
      rw [SpanMaps.fed] at hmaps
      rw [hmaps]
      simpa using hleft
    · rwa [LiveStore.fed, foldl_append]

/-- With a retention that is not negative, what is kept is what starts no earlier than the
newest start minus the retention. -/
theorem keeps_iff {retentionNs maxStartNs startNs : Int64} (hret : 0 ≤ retentionNs) :
    keeps retentionNs maxStartNs startNs = true ↔
      retentionNs = Int64.maxValue ∨ saturatingSub maxStartNs retentionNs ≤ startNs := by
  have hmin : maxStartNs = Int64.minValue → saturatingSub maxStartNs retentionNs ≤ startNs := by
    rintro rfl
    have hstart := Int64.minValue_le_toInt startNs
    have hle : (Int64.minValue.toInt : Int) = -2 ^ 63 := rfl
    rw [Int64.le_iff_toInt_le] at hret ⊢
    rw [saturatingSub, Machine.toInt_saturate]
    change 0 ≤ retentionNs.toInt at hret
    omega
  simp only [keeps, Bool.or_eq_true, decide_eq_true_eq, Bool.not_eq_true', decide_eq_false_iff_not,
    Int64.not_lt]
  tauto

/-- After any calls the maps hold, for each tenant and trace, the spans that start no earlier
than the newest start minus the retention, in the order of their arrival. No call fails a
lookup, no map in them is empty, and each held span has one entry of the expiration index. -/
theorem live_maps_are_the_filtered_log (retentionNs : Int64) (hret : 0 ≤ retentionNs)
    (records : List (SpanRecord α)) :
    ∃ maps, SpanMaps.fed retentionNs records = some maps ∧
      (∀ tenant traceId, (maps.byTenant.spansAt tenant traceId).toList.map Prod.snd =
        (records.filter fun record => record.tenant = tenant ∧ record.span.traceId = traceId ∧
          (retentionNs = Int64.maxValue ∨
            saturatingSub (newestStart records) retentionNs ≤ record.span.startNs)).map
          SpanRecord.span) ∧
      maps.byTenant.NoneEmpty ∧
      (retentionNs = Int64.maxValue → maps.expirations = []) ∧
      (retentionNs ≠ Int64.maxValue → maps.expirations.Nodup ∧ ∀ entry,
        entry ∈ maps.expirations ↔ ∃ span,
          (maps.byTenant.spansAt entry.tenant entry.traceId)[entry.slot]? = some span ∧
            span.startNs = entry.startNs) := by
  obtain ⟨maps, hmaps, hsim⟩ := simulates_fed retentionNs records
  obtain ⟨hv, hkept⟩ := valid_fed retentionNs records
  refine ⟨maps, hmaps, fun tenant traceId => ?_, hsim.held.noneEmpty, fun hmax => ?_,
    fun hmax => ?_⟩
  · have hheld := congrArg (filter fun record => record.tenant = tenant &&
      record.span.traceId = traceId) hv.held
    rw [hkept, hv.maxStartNs, filter_filter, filter_map] at hheld
    have hspans := congrArg (map SpanRecord.span) hheld
    rw [map_map] at hspans
    rw [hsim.held.toList_spansAt hv.slotted, map_map]
    refine hspans.trans (congrArg _ (filter_congr fun record _ => ?_))
    rw [Bool.eq_iff_iff]
    simp only [Bool.and_eq_true, decide_eq_true_eq, keeps_iff hret, and_assoc]
  · exact hsim.expirations.trans (hsim.unbounded (hkept.trans hmax))
  · have hidx := hv.indexed (hkept.symm ▸ hmax)
    rw [hsim.expirations]
    refine ⟨hidx.perm.nodup_iff.mpr (nodup_expirations hv.slotted), fun entry => ?_⟩
    rw [hidx.perm.mem_iff, mem_map]
    constructor
    · rintro ⟨held, hmem, rfl⟩
      exact ⟨held.span, hsim.held.mem_iff.mpr ⟨rfl, hmem⟩, rfl⟩
    · rintro ⟨span, hat, hstart⟩
      obtain ⟨htr, hmem⟩ := hsim.held.mem_iff.mp hat
      refine ⟨_, hmem, ?_⟩
      rw [Held.expiration, hstart, htr]

/-- A late span is refused and an old one evicted. -/
theorem live_maps_after_three_calls :
    (0 : Int64) ≤ 5 ∧ ∃ maps, SpanMaps.fed 5 [(⟨"a", ⟨1, 1, 1, ()⟩⟩ : SpanRecord Unit),
        ⟨"a", ⟨1, 2, 9, ()⟩⟩, ⟨"b", ⟨1, 3, 2, ()⟩⟩] = some maps ∧
      (maps.byTenant.spansAt "a" 1).toList.map Prod.snd = [⟨1, 2, 9, ()⟩] := by
  obtain ⟨maps, hmaps, hspans, -⟩ := live_maps_are_the_filtered_log 5 (by decide)
    [(⟨"a", ⟨1, 1, 1, ()⟩⟩ : SpanRecord Unit), ⟨"a", ⟨1, 2, 9, ()⟩⟩, ⟨"b", ⟨1, 3, 2, ()⟩⟩]
  exact ⟨by decide, maps, hmaps, (hspans "a" 1).trans (by decide)⟩

end KrabkaO11y.Traces.Live
