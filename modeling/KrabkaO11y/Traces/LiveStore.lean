import KrabkaO11y.Machine.Saturating

/-!
The hot tier of traces (`crates/traces/src/livestore/live_store.rs`).

Spans are kept while they start within the retention of the newest span that was ingested,
whoever sent it. The maps by tenant, trace and arrival slot are one list of held spans in the
order of their arrival. What a tenant reads depends on its held spans only, so it reads the
same as from a store of its own exactly as long as its spans within the retention of its own
newest span are within the retention of the newest of all.
-/

namespace KrabkaO11y.Traces.Live

open List

open Machine (saturatingSub saturatingSub_mono)

variable {α : Type}

structure Span (α : Type) where
  traceId : BitVec 128
  spanId : BitVec 64
  startNs : Int64
  rest : α
deriving DecidableEq, Repr

structure SpanRecord (α : Type) where
  tenant : String
  span : Span α
deriving DecidableEq, Repr

/-- An entry of the expiration index. -/
structure Expiration where
  startNs : Int64
  tenant : String
  traceId : BitVec 128
  slot : Nat
deriving DecidableEq, Repr

structure Held (α : Type) where
  tenant : String
  slot : Nat
  span : Span α
deriving DecidableEq, Repr

namespace Held

def expiration (held : Held α) : Expiration :=
  ⟨held.span.startNs, held.tenant, held.span.traceId, held.slot⟩

def record (held : Held α) : SpanRecord α := ⟨held.tenant, held.span⟩

end Held

structure LiveStore (α : Type) where
  retentionNs : Int64
  maxStartNs : Int64 := Int64.minValue
  -- The source's set is ordered by the whole entry; only the order of the starts is read.
  expirations : List Expiration := []
  held : List (Held α) := []
deriving DecidableEq, Repr

/-- Whether an expiration is the one of a held span. -/
def Expiration.names (entry : Expiration) (held : Held α) : Bool :=
  held.tenant = entry.tenant && held.span.traceId = entry.traceId && held.slot = entry.slot

theorem Expiration.names_iff {entry : Expiration} {held : Held α} : entry.names held = true ↔
    held.tenant = entry.tenant ∧ held.span.traceId = entry.traceId ∧ held.slot = entry.slot := by
  simp [names, and_assoc]

/-- The loop of `evict_old`. -/
def evictBefore (cutoff : Int64) : List Expiration → List (Held α) →
    List Expiration × List (Held α)
  | [], held => ([], held)
  | first :: rest, held =>
    if first.startNs < cutoff then
      evictBefore cutoff rest (held.filter fun span => !first.names span)
    else (first :: rest, held)

namespace LiveStore

variable (store : LiveStore α)

def evictOld : LiveStore α :=
  if store.retentionNs = Int64.maxValue ∨ store.maxStartNs = Int64.minValue then store
  else
    let kept := evictBefore (saturatingSub store.maxStartNs store.retentionNs) store.expirations
      store.held
    { store with expirations := kept.1, held := kept.2 }

/-- The spans of one trace in the order of their arrival. -/
def traceHeld (tenant : String) (traceId : BitVec 128) : List (Held α) :=
  store.held.filter fun held => held.tenant = tenant && held.span.traceId = traceId

/-- A record under the next slot of its trace. -/
def newHeld (record : SpanRecord α) : Held α :=
  ⟨record.tenant, ((store.traceHeld record.tenant record.span.traceId).getLast?.map
    (·.slot + 1)).getD 0, record.span⟩

def hold (held : Held α) : LiveStore α :=
  { store with
    expirations :=
      if store.retentionNs ≠ Int64.maxValue then
        store.expirations.orderedInsert (fun a b => a.startNs.toInt ≤ b.startNs.toInt)
          held.expiration
      else store.expirations
    held := store.held ++ [held] }

/-- The part of `ingest` after the frontier has moved. -/
def place (record : SpanRecord α) : LiveStore α :=
  if store.retentionNs ≠ Int64.maxValue ∧ store.maxStartNs ≠ Int64.minValue ∧
      record.span.startNs < saturatingSub store.maxStartNs store.retentionNs then store
  else store.hold (store.newHeld record)

def ingest (record : SpanRecord α) : LiveStore α :=
  (if store.maxStartNs < record.span.startNs then
      ({ store with maxStartNs := record.span.startNs } : LiveStore α).evictOld
    else store).place record

/-- A store that some records were fed to, in order. -/
def fed (retentionNs : Int64) (records : List (SpanRecord α)) : LiveStore α :=
  records.foldl ingest { retentionNs }

/-- The spans of a tenant in the order of their arrival. -/
def spansOf (tenant : String) : List (Span α) :=
  (store.held.filter (·.tenant = tenant)).map Held.span

end LiveStore

/-! ### What a tenant reads -/

def orderSpans (spans : List (Span α)) : List (Span α) :=
  spans.insertionSort fun left right => left.startNs.toInt < right.startNs.toInt ∨
    left.startNs = right.startNs ∧ left.spanId.toNat ≤ right.spanId.toNat

/-- The traces of some spans in the order of their ids. -/
def tracesOf (spans : List (Span α)) : List (List (Span α)) :=
  ((spans.map Span.traceId).dedup.insertionSort fun a b => a.toNat ≤ b.toNat).map fun id =>
    spans.filter (·.traceId = id)

def inTimeRange (startNs endNs : Int64) (span : Span α) : Bool :=
  startNs ≤ span.startNs && span.startNs ≤ endNs

def spanBatchRows : Nat := 8192

/-- What the readers make of spans: the rows of a trace, a batch of rows, and the names and
values of tags. -/
structure Readers (α Row Batch Tags Values : Type) where
  spanRowsForWindow : List (Span α) → List (Span α) → List Row
  encodeSpanRows : List Row → Except String Batch
  tagNames : List (Span α) → Tags
  tagValues : String → List (List (Span α)) → Values

namespace LiveStore

variable {Row Batch Tags Values : Type}

def traceById (store : LiveStore α) (tenant : String) (traceId : BitVec 128) : List (Span α) :=
  orderSpans ((store.spansOf tenant).filter (·.traceId = traceId))

variable (readers : Readers α Row Batch Tags Values)

/-- The rows of one trace in a window: none when no span of it is in range. -/
def traceRows (startNs endNs : Int64)
    (spans : List (Span α)) : List Row :=
  let inRange := spans.filter (inTimeRange startNs endNs)
  if inRange = [] then [] else readers.spanRowsForWindow (orderSpans inRange) spans

def batchesInWindow (store : LiveStore α)
    (tenant : String) (startNs endNs : Int64) : Except String (List Batch) :=
  (((tracesOf (store.spansOf tenant)).flatMap
    (traceRows readers startNs endNs)).toChunks spanBatchRows).mapM readers.encodeSpanRows

def tagNames (store : LiveStore α)
    (tenant : String) (startNs endNs : Int64) : Tags :=
  readers.tagNames ((tracesOf (store.spansOf tenant)).flatten.filter (inTimeRange startNs endNs))

def tagValues (store : LiveStore α)
    (tenant tag : String) (startNs endNs : Int64) : Values :=
  readers.tagValues tag
    ((tracesOf (store.spansOf tenant)).map (·.filter (inTimeRange startNs endNs)))

/-- Two stores answer every read of a tenant alike. -/
structure ReadsAlike (readers : Readers α Row Batch Tags Values) (tenant : String)
    (store other : LiveStore α) : Prop where
  traceById : ∀ traceId, store.traceById tenant traceId = other.traceById tenant traceId
  batchesInWindow : ∀ startNs endNs,
    store.batchesInWindow readers tenant startNs endNs =
      other.batchesInWindow readers tenant startNs endNs
  tagNames : ∀ startNs endNs,
    store.tagNames readers tenant startNs endNs = other.tagNames readers tenant startNs endNs
  tagValues : ∀ tag startNs endNs,
    store.tagValues readers tenant tag startNs endNs =
      other.tagValues readers tenant tag startNs endNs

theorem readsAlike_of_spansOf {tenant : String}
    {store other : LiveStore α} (h : store.spansOf tenant = other.spansOf tenant) :
    ReadsAlike readers tenant store other where
  traceById _ := by rw [LiveStore.traceById, LiveStore.traceById, h]
  batchesInWindow _ _ := by rw [LiveStore.batchesInWindow, LiveStore.batchesInWindow, h]
  tagNames _ _ := by rw [LiveStore.tagNames, LiveStore.tagNames, h]
  tagValues _ _ _ := by rw [LiveStore.tagValues, LiveStore.tagValues, h]

end LiveStore

/-! ### Eviction -/

/-- Whether a span that starts at `startNs` is kept once `maxStartNs` is the newest start. -/
def keeps (retentionNs maxStartNs startNs : Int64) : Bool :=
  retentionNs = Int64.maxValue || maxStartNs = Int64.minValue ||
    !decide (startNs < saturatingSub maxStartNs retentionNs)

theorem keeps_eq_of_bounded {retentionNs maxStartNs : Int64} (hret : retentionNs ≠ Int64.maxValue)
    (hmax : maxStartNs ≠ Int64.minValue) (startNs : Int64) :
    keeps retentionNs maxStartNs startNs =
      !decide (startNs < saturatingSub maxStartNs retentionNs) := by
  simp [keeps, hret, hmax]

theorem lt_saturatingSub_mono {startNs maxStartNs newer : Int64} (retentionNs : Int64)
    (hle : maxStartNs ≤ newer) (h : startNs < saturatingSub maxStartNs retentionNs) :
    startNs < saturatingSub newer retentionNs := by
  have := saturatingSub_mono hle retentionNs
  rw [Int64.lt_iff_toInt_lt] at h ⊢
  rw [Int64.le_iff_toInt_le] at this
  omega

/-- A newer frontier keeps less. -/
theorem keeps_anti {retentionNs maxStartNs newer startNs : Int64} (hle : maxStartNs ≤ newer)
    (h : keeps retentionNs newer startNs = true) : keeps retentionNs maxStartNs startNs = true := by
  by_cases hret : retentionNs = Int64.maxValue
  · simp [keeps, hret]
  by_cases hmax : maxStartNs = Int64.minValue
  · simp [keeps, hmax]
  have hne : newer ≠ Int64.minValue := by
    intro hmin
    refine hmax (Int64.toInt_inj.mp ?_)
    rw [Int64.le_iff_toInt_le, hmin] at hle
    exact le_antisymm hle (Int64.minValue_le_toInt maxStartNs)
  rw [keeps_eq_of_bounded hret hne] at h
  rw [keeps_eq_of_bounded hret hmax]
  simp only [Bool.not_eq_true', decide_eq_false_iff_not] at h ⊢
  exact fun hlt => h (lt_saturatingSub_mono retentionNs hle hlt)

/-- The expirations are those of the held spans, and each names only its own. -/
structure Indexed (expirations : List Expiration) (held : List (Held α)) : Prop where
  sorted : expirations.Pairwise fun a b => a.startNs.toInt ≤ b.startNs.toInt
  perm : expirations.Perm (held.map Held.expiration)

/-- Later spans of a trace have later slots. -/
def Slotted (held : List (Held α)) : Prop :=
  held.Pairwise fun a b => a.tenant = b.tenant → a.span.traceId = b.span.traceId → a.slot < b.slot

variable {held : List (Held α)}

theorem eq_of_names (slots : Slotted held) {a b : Held α} (ha : a ∈ held) (hb : b ∈ held)
    (hnames : a.expiration.names b = true) : b = a := by
  obtain ⟨hten, htr, hslo⟩ := Expiration.names_iff.mp hnames
  simp only [Held.expiration] at hten htr hslo
  by_contra hne
  have h := pairwise_iff_getElem.mp slots
  obtain ⟨i, hi, rfl⟩ := getElem_of_mem ha
  obtain ⟨j, hj, rfl⟩ := getElem_of_mem hb
  rcases lt_trichotomy i j with hlt | rfl | hlt
  · exact (h i j hi hj hlt hten.symm htr.symm).ne hslo.symm
  · exact hne rfl
  · exact (h j i hj hi hlt hten htr).ne hslo

theorem nodup_expirations (slots : Slotted held) :
    (held.map Held.expiration).Nodup := by
  refine pairwise_map.mpr (slots.imp fun {a b} hab heq => ?_)
  simp only [Held.expiration, Expiration.mk.injEq] at heq
  exact (hab heq.2.1 heq.2.2.1).ne heq.2.2.2

/-- Taking out the span of the first expiration. -/
theorem Indexed.drop_first {first : Expiration} {rest : List Expiration}
    (h : Indexed (first :: rest) held) (slots : Slotted held) :
    (held.filter fun span => !first.names span) = held.filter (·.expiration ≠ first) ∧
      Indexed rest (held.filter (·.expiration ≠ first)) := by
  have hnd := nodup_expirations slots
  obtain ⟨own, hown, rfl⟩ := mem_map.mp (h.perm.mem_iff.mp mem_cons_self)
  have hfil : (held.filter fun span => !own.expiration.names span) =
      held.filter (·.expiration ≠ own.expiration) := by
    refine filter_congr fun span hsp => ?_
    rw [Bool.eq_iff_iff, Bool.not_eq_true', decide_eq_true_eq, ← Bool.not_eq_true]
    refine not_congr ⟨fun hna => by rw [eq_of_names slots hown hsp hna], fun heq => ?_⟩
    rw [← heq]
    exact Expiration.names_iff.mpr ⟨rfl, rfl, rfl⟩
  refine ⟨hfil, h.sorted.of_cons, ?_⟩
  have hpm := h.perm.filter (· ≠ own.expiration)
  have hr : own.expiration ∉ rest := (nodup_cons.mp (h.perm.nodup_iff.mpr hnd)).1
  rw [filter_cons_of_neg (by simp), filter_map] at hpm
  have hk : rest.filter (· ≠ own.expiration) = rest :=
    filter_eq_self.mpr fun entry he =>
      decide_eq_true fun heq : entry = own.expiration => hr (heq ▸ he)
  rwa [hk] at hpm

/-- The eviction loop takes out exactly the spans that start before the cutoff. -/
theorem evictBefore_spec (cutoff : Int64) :
    ∀ (expirations : List Expiration) {held : List (Held α)}, Indexed expirations held →
      Slotted held →
      (evictBefore cutoff expirations held).2 =
          held.filter (fun span => !decide (span.span.startNs < cutoff)) ∧
        Indexed (evictBefore cutoff expirations held).1 (evictBefore cutoff expirations held).2
  | [], held, h, _ => by
    have hnil : held = [] := by simpa using h.perm
    subst hnil
    exact ⟨rfl, h⟩
  | first :: rest, held, h, hsl => by
    rw [evictBefore]
    split
    · rename_i hex
      obtain ⟨hfil, hidx⟩ := h.drop_first hsl
      obtain ⟨hh, hk⟩ := evictBefore_spec cutoff rest hidx
        (hsl.sublist filter_sublist)
      rw [hfil]
      refine ⟨hh.trans ?_, hk⟩
      rw [filter_filter]
      refine filter_congr fun span _ => ?_
      by_cases heq : span.expiration = first
      · have : span.span.startNs < cutoff := by rw [← heq] at hex; exact hex
        simp [this]
      · simp [heq]
    · -- the first of the sorted expirations is the earliest
      rename_i hf
      refine ⟨(filter_eq_self.mpr fun span hsp => ?_).symm, h⟩
      have hmem := h.perm.mem_iff.mpr (mem_map_of_mem hsp)
      have hle : first.startNs.toInt ≤ span.span.startNs.toInt := by
        rcases mem_cons.mp hmem with heq | hr
        · exact (congrArg (·.startNs.toInt) heq).ge
        · exact rel_of_pairwise_cons h.sorted hr
      rw [Int64.lt_iff_toInt_lt] at hf
      simp only [Bool.not_eq_true', decide_eq_false_iff_not, Int64.lt_iff_toInt_lt]
      omega

/-! ### Stores that were fed -/

/-- The newest start among some records. -/
def newestStart (records : List (SpanRecord α)) : Int64 :=
  records.foldl (fun newest record => if newest < record.span.startNs then record.span.startNs
    else newest) Int64.minValue

/-- What a store holds of the records that it was fed. -/
structure Valid (records : List (SpanRecord α)) (store : LiveStore α) : Prop where
  maxStartNs : store.maxStartNs = newestStart records
  held : store.held.map Held.record =
    records.filter fun record => keeps store.retentionNs store.maxStartNs record.span.startNs
  slotted : Slotted store.held
  indexed : store.retentionNs ≠ Int64.maxValue → Indexed store.expirations store.held

theorem newestStart_append (records : List (SpanRecord α)) (record : SpanRecord α) :
    newestStart (records ++ [record]) = if newestStart records < record.span.startNs
      then record.span.startNs else newestStart records := by
  rw [newestStart, foldl_append]
  rfl

variable {records : List (SpanRecord α)}

theorem filter_keeps_of_le {retentionNs maxStartNs newer : Int64} (hle : maxStartNs ≤ newer) :
    ((records.filter fun record => keeps retentionNs maxStartNs record.span.startNs).filter
        fun record => keeps retentionNs newer record.span.startNs) =
      records.filter fun record => keeps retentionNs newer record.span.startNs := by
  rw [filter_filter]
  refine filter_congr fun record _ => ?_
  cases hk : keeps retentionNs newer record.span.startNs with
  | false => rfl
  | true => rw [keeps_anti hle hk]; rfl

variable {store : LiveStore α}

/-- Moving the frontier leaves what the new one keeps. -/
theorem Valid.advance (h : Valid records store) {newer : Int64} (hlt : store.maxStartNs < newer) :
    let moved := ({ store with maxStartNs := newer } : LiveStore α).evictOld
    moved.maxStartNs = newer ∧ moved.retentionNs = store.retentionNs ∧
      moved.held.map Held.record =
        records.filter (fun record => keeps store.retentionNs newer record.span.startNs) ∧
      Slotted moved.held ∧
      (store.retentionNs ≠ Int64.maxValue → Indexed moved.expirations moved.held) := by
  intro moved
  have hmin : newer ≠ Int64.minValue := by
    rintro rfl
    rw [Int64.lt_iff_toInt_lt] at hlt
    exact absurd hlt (not_lt.mpr (Int64.minValue_le_toInt _))
  by_cases hret : store.retentionNs = Int64.maxValue
  · have hmo : moved = { store with maxStartNs := newer } := if_pos (.inl hret)
    have hh := h.held
    simp only [keeps, hret, decide_true, Bool.true_or, filter_true] at hh
    rw [hmo]
    refine ⟨rfl, rfl, ?_, h.slotted, fun hne => absurd hret hne⟩
    simpa [keeps, hret] using hh
  · obtain ⟨hk, hidx⟩ := evictBefore_spec (saturatingSub newer store.retentionNs)
      store.expirations (h.indexed hret) h.slotted
    have hmo : moved = { store with
        maxStartNs := newer
        expirations := (evictBefore (saturatingSub newer store.retentionNs) store.expirations
          store.held).1
        held := (evictBefore (saturatingSub newer store.retentionNs) store.expirations
          store.held).2 } := if_neg (not_or.mpr ⟨hret, hmin⟩)
    rw [hmo]
    refine ⟨rfl, rfl, ?_, ?_, fun _ => hidx⟩
    · have hrec : (fun span : Held α => !decide (span.span.startNs <
          saturatingSub newer store.retentionNs)) =
          (fun record => keeps store.retentionNs newer record.span.startNs) ∘ Held.record := by
        funext span
        rw [Function.comp, keeps_eq_of_bounded hret hmin]
        rfl
      rw [hk, hrec, ← filter_map, h.held, filter_keeps_of_le (Int64.le_of_lt hlt)]
    · rw [hk]
      exact h.slotted.sublist filter_sublist

/-- The slot of a new span is later than those of its trace. -/
theorem slot_lt (slots : Slotted held) {tenant : String} {traceId : BitVec 128} {span : Held α}
    (hspa : span ∈ held) (hten : span.tenant = tenant) (trace : span.span.traceId = traceId) :
    span.slot < (((held.filter fun held => held.tenant = tenant && held.span.traceId =
      traceId).getLast?.map (·.slot + 1)).getD 0) := by
  have hmem : span ∈ held.filter fun held => held.tenant = tenant && held.span.traceId = traceId :=
    mem_filter.mpr ⟨hspa, by simp [hten, trace]⟩
  obtain ⟨front, last, hsp⟩ :=
    (eq_nil_or_concat _).resolve_left (ne_nil_of_mem hmem)
  rw [concat_eq_append] at hsp
  rw [hsp] at hmem ⊢
  rw [getLast?_concat, Option.map_some, Option.getD_some]
  rcases mem_append.mp hmem with hft | hl
  · have hpa := slots.sublist (hsp ▸ filter_sublist : (front ++ [last]).Sublist held)
    have hbo := of_mem_filter (hsp ▸ mem_append_right _ (mem_singleton_self _) :
      last ∈ held.filter fun held => held.tenant = tenant && held.span.traceId = traceId)
    simp only [Bool.and_eq_true, decide_eq_true_eq] at hbo
    have := (pairwise_append.mp hpa).2.2 span hft last (mem_singleton_self _)
      (hten.trans hbo.1.symm) (trace.trans hbo.2.symm)
    omega
  · rw [mem_singleton.mp hl]
    exact Nat.lt_succ_self _

/-- Placing a record where the frontier is at least as new. -/
theorem valid_place {record : SpanRecord α}
    (hmax : store.maxStartNs = newestStart (records ++ [record])) (hh : store.held.map Held.record =
      records.filter fun record => keeps store.retentionNs store.maxStartNs record.span.startNs)
    (slots : Slotted store.held)
    (hidx : store.retentionNs ≠ Int64.maxValue → Indexed store.expirations store.held) :
    Valid (records ++ [record]) (store.place record) ∧
      (store.place record).retentionNs = store.retentionNs := by
  rw [LiveStore.place]
  split
  · rename_i hla
    refine ⟨⟨hmax, ?_, slots, hidx⟩, rfl⟩
    have : keeps store.retentionNs store.maxStartNs record.span.startNs = false := by
      rw [keeps_eq_of_bounded hla.1 hla.2.1]
      simpa using hla.2.2
    rw [filter_append, hh, filter_cons_of_neg (by simp [this]), filter_nil,
      append_nil]
  · rename_i hke
    have hk : keeps store.retentionNs store.maxStartNs record.span.startNs = true := by
      simp only [not_and_or, ne_eq, not_not] at hke
      simpa [keeps, or_assoc] using hke
    have hex (hret : store.retentionNs ≠ Int64.maxValue) :
        (store.hold (store.newHeld record)).expirations = store.expirations.orderedInsert
          (fun a b => a.startNs.toInt ≤ b.startNs.toInt) (store.newHeld record).expiration :=
      if_pos hret
    refine ⟨⟨hmax, ?_, ?_, fun hret => ⟨?_, ?_⟩⟩, rfl⟩
    · rw [LiveStore.hold, map_append, hh, filter_append,
        filter_cons_of_pos (by simpa using hk)]
      rfl
    · refine pairwise_append.mpr ⟨slots, pairwise_singleton _ _, ?_⟩
      intro span hsp new hnew
      rw [mem_singleton.mp hnew]
      exact fun hten htr => slot_lt slots hsp hten htr
    · rw [hex hret]
      exact (hidx hret).sorted.orderedInsert _ _
    · rw [hex hret, LiveStore.hold, map_append]
      refine (perm_orderedInsert _ _ _).trans ?_
      exact (List.Perm.cons _ (hidx hret).perm).trans (perm_append_singleton _ _).symm

theorem Valid.ingest (h : Valid records store) (record : SpanRecord α) :
    Valid (records ++ [record]) (store.ingest record) ∧
      (store.ingest record).retentionNs = store.retentionNs := by
  rw [LiveStore.ingest]
  split
  · rename_i hnew
    obtain ⟨hmax, hret, hh, hsl, hidx⟩ := h.advance hnew
    refine (valid_place ?_ ?_ hsl fun hne => hidx (hret ▸ hne)).imp_right
      (·.trans hret)
    · rw [hmax, newestStart_append, if_pos (h.maxStartNs ▸ hnew)]
    · rw [hh, hmax, hret]
  · rename_i hnot
    refine valid_place ?_ h.held h.slotted h.indexed
    rw [newestStart_append, if_neg (h.maxStartNs ▸ hnot), h.maxStartNs]

/-- A store holds, of the records that it was fed, those that the newest start keeps. -/
theorem valid_fed (retentionNs : Int64) (records : List (SpanRecord α)) :
    Valid records (LiveStore.fed retentionNs records) ∧
      (LiveStore.fed retentionNs records).retentionNs = retentionNs := by
  induction records using List.reverseRecOn with
  | nil =>
    exact ⟨⟨rfl, rfl, List.Pairwise.nil, fun _ => ⟨List.Pairwise.nil, List.Perm.refl _⟩⟩, rfl⟩
  | append_singleton records record ih =>
    have hfed : LiveStore.fed retentionNs (records ++ [record]) =
        (LiveStore.fed retentionNs records).ingest record := by
      rw [LiveStore.fed, foldl_append]
      rfl
    obtain ⟨hv, hret⟩ := ih.1.ingest record
    rw [hfed]
    exact ⟨hv, hret.trans ih.2⟩

/-! ### A store of one's own -/

theorem spansOf_fed (retentionNs : Int64) (records : List (SpanRecord α)) (tenant : String) :
    (LiveStore.fed retentionNs records).spansOf tenant =
      ((records.filter (·.tenant = tenant)).filter fun record =>
        keeps retentionNs (newestStart records) record.span.startNs).map SpanRecord.span := by
  obtain ⟨h, hret⟩ := valid_fed retentionNs records
  have hh := congrArg (fun kept => (kept.filter (·.tenant = tenant)).map SpanRecord.span) h.held
  simp only [filter_map, map_map, hret, h.maxStartNs] at hh
  rw [filter_comm]
  exact hh

theorem newestStart_cons_le :
    ∀ {newest newest' : Int64}, newest ≤ newest' → ∀ {tenant : String},
      ((records.filter (·.tenant = tenant)).foldl (fun newest record =>
          if newest < record.span.startNs then record.span.startNs else newest) newest) ≤
        records.foldl (fun newest record =>
          if newest < record.span.startNs then record.span.startNs else newest) newest' := by
  induction records with
  | nil => exact fun h _ => h
  | cons record rest ih =>
    intro newest newest' h tenant
    rw [filter_cons, foldl_cons]
    rw [Int64.le_iff_toInt_le] at h
    split
    · rw [foldl_cons]
      refine ih ?_
      rw [Int64.le_iff_toInt_le]
      split <;> split <;> simp only [Int64.lt_iff_toInt_lt] at * <;> omega
    · refine ih ?_
      rw [Int64.le_iff_toInt_le]
      split <;> simp only [Int64.lt_iff_toInt_lt] at * <;> omega

/-- The newest span of a tenant is no newer than the newest of all. -/
theorem newestStart_filter_le (records : List (SpanRecord α)) (tenant : String) :
    newestStart (records.filter (·.tenant = tenant)) ≤ newestStart records :=
  newestStart_cons_le (Int64.le_refl _)

/-- The spans of a tenant that its own newest span keeps are kept by the newest of all. -/
def KeptWithOthers (retentionNs : Int64) (records : List (SpanRecord α)) (tenant : String) : Prop :=
  ∀ record ∈ records.filter (·.tenant = tenant),
    keeps retentionNs (newestStart (records.filter (·.tenant = tenant))) record.span.startNs =
      true → keeps retentionNs (newestStart records) record.span.startNs = true
deriving Decidable

theorem filter_tenant_idem (records : List (SpanRecord α)) (tenant : String) :
    (records.filter (·.tenant = tenant)).filter (·.tenant = tenant) =
      records.filter (·.tenant = tenant) := by
  rw [filter_filter]
  exact filter_congr fun _ _ => Bool.and_self _

/-- What is held of a tenant's spans beside others is part of what is held of them alone. -/
theorem spansOf_fed_filter (retentionNs : Int64) (records : List (SpanRecord α)) (tenant : String) :
    (LiveStore.fed retentionNs records).spansOf tenant =
      ((LiveStore.fed retentionNs (records.filter (·.tenant = tenant))).spansOf tenant).filter
        fun span => keeps retentionNs (newestStart records) span.startNs := by
  rw [spansOf_fed, spansOf_fed, filter_tenant_idem, filter_map]
  exact congrArg _ (filter_keeps_of_le (newestStart_filter_le records tenant)).symm

theorem readsAlike_iff {Row Batch Tags Values : Type} (readers : Readers α Row Batch Tags Values)
    (retentionNs : Int64) (records : List (SpanRecord α)) (tenant : String) :
    (LiveStore.ReadsAlike readers tenant (.fed retentionNs records)
        (.fed retentionNs (records.filter (·.tenant = tenant)))) ↔
      KeptWithOthers retentionNs records tenant := by
  have hfil := spansOf_fed_filter retentionNs records tenant
  have hal := spansOf_fed retentionNs (records.filter (·.tenant = tenant)) tenant
  rw [filter_tenant_idem] at hal
  constructor
  · -- a trace that lost a span is shorter
    intro hrd record hrec hk
    have hmem : record.span ∈ (LiveStore.fed retentionNs
        (records.filter (·.tenant = tenant))).spansOf tenant := by
      rw [hal]
      exact mem_map_of_mem (mem_filter.mpr ⟨hrec, hk⟩)
    have hlen := congrArg List.length (hrd.traceById record.span.traceId)
    rw [LiveStore.traceById, LiveStore.traceById, orderSpans, orderSpans,
      length_insertionSort, length_insertionSort, hfil, filter_comm] at hlen
    have hall := filter_eq_self.mp (filter_sublist.eq_of_length hlen)
    exact hall record.span (mem_filter.mpr ⟨hmem, by simp⟩)
  · intro hke
    refine LiveStore.readsAlike_of_spansOf readers ?_
    rw [hfil, hal, filter_map]
    refine congrArg _ (filter_eq_self.mpr fun record hrec => ?_)
    obtain ⟨hmem, hk⟩ := mem_filter.mp hrec
    exact hke record hmem hk

end KrabkaO11y.Traces.Live
