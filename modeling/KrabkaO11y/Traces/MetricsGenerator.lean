import KrabkaO11y.Machine.Saturating

/-!
The span metrics and service graph processors of the metrics generator
(`crates/traces/src/metricsgen/processor/metrics_generator.rs`,
`servicegraph/edge_store.rs`, `spanmetrics/span_metrics_registry.rs`).

The registry is cumulative, so it is kept as the spans counted since the start of the process. An
edge is kept with the offsets of the spans that went into it, and leaves the store completed,
expired or, when the store is full, dropped at once. What an edge carries besides is a parameter.
`Extends` says what processing and expiry keep: a span once counted stays counted, and the offsets
of an edge stay with it, in the store or among the finished edges.

The tenants are within the caps: a new tenant always gets a state, and no series is refused.
-/

namespace KrabkaO11y.Traces.MetricsGen

open Machine List

variable {β δ : Type}

/-! ### Spans -/

inductive SpanKind where
  | unspecified
  | internal
  | server
  | client
  | producer
  | consumer
deriving DecidableEq, Repr

structure SpanRecord (β : Type) where
  tenant : String
  traceId : Nat
  spanId : Nat
  parentSpanId : Nat
  kind : SpanKind
  body : β
deriving DecidableEq, Repr

structure EdgeKey where
  tenant : String
  traceId : Nat
  spanId : Nat
deriving DecidableEq, Repr

/-- Whether a span is the client side of an edge, if it has a side. -/
def edgeSide : SpanKind → Option Bool
  | .client | .producer => some true
  | .server | .consumer => some false
  | .unspecified | .internal => none

def edgeKey (span : SpanRecord β) : Option EdgeKey :=
  match span.kind with
  | .client | .producer => some ⟨span.tenant, span.traceId, span.spanId⟩
  | .server | .consumer =>
    if span.parentSpanId ≠ 0 then some ⟨span.tenant, span.traceId, span.parentSpanId⟩ else none
  | .unspecified | .internal => none

/-- The settings of the tenants, and how spans make up the data of an edge. -/
structure Config (β δ : Type) where
  counted : SpanRecord β → Bool
  allowed : SpanRecord β → Bool
  maxItems : String → Nat
  ttl : String → Int
  newData : SpanRecord β → Bool → δ
  fill : δ → SpanRecord β → Bool → δ
  bothSides : δ → Bool

/-! ### The stores -/

/-- An edge with the offsets of its spans. -/
structure Edge (δ : Type) where
  key : EdgeKey
  data : δ
  firstSeenNs : Int64
  spans : List Nat
deriving DecidableEq, Repr

inductive Outcome where
  | completed
  | unpaired
  | dropped
deriving DecidableEq, Repr

structure Finished (δ : Type) where
  tenant : String
  outcome : Outcome
  data : δ
  spans : List Nat
deriving DecidableEq, Repr

def Edge.finish (edge : Edge δ) (outcome : Outcome) : Finished δ :=
  ⟨edge.key.tenant, outcome, edge.data, edge.spans⟩

structure Generator (δ : Type) where
  tenants : List String := []
  recorded : List (String × Nat) := []
  edges : List (Edge δ) := []
  finished : List (Finished δ) := []
deriving DecidableEq, Repr

structure Payload (δ : Type) where
  tenant : String
  recorded : List (String × Nat)
  finished : List (Finished δ)
deriving DecidableEq, Repr

namespace Generator

/-- Whether an edge of the tenant is as old as the time to live. -/
def stale (config : Config β δ) (tenant : String) (now : Int64) (edge : Edge δ) : Bool :=
  edge.key.tenant = tenant ∧ config.ttl tenant ≤ (saturatingSub now edge.firstSeenNs).toInt

def expire (config : Config β δ) (now : Int64) (g : Generator δ) (tenant : String) :
    Generator δ :=
  { g with
    edges := g.edges.filter fun edge => !stale config tenant now edge
    finished := g.finished ++
      (g.edges.filter (stale config tenant now)).map (·.finish .unpaired) }

def fillEdge (config : Config β δ) (span : SpanRecord β) (isClient : Bool) (offset : Nat)
    (edge : Edge δ) : Edge δ :=
  { edge with data := config.fill edge.data span isClient, spans := edge.spans ++ [offset] }

/-- The key has an edge: it is filled, and leaves the store when it has both sides. -/
def updateEdge (config : Config β δ) (g : Generator δ) (offset : Nat) (span : SpanRecord β)
    (isClient : Bool) (edge : Edge δ) : Generator δ :=
  if config.bothSides (config.fill edge.data span isClient) then
    { g with
      edges := g.edges.filter (·.key ≠ edge.key)
      finished := g.finished ++ ((g.edges.filter (·.key = edge.key)).map
        (fillEdge config span isClient offset)).map (·.finish .completed) }
  else
    { g with
      edges := g.edges.map fun other =>
        if other.key = edge.key then fillEdge config span isClient offset other else other }

/-- The key has no edge: one is added, unless the tenant has as many as it may. -/
def insertEdge (config : Config β δ) (g : Generator δ) (offset : Nat) (span : SpanRecord β)
    (isClient : Bool) (key : EdgeKey) (now : Int64) : Generator δ :=
  let edge : Edge δ := ⟨key, config.newData span isClient, now, [offset]⟩
  if config.maxItems key.tenant ≤ (g.edges.filter (·.key.tenant = key.tenant)).length then
    { g with finished := g.finished ++ [edge.finish .dropped] }
  else { g with edges := g.edges ++ [edge] }

def recordEdge (config : Config β δ) (g : Generator δ) (offset : Nat) (span : SpanRecord β)
    (now : Int64) (isClient : Bool) (key : EdgeKey) : Generator δ :=
  let expired := expire config now g span.tenant
  match expired.edges.find? (·.key = key) with
  | some edge => expired.updateEdge config offset span isClient edge
  | none => expired.insertEdge config offset span isClient key now

def recordSpan (config : Config β δ) (g : Generator δ) (offset : Nat) (span : SpanRecord β)
    (now : Int64) : Generator δ :=
  if config.allowed span then
    match edgeSide span.kind, edgeKey span with
    | some isClient, some key => g.recordEdge config offset span now isClient key
    | _, _ => g
  else g

/-- The state of the tenant, with the span counted. -/
def countSpan (config : Config β δ) (g : Generator δ) (offset : Nat) (span : SpanRecord β) :
    Generator δ :=
  { g with
    tenants := if span.tenant ∈ g.tenants then g.tenants else g.tenants ++ [span.tenant]
    recorded :=
      if config.counted span then g.recorded ++ [(span.tenant, offset)] else g.recorded }

def process (config : Config β δ) (g : Generator δ) (offset : Nat) (span : SpanRecord β)
    (now : Int64) : Generator δ :=
  (g.countSpan config offset span).recordSpan config offset span now

/-- The spans of a poll from an offset on, each with a reading of the clock. -/
def processAll (config : Config β δ) : Generator δ → Nat → List (SpanRecord β × Int64) →
    Generator δ
  | g, _, [] => g
  | g, offset, (span, now) :: rest =>
    processAll config (g.process config offset span now) (offset + 1) rest

/-- The expiry of every tenant at a collection. -/
def expireAll (config : Config β δ) (now : Int64) (g : Generator δ) : Generator δ :=
  g.tenants.foldl (expire config now) g

/-- A payload for each tenant with a state; its registry has always a series to emit. -/
def payloads (g : Generator δ) : List (Payload δ) :=
  g.tenants.map fun tenant =>
    ⟨tenant, g.recorded.filter (·.1 = tenant), g.finished.filter (·.tenant = tenant)⟩

/-- What a collection leaves behind. -/
def drained (g : Generator δ) : Generator δ := { g with finished := [] }

/-- The generator of a new process: the edges of the checkpoints, and their tenants. -/
def restore (checkpoints : List (Edge δ)) : Generator δ where
  tenants := (checkpoints.map (·.key.tenant)).dedup
  edges := checkpoints

end Generator

open Generator

/-! ### What processing keeps -/

/-- Some edge has the offset. -/
def OnEdge (edges : List (Edge δ)) (o : Nat) : Prop := ∃ edge ∈ edges, o ∈ edge.spans
deriving Decidable

/-- Some finished edge has the offset. -/
def OnFinished (finished : List (Finished δ)) (o : Nat) : Prop := ∃ edge ∈ finished, o ∈ edge.spans
deriving Decidable

structure WellFormed (g : Generator δ) : Prop where
  recorded : ∀ entry ∈ g.recorded, entry.1 ∈ g.tenants
  edges : ∀ edge ∈ g.edges, edge.key.tenant ∈ g.tenants
  finished : ∀ edge ∈ g.finished, edge.tenant ∈ g.tenants

structure Extends (g g' : Generator δ) : Prop where
  tenants : ∀ tenant ∈ g.tenants, tenant ∈ g'.tenants
  recorded : ∀ entry ∈ g.recorded, entry ∈ g'.recorded
  offsets : ∀ o, OnEdge g.edges o ∨ OnFinished g.finished o →
    OnEdge g'.edges o ∨ OnFinished g'.finished o
  wellFormed : WellFormed g → WellFormed g'

section Extends

variable {config : Config β δ} {g g' g'' : Generator δ} {offset : Nat} {span : SpanRecord β}
  {now : Int64} {isClient : Bool} {key : EdgeKey} {edge : Edge δ}

theorem Extends.refl (g : Generator δ) : Extends g g :=
  ⟨fun _ => id, fun _ => id, fun _ => id, id⟩

theorem Extends.trans (h : Extends g g') (h' : Extends g' g'') : Extends g g'' :=
  ⟨fun tenant ht => h'.tenants tenant (h.tenants tenant ht),
    fun entry he => h'.recorded entry (h.recorded entry he),
    fun o ho => h'.offsets o (h.offsets o ho), fun hg => h'.wellFormed (h.wellFormed hg)⟩

/-- An expired edge is finished, not lost. -/
theorem extends_expire (tenant : String) : Extends g (g.expire config now tenant) := by
  refine ⟨fun _ => id, fun _ => id, fun o ho => ?_, fun hg => ⟨hg.recorded, fun edge he =>
    hg.edges edge (mem_filter.mp he).1, fun edge he => ?_⟩⟩
  · rcases ho with ⟨edge, he, hmem⟩ | ⟨edge, he, hmem⟩
    · cases hst : stale config tenant now edge with
      | true => exact .inr ⟨edge.finish .unpaired, mem_append_right _ (mem_map_of_mem
          (mem_filter.mpr ⟨he, hst⟩)), hmem⟩
      | false => exact .inl ⟨edge, mem_filter.mpr ⟨he, by simp [hst]⟩, hmem⟩
    · exact .inr ⟨edge, mem_append_left _ he, hmem⟩
  · rcases mem_append.mp he with hold | hnew
    · exact hg.finished edge hold
    · obtain ⟨expired, hex, rfl⟩ := mem_map.mp hnew
      exact hg.edges expired (mem_filter.mp hex).1

theorem extends_expireAll : Extends g (g.expireAll config now) := by
  have hfo : ∀ (tenants : List String) (g : Generator δ),
      Extends g (tenants.foldl (expire config now) g) := by
    intro tenants
    induction tenants with
    | nil => exact Extends.refl
    | cons tenant tenants ih => exact fun g => (extends_expire tenant).trans (ih _)
  exact hfo g.tenants g

/-- An expiry of all tenants leaves an edge in the store or finishes it as it is. -/
theorem expireAll_edges : (∀ edge ∈ (g.expireAll config now).edges, edge ∈ g.edges) ∧
    ∀ edge ∈ g.edges, edge ∈ (g.expireAll config now).edges ∨
      ∃ finished ∈ (g.expireAll config now).finished, finished.spans = edge.spans := by
  have hk : ∀ (tenants : List String) (g : Generator δ), ∀ finished ∈ g.finished,
      finished ∈ (tenants.foldl (expire config now) g).finished := by
    intro tenants
    induction tenants with
    | nil => exact fun _ _ => id
    | cons tenant tenants ih =>
      exact fun g finished hmem => ih _ finished (mem_append_left _ hmem)
  have hfo : ∀ (tenants : List String) (g : Generator δ),
      (∀ edge ∈ (tenants.foldl (expire config now) g).edges, edge ∈ g.edges) ∧
      ∀ edge ∈ g.edges, edge ∈ (tenants.foldl (expire config now) g).edges ∨
        ∃ finished ∈ (tenants.foldl (expire config now) g).finished,
          finished.spans = edge.spans := by
    intro tenants
    induction tenants with
    | nil => exact fun g => ⟨fun _ => id, fun _ => .inl⟩
    | cons tenant tenants ih =>
      intro g
      refine ⟨fun edge he => (mem_filter.mp ((ih _).1 edge he)).1, fun edge he => ?_⟩
      cases hst : stale config tenant now edge with
      | false =>
        exact (ih (g.expire config now tenant)).2 edge
          (mem_filter.mpr ⟨he, by simp [hst]⟩)
      | true =>
        refine .inr ⟨edge.finish .unpaired, hk tenants _ _ ?_, rfl⟩
        exact mem_append_right _ (mem_map_of_mem
          (mem_filter.mpr ⟨he, hst⟩))
  exact hfo g.tenants g

/-- A filled edge keeps its spans, open or finished. -/
theorem extends_updateEdge : Extends g (g.updateEdge config offset span isClient edge) := by
  unfold updateEdge
  split
  next =>
    refine ⟨fun _ => id, fun _ => id, fun o ho => ?_, fun hg => ⟨hg.recorded, fun other hot =>
      hg.edges other (mem_filter.mp hot).1, fun other hot => ?_⟩⟩
    · rcases ho with ⟨other, hot, hmem⟩ | ⟨other, hot, hmem⟩
      · by_cases hkey : other.key = edge.key
        · refine .inr ⟨_, mem_append_right _ (mem_map_of_mem (mem_map_of_mem
            (mem_filter.mpr ⟨hot, by simpa using hkey⟩))), ?_⟩
          exact mem_append_left _ hmem
        · exact .inl ⟨other, mem_filter.mpr ⟨hot, by simpa using hkey⟩, hmem⟩
      · exact .inr ⟨other, mem_append_left _ hot, hmem⟩
    · rcases mem_append.mp hot with hold | hnew
      · exact hg.finished other hold
      · obtain ⟨filled, hfi, rfl⟩ := mem_map.mp hnew
        obtain ⟨source, hsrc, rfl⟩ := mem_map.mp hfi
        exact hg.edges source (mem_filter.mp hsrc).1
  next =>
    refine ⟨fun _ => id, fun _ => id, fun o ho => ?_, fun hg => ⟨hg.recorded, fun other hot => ?_,
      hg.finished⟩⟩
    · rcases ho with ⟨other, hot, hmem⟩ | hfin
      · refine .inl ⟨_, mem_map_of_mem hot, ?_⟩
        split
        next => exact mem_append_left _ hmem
        next => exact hmem
      · exact .inr hfin
    · obtain ⟨source, hsrc, rfl⟩ := mem_map.mp hot
      have hten := hg.edges source hsrc
      split
      next => exact hten
      next => exact hten

/-- An updated edge has the offset of the span. -/
theorem onEdge_updateEdge (he : edge ∈ g.edges) :
    OnEdge (g.updateEdge config offset span isClient edge).edges offset ∨
      OnFinished (g.updateEdge config offset span isClient edge).finished offset := by
  unfold updateEdge
  split
  next =>
    refine .inr ⟨_, mem_append_right _ (mem_map_of_mem (mem_map_of_mem
      (mem_filter.mpr ⟨he, by simp⟩))), ?_⟩
    exact mem_append_right _ mem_cons_self
  next =>
    refine .inl ⟨_, mem_map_of_mem he, ?_⟩
    rw [if_pos rfl]
    exact mem_append_right _ mem_cons_self

/-- An edge over the cap is finished as dropped, and the others stay. -/
theorem extends_insertEdge (hten : key.tenant ∈ g.tenants) :
    Extends g (g.insertEdge config offset span isClient key now) := by
  unfold insertEdge
  simp only
  split
  next =>
    refine ⟨fun _ => id, fun _ => id, fun o ho => ho.imp id ?_, fun hg =>
      ⟨hg.recorded, hg.edges, fun other hot => ?_⟩⟩
    · exact fun ⟨other, hot, hmem⟩ => ⟨other, mem_append_left _ hot, hmem⟩
    · rcases mem_append.mp hot with hold | hnew
      · exact hg.finished other hold
      · obtain rfl := mem_singleton.mp hnew
        exact hten
  next =>
    refine ⟨fun _ => id, fun _ => id, fun o ho => ho.imp ?_ id, fun hg =>
      ⟨hg.recorded, fun other hot => ?_, hg.finished⟩⟩
    · exact fun ⟨other, hot, hmem⟩ => ⟨other, mem_append_left _ hot, hmem⟩
    · rcases mem_append.mp hot with hold | hnew
      · exact hg.edges other hold
      · obtain rfl := mem_singleton.mp hnew
        exact hten

theorem onEdge_insertEdge :
    OnEdge (g.insertEdge config offset span isClient key now).edges offset ∨
      OnFinished (g.insertEdge config offset span isClient key now).finished offset := by
  unfold insertEdge
  simp only
  split
  next => exact .inr ⟨_, mem_append_right _ mem_cons_self, mem_cons_self⟩
  next => exact .inl ⟨_, mem_append_right _ mem_cons_self, mem_cons_self⟩

/-- A span that is recorded is on an open or finished edge. -/
theorem recordEdge_spec (hten : key.tenant ∈ g.tenants) :
    Extends g (g.recordEdge config offset span now isClient key) ∧
      (OnEdge (g.recordEdge config offset span now isClient key).edges offset ∨
        OnFinished (g.recordEdge config offset span now isClient key).finished offset) := by
  have hex : Extends g (g.expire config now span.tenant) := extends_expire span.tenant
  unfold recordEdge
  simp only
  split
  next edge hfi =>
    exact ⟨hex.trans extends_updateEdge, onEdge_updateEdge (mem_of_find?_eq_some hfi)⟩
  next => exact ⟨hex.trans (extends_insertEdge hten), onEdge_insertEdge⟩

theorem tenant_of_edgeKey (h : edgeKey span = some key) : key.tenant = span.tenant := by
  cases hkd : span.kind <;> simp only [edgeKey, hkd, reduceCtorEq] at h
  case client | producer =>
    cases h
    rfl
  case server | consumer =>
    split at h <;> cases h
    rfl

/-- Whether a span is a side of an edge. -/
def onServiceGraph (config : Config β δ) (span : SpanRecord β) : Bool :=
  config.allowed span && ((edgeSide span.kind).isSome && (edgeKey span).isSome)

theorem recordSpan_spec (hten : span.tenant ∈ g.tenants) :
    Extends g (g.recordSpan config offset span now) ∧ (onServiceGraph config span = true →
      OnEdge (g.recordSpan config offset span now).edges offset ∨
        OnFinished (g.recordSpan config offset span now).finished offset) := by
  unfold recordSpan
  split
  next hal =>
    split
    next isClient key hsi hkey =>
      have hsp := @recordEdge_spec β δ config g offset span now isClient key
        (tenant_of_edgeKey hkey ▸ hten)
      exact ⟨hsp.1, fun _ => hsp.2⟩
    next hno =>
      refine ⟨Extends.refl g, fun hgr => ?_⟩
      simp only [onServiceGraph, Bool.and_eq_true, Option.isSome_iff_exists] at hgr
      obtain ⟨-, ⟨isClient, hsi⟩, key, hkey⟩ := hgr
      exact absurd hkey (hno isClient key hsi)
  next hal =>
    exact ⟨Extends.refl g, fun hgr => absurd hgr (by simp [onServiceGraph, hal])⟩

theorem tenant_mem_countSpan : span.tenant ∈ (g.countSpan config offset span).tenants := by
  simp only [countSpan]
  split
  next hmem => exact hmem
  next => simp

theorem extends_countSpan : Extends g (g.countSpan config offset span) := by
  have hte : ∀ tenant ∈ g.tenants,
      tenant ∈ (g.countSpan config offset span).tenants := by
    intro tenant ht
    simp only [countSpan]
    split
    next => exact ht
    next => exact mem_append_left _ ht
  refine ⟨hte, fun entry he => ?_, fun _ => id, fun hg => ⟨fun entry he => ?_,
    fun edge hed => hte _ (hg.edges edge hed),
    fun edge hed => hte _ (hg.finished edge hed)⟩⟩
  · simp only [countSpan]
    split
    next => exact mem_append_left _ he
    next => exact he
  · by_cases hcnt : config.counted span = true
    · simp only [countSpan, hcnt, if_true] at he
      rcases mem_append.mp he with hold | hnew
      · exact hte _ (hg.recorded entry hold)
      · obtain rfl := mem_singleton.mp hnew
        exact tenant_mem_countSpan
    · simp only [countSpan, hcnt] at he
      exact hte _ (hg.recorded entry he)

/-- A span that matters is counted and on an edge, and nothing before it is lost. -/
theorem process_spec : Extends g (g.process config offset span now) ∧
    (config.counted span = true →
      (span.tenant, offset) ∈ (g.process config offset span now).recorded) ∧
    (onServiceGraph config span = true →
      OnEdge (g.process config offset span now).edges offset ∨
        OnFinished (g.process config offset span now).finished offset) := by
  have hsp := @recordSpan_spec β δ config (g.countSpan config offset span) offset span now
    tenant_mem_countSpan
  refine ⟨extends_countSpan.trans hsp.1, fun hcnt => hsp.1.recorded _ ?_, hsp.2⟩
  simp [countSpan, hcnt]

/-- All spans of a poll are counted, and those of the service graph are on an edge. -/
theorem processAll_spec {spans : List (SpanRecord β × Int64)} : ∀ {g : Generator δ} {offset : Nat},
    Extends g (g.processAll config offset spans) ∧
    ∀ i entry, spans[i]? = some entry →
      (config.counted entry.1 = true →
        (entry.1.tenant, offset + i) ∈ (g.processAll config offset spans).recorded) ∧
      (onServiceGraph config entry.1 = true →
        OnEdge (g.processAll config offset spans).edges (offset + i) ∨
          OnFinished (g.processAll config offset spans).finished (offset + i)) := by
  induction spans with
  | nil => exact ⟨Extends.refl _, fun i entry h => by simp at h⟩
  | cons head rest ih =>
    intro g offset
    have hhd := @process_spec β δ config g offset head.1 head.2
    have hr := @ih (g.process config offset head.1 head.2) (offset + 1)
    refine ⟨hhd.1.trans hr.1, fun i entry he => ?_⟩
    cases i with
    | zero =>
      cases he
      exact ⟨fun hcnt => hr.1.recorded _ (hhd.2.1 hcnt),
        fun hgr => hr.1.offsets _ (hhd.2.2 hgr)⟩
    | succ i =>
      have hsp := hr.2 i entry he
      rw [show offset + 1 + i = offset + (i + 1) by omega] at hsp
      exact hsp

/-- A span at a reading of the clock is of another edge, and does not find the edge expired. -/
def Spared (config : Config β δ) (edge : Edge δ) (entry : SpanRecord β × Int64) : Prop :=
  edgeKey entry.1 ≠ some edge.key ∧ stale config entry.1.tenant entry.2 edge = false

/-- A span of another edge leaves an edge that is not stale. -/
theorem mem_recordEdge_of_spared (hmem : edge ∈ g.edges) (hkey : key ≠ edge.key)
    (hfresh : stale config span.tenant now edge = false) :
    edge ∈ (g.recordEdge config offset span now isClient key).edges := by
  have hkept : edge ∈ (g.expire config now span.tenant).edges :=
    mem_filter.mpr ⟨hmem, by simp [hfresh]⟩
  unfold recordEdge
  simp only
  split
  next found hfound =>
    have hother : edge.key ≠ found.key := by
      have : found.key = key := by simpa using find?_some hfound
      rw [this]
      exact hkey.symm
    unfold updateEdge
    split
    next => exact mem_filter.mpr ⟨hkept, by simpa using hother⟩
    next => exact mem_map.mpr ⟨edge, hkept, if_neg hother⟩
  next =>
    unfold insertEdge
    simp only
    split
    next => exact hkept
    next => exact mem_append_left _ hkept

theorem mem_process_of_spared (hmem : edge ∈ g.edges) (hspared : Spared config edge (span, now)) :
    edge ∈ (g.process config offset span now).edges := by
  unfold process recordSpan
  split
  next =>
    split
    next isClient key _ hkey =>
      refine mem_recordEdge_of_spared hmem (fun heq => hspared.1 ?_) hspared.2
      rw [hkey, heq]
    next => exact hmem
  next => exact hmem

/-- A poll leaves an edge that all its spans spare. -/
theorem mem_processAll_of_spared {spans : List (SpanRecord β × Int64)} :
    ∀ {g : Generator δ} {offset : Nat}, edge ∈ g.edges →
      (∀ entry ∈ spans, Spared config edge entry) →
        edge ∈ (g.processAll config offset spans).edges := by
  induction spans with
  | nil => exact fun hmem _ => hmem
  | cons head rest ih =>
    intro g offset hmem hspared
    exact ih (mem_process_of_spared hmem (hspared head mem_cons_self))
      fun entry hentry => hspared entry (mem_cons_of_mem head hentry)

end Extends

end KrabkaO11y.Traces.MetricsGen
