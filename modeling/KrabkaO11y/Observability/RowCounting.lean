import KrabkaO11y.Observability.RowVisibility

/-!
How often a log row is counted by a metric query
(`crates/observability/src/querier/scan.rs`, `querier/aggregate/record_matching.rs`).

The samples of a window come from the rows of the planned blocks and from the hot records
that the captured frontier does not call compacted, with no look at both. A block that is
published after the frontier was captured, or by a replay that cut its batch in another
way, counts its rows twice (`published_row_counted_twice`). Where every shard fetched has
only rows that the captured frontier calls compacted, and every block published has only
rows of no other block, no row is (`row_counted_once`).
-/

namespace KrabkaO11y.Observability

open Concurrent.System List Option

variable {store store' : Compaction} {q q' : Querier} {record : WalLogRecord}

/-! ### The scan of a metric query -/

/-- What a metric query takes from its plan and its text. -/
structure MetricScan where
  tenant : String
  /-- The planner takes the block. -/
  planned : BlockKey → Bool
  /-- A row of a block, or a hot record, has a sample. -/
  rowMatches : WalLogRecord → Bool
  hotMatches : WalLogRecord → Bool
  offsetNs : Int
  rangeNs : Int
  evalTimes : List Int

namespace MetricScan

/-- The evaluation times whose windows a timestamp is in, as `record_matching_metric_sample`
searches for them. -/
def windows (scan : MetricScan) (timestampNs : Int) : List Int :=
  let remaining := scan.evalTimes.dropWhile fun time =>
    decide (saturatingSub time scan.offsetNs < timestampNs)
  remaining.takeWhile fun time =>
    decide (saturatingSub (saturatingSub time scan.offsetNs) scan.rangeNs < timestampNs)

/-- The samples that a record is counted in, each named by its evaluation time. -/
def samples (scan : MetricScan) (record : WalLogRecord) : List (Int × WalLogRecord) :=
  (scan.windows record.timestampNs).map fun time => (time, record)

/-- The rows of the planned blocks, then the hot records past the frontier. -/
def counted (scan : MetricScan) (store : Compaction) (frontier : CompactionFrontier)
    (blocks : List BlockKey) (hot : List WalLogRecord) : List WalLogRecord :=
  ((blocks.filter scan.planned).flatMap store.objects).filter scan.rowMatches ++
    hot.filter fun record =>
      record.tenant == scan.tenant && !frontier.isCompacted record && scan.hotMatches record

/-- What the accumulators of all windows record. -/
def contributions (scan : MetricScan) (store : Compaction) (frontier : CompactionFrontier)
    (blocks : List BlockKey) (hot : List WalLogRecord) : List (Int × WalLogRecord) :=
  (scan.counted store frontier blocks hot).flatMap scan.samples

theorem nodup_windows {scan : MetricScan} (h : scan.evalTimes.Nodup) (timestampNs : Int) :
    (scan.windows timestampNs).Nodup :=
  (h.sublist (dropWhile_sublist _)).sublist (takeWhile_sublist _)

/-- Records that are counted once are counted once in each window. -/
theorem nodup_samples {scan : MetricScan} (h : scan.evalTimes.Nodup) {records : List WalLogRecord}
    (hrecords : records.Nodup) : (records.flatMap scan.samples).Nodup := by
  refine nodup_flatMap.mpr ⟨fun record _ => ?_, ?_⟩
  · exact (nodup_windows h _).map fun _ _ heq => (Prod.mk.inj heq).1
  · refine hrecords.imp fun {left right} hne => ?_
    intro sample hlf hr
    obtain ⟨_, -, rfl⟩ := mem_map.mp hlf
    obtain ⟨_, -, heq⟩ := mem_map.mp hr
    exact hne (Prod.mk.inj heq).2.symm

end MetricScan

/-- At most one element of a list has a property that no two of them share. -/
theorem countP_le_one {α : Type*} {p : α → Bool} {items : List α} (nodup : items.Nodup)
    (huni : ∀ left ∈ items, ∀ right ∈ items, p left = true → p right = true → left = right) :
    items.countP p ≤ 1 := by
  rw [countP_eq_length_filter]
  have hall : ∀ left ∈ items.filter p, ∀ right ∈ items.filter p, left = right := by
    intro left hlf right hr
    rw [mem_filter] at hlf hr
    exact huni left hlf.1 right hr.1 hlf.2 hr.2
  have hfil := nodup.filter p
  match hit : items.filter p with
  | [] => simp
  | [_] => simp
  | first :: second :: rest =>
    rw [hit] at hall hfil
    have heq := hall first mem_cons_self second (mem_cons_of_mem _ mem_cons_self)
    rw [nodup_cons] at hfil
    exact absurd (heq ▸ mem_cons_self) hfil.1

/-! ### Blocks that share no row -/

/-- Published blocks have all rows between their ends, and no two share one. -/
structure Compaction.Sealed (store : Compaction) : Prop where
  attained : ∀ key ∈ store.published, AttainedBy store.wal key.partition key.lastOffset
  full : ∀ key ∈ store.published, ∀ record ∈ store.wal, key.Spans record →
    record ∈ store.objects key
  disjoint : ∀ key ∈ store.published, ∀ other ∈ store.published, key ≠ other →
    ∀ record ∈ store.objects key, record ∉ store.objects other

/-- A published block's rows do not change. -/
theorem Compaction.Sealed.rows (h : store.Sealed) (hv : store'.Valid)
    (hg : store.Grows store') {key : BlockKey} (hkey : key ∈ store.published)
    (hrow : record ∈ store'.objects key) : record ∈ store.objects key := by
  obtain ⟨hmem, hd⟩ := hv.rows key record hrow
  obtain ⟨offset, hpos, hf, hl⟩ := hd.spans
  have hold := hg.mem_of_le (h.attained key hkey) hmem hpos hl
  exact h.full key hkey record hold ⟨offset, hpos, hf, hl⟩

/-- A step that publishes no block keeps them apart. -/
theorem Compaction.Sealed.grow (h : store.Sealed) (hv : store'.Valid)
    (hg : store.Grows store') (hpub : store'.published = store.published) :
    store'.Sealed := by
  constructor
  · rw [hpub]
    intro key hkey
    obtain ⟨last, hl, hpos⟩ := h.attained key hkey
    exact ⟨last, hg.mem_wal hl, hpos⟩
  · rw [hpub]
    intro key hkey record hrec hsn
    have ⟨offset, hpos, _, hle⟩ := hsn
    have hold := hg.mem_of_le (h.attained key hkey) hrec hpos hle
    exact hg.rows key record (h.full key hkey record hold hsn)
  · rw [hpub]
    intro key hkey other ho hne record hrow hrow'
    exact h.disjoint key hkey other ho hne record (h.rows hv hg hkey hrow)
      (h.rows hv hg ho hrow')

/-- A block is published whose rows are in no other one. -/
def Compaction.PublishesNew (store : Compaction) (id : Nat) : Prop :=
  ∀ compactor ∈ store.compactors id, ∀ chunk ∈ compactor.stage.chunks.head?,
    ∀ key ∈ (compactionKey chunk).toOption, ∀ other ∈ store.published, other ≠ key →
      ∀ record ∈ chunk, record ∉ store.objects other
deriving Decidable

/-- The condition on the compactors' steps. -/
def Compaction.CountsOnce (store : Compaction) : Compaction.Event → Prop
  | .publishBlock id _ => store.PublishesNew id
  | _ => True

theorem Compaction.Sealed.publishBlock (h : store.Sealed) (hv : store.Valid) {id : Nat}
    {reported : Bool} {compactor : Compactor} (hcompactor : store.compactors id = some compactor)
    (hnew : store.PublishesNew id)
    (step : store.publishBlock id compactor reported = some store') : store'.Sealed := by
  obtain ⟨shared, consumed, stage⟩ := compactor
  have hpr := hv.compactors id _ hcompactor
  rw [Compaction.publishBlock] at step
  split at step
  · rename_i batch chunk chunks descriptors hstg
    cases hstg
    split at step <;> cases step
    rename_i key hkey
    obtain ⟨hin, -, hsn⟩ := hpr.exact chunk (hpr.suffix chunk mem_cons_self) key hkey
    have hwr := hpr.written rfl chunk rfl key hkey
    -- the rows of the block are those of the chunk
    have hrs : ∀ record ∈ store.objects key, record ∈ chunk := fun record hrow =>
      hsn record (hv.rows key record hrow).1 (hv.rows key record hrow).2.spans
    have hap := hnew _ hcompactor chunk rfl key (by rw [hkey]; rfl)
    constructor
    · intro other ho
      rcases Compaction.mem_publish.mp ho with ho | rfl
      · exact h.attained other ho
      · obtain ⟨-, -, last, hl, hpos⟩ := compactionKey_spec hkey
        exact ⟨last, hin last hl, hpos⟩
    · intro other ho record hrec hot
      rcases Compaction.mem_publish.mp ho with ho | rfl
      · exact h.full other ho record hrec hot
      · exact hwr record (hsn record hrec hot)
    · intro left hlf right hr hne record hrow hrow'
      rcases Compaction.mem_publish.mp hlf with hold | rfl <;>
        rcases Compaction.mem_publish.mp hr with hold' | rfl
      · exact h.disjoint left hold right hold' hne record hrow hrow'
      · exact hap left hold hne record (hrs record hrow') hrow
      · exact hap right hold' hne.symm record (hrs record hrow) hrow'
      · exact hne rfl
  · cases step

theorem Compaction.Sealed.step (h : store.Sealed) (hv : store.Valid) {event : Compaction.Event}
    (hcts : store.CountsOnce event) (hs : store.step event = some store') :
    store'.Sealed := by
  by_cases hpu : ∃ id reported, event = .publishBlock id reported
  · obtain ⟨id, reported, rfl⟩ := hpu
    obtain ⟨compactor, hcp, hs⟩ := bind_eq_some_iff.mp hs
    exact h.publishBlock hv hcp hcts hs
  · have heff := Compaction.effect_step hv hs
    exact h.grow (hv.step hs) heff.grows
      (heff.published fun id reported heq => hpu ⟨id, reported, heq⟩)

/-! ### Blocks whose rows the frontier calls compacted -/

/-- A published block with no row that the frontier leaves to the hot tail. -/
structure Cold (store : Compaction) (frontier : CompactionFrontier) (key : BlockKey) : Prop where
  published : key ∈ store.published
  rows : ∀ record ∈ store.objects key, frontier.isCompacted record = true

variable {frontier : CompactionFrontier}

theorem Cold.grow {key : BlockKey} (h : Cold store frontier key)
    (hsea : store.Sealed) (hv : store'.Valid) (hg : store.Grows store') :
    Cold store' frontier key :=
  ⟨hg.published key h.published,
    fun record hrow => h.rows record (hsea.rows hv hg h.published hrow)⟩

/-- An index: a key once, and all its blocks cold. -/
structure ColdIndex (store : Compaction) (frontier : CompactionFrontier) (blocks : List BlockKey) :
    Prop where
  nodup : blocks.Nodup
  cold : ∀ key ∈ blocks, Cold store frontier key

/-- What is cached under a version is cold for the frontier of that version. -/
structure IndexCache.ColdFor (store : Compaction) (frontier : CompactionFrontier)
    (cache : IndexCache) : Prop where
  entries : ∀ at_ blocks, cache.entries at_ = some blocks → ColdIndex store frontier blocks
  shards : ∀ at_ blocks, cache.shardIndexes at_ = some blocks →
    ∀ key ∈ blocks, Cold store frontier key

theorem coldFor_empty (frontier : CompactionFrontier) (version : Nat) :
    IndexCache.ColdFor store frontier { version } := by
  constructor <;> simp

variable {frontier : CompactionFrontier} {cache : IndexCache} {blocks : Option (List BlockKey)}
  {at_ : String × TimeRange}

theorem IndexCache.ColdFor.updateEntries (h : cache.ColdFor store frontier)
    (hbs : ∀ keys, blocks = some keys → ColdIndex store frontier keys) :
    { cache with entries := Function.update cache.entries at_ blocks }.ColdFor store frontier :=
  { h with entries := forall_update h.entries hbs }

theorem IndexCache.ColdFor.updateShards (h : cache.ColdFor store frontier)
    (hbs : ∀ keys, blocks = some keys → ∀ key ∈ keys, Cold store frontier key) :
    { cache with shardIndexes := Function.update cache.shardIndexes at_ blocks
      }.ColdFor store frontier :=
  { h with shards := forall_update h.shards hbs }

theorem IndexCache.ColdFor.drop (h : cache.ColdFor store frontier) (key : CacheKey) :
    (cache.drop key).ColdFor store frontier := by
  cases key with
  | entry tenant range => exact h.updateEntries nofun
  | ranges tenant => exact { h with }
  | shard tenant range => exact h.updateShards nofun

theorem IndexCache.ColdFor.cacheShards {tenant : String}
    {fetched : List (TimeRange × List BlockKey)} : ∀ {cache : IndexCache},
      cache.ColdFor store frontier →
      (∀ shard ∈ fetched, ∀ key ∈ shard.2, Cold store frontier key) →
        (Querier.cacheShards tenant cache fetched).ColdFor store frontier := by
  induction fetched with
  | nil => exact fun h _ => h
  | cons shard rest ih =>
    intro cache h hfet
    refine ih (h.updateShards fun keys hks => ?_)
      fun other ho => hfet other (mem_cons_of_mem _ ho)
    exact some.inj hks ▸ hfet shard mem_cons_self

/-! ### Requests -/

/-- A capture has the frontier that its version had. -/
structure Querier.Tracked (q : Querier) (history : Nat → CompactionFrontier) (capture : Capture) :
    Prop where
  le : capture.version ≤ q.shared.version
  frontier : history capture.version = capture.frontier
  cache : ∃ cache, q.caches[capture.cache]? = some cache ∧ cache.version = capture.version

/-- What the count of a request relies on at each stage. -/
def Counts (store : Compaction) (q : Querier) (history : Nat → CompactionFrontier) :
    RequestStage → Prop
  | .starting | .failed => True
  | .captured frontier version => version ≤ q.shared.version ∧ history version = frontier
  | .loading capture | .listing capture => q.Tracked history capture
  | .fetching capture hits _ fetched => q.Tracked history capture ∧
      (∀ key ∈ hits, Cold store capture.frontier key) ∧
      ∀ shard ∈ fetched, ∀ key ∈ shard.2, Cold store capture.frontier key
  | .loaded capture blocks => q.Tracked history capture ∧
      ∀ keys, blocks = some keys → ColdIndex store capture.frontier keys
  | .snapped capture blocks hot => q.Tracked history capture ∧
      (∀ keys, blocks = some keys → ColdIndex store capture.frontier keys) ∧
      hot.Nodup ∧ ∀ record ∈ hot, record ∈ store.wal
  | .done frontier blocks hot => ColdIndex store frontier blocks ∧
      hot.Nodup ∧ ∀ record ∈ hot, record ∈ store.wal

/-- What the querier keeps where each shard fetched is cold. -/
structure Querier.Counted (store : Compaction) (history : Nat → CompactionFrontier)
    (q : Querier) : Prop where
  shared : history q.shared.version = q.shared.frontier
  received : ∀ record ∈ q.received, record ∈ store.wal
  hotTail : ∀ record ∈ q.hotTail, record ∈ q.received
  nodup : q.hotTail.Nodup
  caches : ∀ cache ∈ q.caches, cache.version ≤ q.shared.version ∧
    cache.ColdFor store (history cache.version)
  generation : ∀ version id, q.generation = some (version, id) →
    ∃ cache, q.caches[id]? = some cache ∧ cache.version = version
  requests : ∀ request ∈ q.requests, Counts store q history request.stage

variable {history : Nat → CompactionFrontier} {stage : RequestStage} {blocks : List BlockKey}

theorem ColdIndex.grow (h : ColdIndex store frontier blocks)
    (hsea : store.Sealed) (hv : store'.Valid) (hg : store.Grows store') :
    ColdIndex store' frontier blocks :=
  ⟨h.nodup, fun key hkey => (h.cold key hkey).grow hsea hv hg⟩

theorem Counts.grow (h : Counts store q history stage) (hsea : store.Sealed)
    (hv : store'.Valid) (hg : store.Grows store') : Counts store' q history stage := by
  cases stage with
  | starting | failed => trivial
  | captured _ _ | loading _ | listing _ => exact h
  | fetching capture hits misses fetched =>
    exact ⟨h.1, fun key hkey => (h.2.1 key hkey).grow hsea hv hg,
      fun shard hsd key hkey => (h.2.2 shard hsd key hkey).grow hsea hv hg⟩
  | loaded capture blocks =>
    exact ⟨h.1, fun keys hks => (h.2 keys hks).grow hsea hv hg⟩
  | snapped capture blocks hot =>
    exact ⟨h.1, fun keys hks => (h.2.1 keys hks).grow hsea hv hg, h.2.2.1,
      fun record hrec => hg.mem_wal (h.2.2.2 record hrec)⟩
  | done frontier blocks hot =>
    exact ⟨h.1.grow hsea hv hg, h.2.1,
      fun record hrec => hg.mem_wal (h.2.2 record hrec)⟩

theorem Querier.Counted.grow (h : q.Counted store history) (hsea : store.Sealed)
    (hv : store'.Valid) (hg : store.Grows store') : q.Counted store' history where
  shared := h.shared
  received record hrec := hg.mem_wal (h.received record hrec)
  hotTail := h.hotTail
  nodup := h.nodup
  caches cache hc := by
    obtain ⟨hle, hen, hshs⟩ := h.caches cache hc
    exact ⟨hle, fun at_ blocks hbs => (hen at_ blocks hbs).grow hsea hv hg,
      fun at_ blocks hbs key hkey =>
        (hshs at_ blocks hbs key hkey).grow hsea hv hg⟩
  generation := h.generation
  requests request hreq := (h.requests request hreq).grow hsea hv hg

/-! ### Steps of the querier -/

/-- The version has not gone down and the versions there were keep their frontiers. -/
structure Later (q q' : Querier) (history history' : Nat → CompactionFrontier) : Prop where
  version : q.shared.version ≤ q'.shared.version
  history : ∀ version ≤ q.shared.version, history' version = history version
  caches : q.KeepsCaches q'

theorem Later.of_eq (hshared : q'.shared = q.shared) (caches : q.KeepsCaches q') :
    Later q q' history history :=
  ⟨hshared ▸ le_rfl, fun _ _ => rfl, caches⟩

variable {history' : Nat → CompactionFrontier} {capture : Capture}

theorem Querier.Tracked.later
    (h : q.Tracked history capture) (hl : Later q q' history history') :
    q'.Tracked history' capture := by
  obtain ⟨cache, hc, hver⟩ := h.cache
  obtain ⟨next, hn, hsm⟩ := hl.caches _ cache hc
  exact ⟨h.le.trans hl.version, (hl.history _ h.le).trans h.frontier, next, hn,
    hsm.trans hver⟩

theorem Counts.later (h : Counts store q history stage)
    (hl : Later q q' history history') : Counts store q' history' stage := by
  cases stage with
  | starting | failed => trivial
  | captured frontier version =>
    exact ⟨h.1.trans hl.version, (hl.history version h.1).trans h.2⟩
  | loading capture | listing capture => exact Querier.Tracked.later h hl
  | fetching _ _ _ _ | loaded _ _ | snapped _ _ _ => exact ⟨h.1.later hl, h.2⟩
  | done frontier blocks hot => exact h

section

variable (h : q.Counted store history)
include h

/-- A step that leaves the frontier and the hot tail but for a request and the caches. -/
theorem Querier.Counted.request {n : Nat} {request : Request}
    {caches : List IndexCache} {generation : Option (Nat × Nat)}
    (hk : q.KeepsCaches { q with caches })
    (hcs : ∀ cache ∈ caches, cache.version ≤ q.shared.version ∧
      cache.ColdFor store (history cache.version))
    (hgen : ∀ version id, generation = some (version, id) →
      ∃ cache, caches[id]? = some cache ∧ cache.version = version)
    (hstg : Counts store { q with caches } history stage) :
    { q.setStage n request stage with caches, generation }.Counted store history := by
  refine { h with caches := hcs, generation := hgen, requests := fun other ho => ?_ }
  rcases mem_or_eq_of_mem_set ho with hmem | rfl
  · exact (h.requests other hmem).later (.of_eq rfl hk)
  · exact hstg.later (.of_eq rfl (.of_eq rfl))

theorem Querier.Counted.setStage {n : Nat} {request : Request}
    (hstg : Counts store q history stage) : (q.setStage n request stage).Counted store history :=
  h.request (.of_eq rfl) h.caches h.generation hstg

theorem Querier.Counted.cold
    (tracked : q.Tracked history capture) (hc : q.cacheOf capture = some cache) :
    cache.version = capture.version ∧ cache.ColdFor store capture.frontier := by
  obtain ⟨other, ho, hver⟩ := tracked.cache
  obtain rfl : cache = other := some.inj (hc.symm.trans ho)
  have hco := (h.caches cache (mem_of_getElem? hc)).2
  rw [hver, tracked.frontier] at hco
  exact ⟨hver, hco⟩

theorem Querier.Counted.setCache {id : Nat} (next : IndexCache)
    (hc : q.caches[id]? = some cache) (hver : next.version = cache.version)
    (hco : next.ColdFor store (history cache.version)) :
    (q.setCache id next).Counted store history ∧ q.KeepsCaches (q.setCache id next) := by
  have hk := Querier.keepsCaches_setCache next hc hver
  refine ⟨{ h with caches := ?_, generation := hk.generation h.generation, requests := ?_ }, hk⟩
  · intro other ho
    rcases mem_or_eq_of_mem_set ho with hmem | rfl
    · exact h.caches other hmem
    · rw [hver]
      exact ⟨(h.caches cache (mem_of_getElem? hc)).1, hco⟩
  · exact fun request hreq => (h.requests request hreq).later (.of_eq rfl hk)

/-- A new version is put in the history. -/
theorem Querier.Counted.replaceFrontier {n : Nat}
    (hs : q.replaceFrontier n = some q') : ∃ history', q'.Counted store history' := by
  obtain ⟨frontier, hfr, rfl⟩ := map_eq_some_iff.mp hs
  have hnew := q.shared.frontier_replace frontier
  -- versions up to the one before keep their frontiers
  have hl : ∃ history' : Nat → CompactionFrontier,
      history' (q.shared.replace frontier).version = frontier ∧
      q.shared.version ≤ (q.shared.replace frontier).version ∧
      ∀ version ≤ q.shared.version, history' version = history version := by
    rcases q.shared.version_replace frontier with hsm | hlt
    · refine ⟨history, ?_, by rw [hsm], fun _ _ => rfl⟩
      rw [hsm] at hnew ⊢
      exact h.shared.trans hnew
    · refine ⟨Function.update history (q.shared.replace frontier).version frontier,
        Function.update_self .., hlt.le, fun version hle => ?_⟩
      exact Function.update_of_ne (hle.trans_lt hlt).ne _ _
  obtain ⟨history', hcur, hver, hhi⟩ := hl
  refine ⟨history', { h with shared := hcur.trans hnew.symm, caches := ?_, requests := ?_ }⟩
  · intro cache hc
    obtain ⟨hle, hco⟩ := h.caches cache hc
    refine ⟨hle.trans hver, ?_⟩
    rw [hhi _ hle]
    exact hco
  · exact fun request hreq =>
      (h.requests request hreq).later ⟨hver, hhi, .of_eq rfl⟩

/-- A step that leaves the frontier, the caches and the requests. -/
theorem Querier.Counted.tail {hotTail received : List WalLogRecord}
    {reads prunes : List CompactionFrontier} (hrcv : ∀ record ∈ received, record ∈ store.wal)
    (hho : ∀ record ∈ hotTail, record ∈ received) (hnd : hotTail.Nodup) :
    { q with hotTail, received, reads, prunes }.Counted store history :=
  { h with
    received := hrcv
    hotTail := hho
    nodup := hnd
    requests := fun request hreq => (h.requests request hreq).later (.of_eq rfl (.of_eq rfl)) }

theorem Querier.Counted.receive
    (hs : q.receive store.wal record = some q') : q'.Counted store history := by
  rw [Querier.receive] at hs
  split at hs <;> cases hs
  rename_i hmem
  refine h.tail ?_ ?_ ?_
  · intro other ho
    rcases mem_append.mp ho with ho | ho
    · exact h.received other ho
    · exact mem_singleton.mp ho ▸ hmem.1
  · exact fun other ho => mem_append.mpr ((mem_append.mp ho).imp_left (h.hotTail other))
  · refine nodup_append.mpr ⟨h.nodup, nodup_singleton record, ?_⟩
    rintro other ho _ hsi rfl
    exact hmem.2 (mem_singleton.mp hsi ▸ h.hotTail other ho)

end

section Requests

variable {n : Nat} {request : Request}

theorem Querier.Counted.stageOf (h : q.Counted store history)
    (hreq : q.requests[n]? = some request) (hstg : request.stage = stage) :
    Counts store q history stage :=
  hstg ▸ h.requests request (mem_of_getElem? hreq)

/-- The blocks that a plan finds in the cache are cold. -/
theorem cold_hits (cold : cache.ColdFor store frontier) {tenant : String}
    {ranges : List TimeRange} :
    ∀ key ∈ ranges.flatMap fun range => (cache.shardIndexes (tenant, range)).getD [],
      Cold store frontier key := by
  intro key hkey
  obtain ⟨range, -, hin⟩ := mem_flatMap.mp hkey
  cases hsd : cache.shardIndexes (tenant, range) <;> rw [hsd] at hin
  · cases hin
  · exact cold.shards _ _ hsd key hin

variable (h : q.Counted store history) (hreq : q.requests[n]? = some request)
include h hreq

theorem Querier.Counted.forFrontier (hs : q.forFrontier n request = some q') :
    q'.Counted store history := by
  rw [Querier.forFrontier] at hs
  split at hs
  · rename_i frontier version hstg
    obtain ⟨hle, hhi⟩ := h.stageOf hreq hstg
    split at hs
    · rename_i current hcur
      cases hs
      obtain ⟨hso, hver⟩ := filter_eq_some_iff.mp hcur
      obtain ⟨cache, hc, hsm⟩ := h.generation current.1 current.2 hso
      exact h.setStage ⟨hle, hhi, cache, hc, hsm.trans (beq_iff_eq.mp hver)⟩
    · cases hs
      have hnew : (q.caches ++ [({ version } : IndexCache)])[q.caches.length]? =
          some { version } := getElem?_concat_length
      have hk := q.keepsCaches_concat { version }
      refine h.request hk ?_ ?_ ?_
      · intro cache hc
        rcases mem_append.mp hc with hc | hc
        · exact h.caches cache hc
        · rw [mem_singleton.mp hc]
          exact ⟨hle, coldFor_empty _ version⟩
      · intro other id hgen
        split at hgen
        · cases hgen
          exact ⟨_, hnew, rfl⟩
        · exact hk.generation h.generation other id hgen
      · exact ⟨hle, hhi, _, hnew, rfl⟩
  · cases hs

theorem Querier.Counted.lookup (hs : q.lookup n request = some q') :
    q'.Counted store history := by
  rw [Querier.lookup] at hs
  split at hs
  · rename_i capture hstg
    have htr : q.Tracked history capture := h.stageOf hreq hstg
    obtain ⟨cache, hc, rfl⟩ := map_eq_some_iff.mp hs
    split
    · rename_i blocks hbs
      refine h.setStage ⟨htr, fun keys hks => ?_⟩
      cases hks
      exact (h.cold htr hc).2.entries _ blocks hbs
    · exact h.setStage htr
  · cases hs

theorem Querier.Counted.listShards (hs : q.listShards store n request = some q') :
    q'.Counted store history := by
  rw [Querier.listShards] at hs
  split at hs
  · rename_i capture hstg
    have htr : q.Tracked history capture := h.stageOf hreq hstg
    obtain ⟨cache, hc, rfl⟩ := map_eq_some_iff.mp hs
    obtain ⟨hver, hco⟩ := h.cold htr hc
    split
    · exact h.setStage ⟨htr, cold_hits hco, by simp⟩
    · have hc' : cache.ColdFor store (history cache.version) := by
        rw [hver, htr.frontier]
        exact hco
      obtain ⟨hv, hk⟩ := h.setCache { cache with
        shardRanges := Function.update cache.shardRanges request.tenant
          (some (store.shardRanges request.tenant)) } hc rfl ⟨hc'.entries, hc'.shards⟩
      exact hv.setStage ⟨htr.later (.of_eq rfl hk), cold_hits hco, by simp⟩
  · cases hs

theorem Querier.Counted.finishLoad (hs : q.finishLoad n request = some q') :
    q'.Counted store history := by
  rw [Querier.finishLoad] at hs
  split at hs
  · rename_i capture hits fetched hstg
    obtain ⟨htr, hhi, hfet⟩ := h.stageOf hreq hstg
    obtain ⟨cache, hc, rfl⟩ := map_eq_some_iff.mp hs
    obtain ⟨hver, hco⟩ := h.cold htr hc
    have hi : ColdIndex store capture.frontier (hits ++ fetched.flatMap Prod.snd).dedup := by
      refine ⟨nodup_dedup _, fun key hkey => ?_⟩
      rw [mem_dedup, mem_append] at hkey
      rcases hkey with hkey | hkey
      · exact hhi key hkey
      · obtain ⟨shard, hsd, hin⟩ := mem_flatMap.mp hkey
        exact hfet shard hsd key hin
    obtain ⟨hv, hk⟩ := h.setCache { Querier.cacheShards request.tenant cache fetched with
        entries := Function.update (Querier.cacheShards request.tenant cache fetched).entries
          (request.tenant, request.range) (some (hits ++ fetched.flatMap Prod.snd).dedup) }
      hc version_cacheShards (by
        rw [hver, htr.frontier]
        exact (hco.cacheShards hfet).updateEntries fun _ hks => some.inj hks ▸ hi)
    refine hv.setStage ⟨htr.later (.of_eq rfl hk), fun keys hks => ?_⟩
    cases hks
    exact hi
  · cases hs

theorem Querier.Counted.failLoad (hs : q.failLoad n request = some q') :
    q'.Counted store history := by
  have hfailed {capture : Capture} (htr : q.Tracked history capture) :
      (q.setStage n request (.loaded capture none)).Counted store history :=
    h.setStage ⟨htr, nofun⟩
  rw [Querier.failLoad] at hs
  split at hs <;> cases hs <;> rename_i hstg
  · exact hfailed (h.stageOf hreq hstg)
  · exact hfailed (h.stageOf hreq hstg)
  · exact hfailed (h.stageOf hreq hstg).1

theorem Querier.Counted.snapshotHot (hs : q.snapshotHot n request = some q') :
    q'.Counted store history := by
  rw [Querier.snapshotHot] at hs
  split at hs <;> cases hs
  rename_i capture blocks hstg
  obtain ⟨htr, hbs⟩ := h.stageOf hreq hstg
  refine h.setStage ⟨htr, hbs, h.nodup.filter _, fun record hrec => ?_⟩
  exact h.received record (h.hotTail record (mem_filter.mp hrec).1)

theorem Querier.Counted.recheck (hs : q.recheck n request = some q') :
    q'.Counted store history := by
  rw [Querier.recheck] at hs
  split at hs <;> cases hs
  rename_i capture blocks hot hstg
  obtain ⟨-, hbs, hnd, hwal⟩ := h.stageOf hreq hstg
  refine h.setStage ?_
  split
  · trivial
  · split
    · rename_i keys
      exact ⟨hbs keys rfl, hnd, hwal⟩
    · trivial

end Requests

/-! ### Runs -/

/-- The frontier and the missing shards of a request that fetches. -/
def RequestStage.fetches : RequestStage → Option (CompactionFrontier × List TimeRange)
  | .fetching capture _ misses _ => some (capture.frontier, misses)
  | _ => none

namespace LogPath

variable {s s' : LogPath}

/-- A shard is fetched all of whose rows the captured frontier calls compacted. -/
def FetchesCold (s : LogPath) (n m : Nat) : Prop :=
  ∀ request ∈ s.querier.requests[n]?, ∀ fetch ∈ request.stage.fetches, ∀ range ∈ fetch.2[m]?,
    ∀ key ∈ s.store.shard request.tenant range, ∀ record ∈ s.store.objects key,
      fetch.1.isCompacted record = true
deriving Decidable

/-- Blocks are published with rows of no other block, and fetched when the request's
frontier calls all their rows compacted. -/
def CountsOnce (s : LogPath) : Event → Prop
  | .compaction event => s.store.CountsOnce event
  | .fetch n m => s.FetchesCold n m
  | _ => True

def Counted (s : LogPath) : Prop :=
  s.store.Valid ∧ s.store.Sealed ∧ ∃ history, s.querier.Counted s.store history

theorem Counted.querierStep (h : s.Counted) {event : Event} (hcts : s.CountsOnce event)
    (hs : querierStep s.store s.querier event = some q') :
    ∃ history, q'.Counted s.store history := by
  obtain ⟨-, -, history, hq⟩ := h
  cases event with
  | compaction event => cases hs
  | startQuerier =>
    cases hs
    refine ⟨fun _ => (Querier.start s.store.frontier).shared.frontier, ?_⟩
    constructor <;> simp [Querier.start]
  | receive record => exact ⟨history, hq.receive hs⟩
  | snapshotPrune =>
    cases hs
    exact ⟨history, hq.tail hq.received hq.hotTail hq.nodup⟩
  | readFrontier =>
    obtain ⟨frontier, hfr, rfl⟩ := map_eq_some_iff.mp hs
    exact ⟨history, hq.tail hq.received hq.hotTail hq.nodup⟩
  | replaceFrontier n => exact hq.replaceFrontier hs
  | prune n =>
    obtain ⟨frontier, hfr, rfl⟩ := map_eq_some_iff.mp hs
    exact ⟨history, hq.tail hq.received
      (fun record hrec => hq.hotTail record (mem_filter.mp hrec).1)
      (hq.nodup.filter _)⟩
  | evict id key =>
    obtain ⟨cache, hc, rfl⟩ := map_eq_some_iff.mp hs
    have hco := (hq.caches cache (mem_of_getElem? hc)).2
    exact ⟨history, (hq.setCache _ hc (cache.version_drop key) (hco.drop key)).1⟩
  | beginRequest tenant range =>
    cases hs
    refine ⟨history, { hq with requests := fun request hreq => ?_ }⟩
    rcases mem_append.mp hreq with hmem | hmem
    · exact (hq.requests request hmem).later (.of_eq rfl (.of_eq rfl))
    · rw [mem_singleton.mp hmem]
      trivial
  | capture n =>
    obtain ⟨request, hreq, hs⟩ := bind_eq_some_iff.mp hs
    rw [Querier.capture] at hs
    split at hs <;> cases hs
    exact ⟨history, hq.setStage ⟨le_rfl, hq.shared⟩⟩
  | forFrontier n => exact ⟨history, of_part hq.forFrontier hs⟩
  | lookup n => exact ⟨history, of_part hq.lookup hs⟩
  | listShards n => exact ⟨history, of_part hq.listShards hs⟩
  | fetch n m =>
    obtain ⟨request, hreq, hs⟩ := bind_eq_some_iff.mp hs
    rw [Querier.fetch] at hs
    split at hs
    · rename_i capture hits misses fetched hstg
      obtain ⟨range, hr, rfl⟩ := map_eq_some_iff.mp hs
      obtain ⟨htr, hhi, hfet⟩ := hq.stageOf hreq hstg
      refine ⟨history, hq.setStage ⟨htr, hhi, fun shard hsd => ?_⟩⟩
      rcases mem_append.mp hsd with hmem | hmem
      · exact hfet shard hmem
      · rw [mem_singleton.mp hmem]
        intro key hkey
        exact ⟨(mem_shard.mp hkey).1, hcts request hreq (capture.frontier, misses)
          (by rw [hstg]; rfl) range hr key hkey⟩
    · cases hs
  | finishLoad n => exact ⟨history, of_part hq.finishLoad hs⟩
  | failLoad n => exact ⟨history, of_part hq.failLoad hs⟩
  | snapshotHot n => exact ⟨history, of_part hq.snapshotHot hs⟩
  | recheck n => exact ⟨history, of_part hq.recheck hs⟩

theorem Counted.step (h : s.Counted) {event : Event} (hcts : s.CountsOnce event)
    (hs : s.step event = some s') : s'.Counted := by
  rcases step_cases hs with ⟨inner, rfl, hst, hq⟩ | ⟨hq, hst⟩
  · obtain ⟨hv, hsea, history, hcnt⟩ := h
    refine ⟨hv.step hst, hsea.step hv hcts hst, history, ?_⟩
    rw [hq]
    exact hcnt.grow hsea (hv.step hst) (Compaction.effect_step hv hst).grows
  · refine ⟨hst ▸ h.1, hst ▸ h.2.1, ?_⟩
    rw [hst]
    exact h.querierStep hcts hq

theorem counted_new : new.Counted := by
  refine ⟨Compaction.valid_new, ?_, fun _ => SharedFrontierState.initial.frontier, ?_⟩
  · constructor <;> simp [new, Compaction.new]
  · constructor <;> simp [new, Querier.start, loadExistingCompactionFrontier]

/-- The records counted for a request: each once, and all of the WAL. -/
theorem Counted.nodup_counted (h : s.Counted) {request : Request}
    (hreq : request ∈ s.querier.requests) {hot : List WalLogRecord}
    (hdone : request.stage = .done frontier blocks hot) (scan : MetricScan) :
    (scan.counted s.store frontier blocks hot).Nodup ∧
      ∀ record ∈ scan.counted s.store frontier blocks hot, record ∈ s.store.wal := by
  obtain ⟨hv, hsea, history, hq⟩ := h
  have hcts := hq.requests request hreq
  rw [hdone] at hcts
  obtain ⟨⟨hnd, hco⟩, hhot, hwal⟩ := hcts
  have hpl : ∀ key ∈ blocks.filter scan.planned, Cold s.store frontier key :=
    fun key hkey => hco key (mem_filter.mp hkey).1
  have hrs : ((blocks.filter scan.planned).flatMap s.store.objects).Nodup := by
    refine nodup_flatMap.mpr ⟨fun key _ => hv.rowsNodup key, ?_⟩
    refine List.Pairwise.imp_of_mem ?_ (hnd.filter _)
    intro left right hlf hr hne record hrow hrow'
    exact hsea.disjoint left (hpl left hlf).published right
      (hpl right hr).published hne record hrow hrow'
  constructor
  · refine nodup_append.mpr ⟨hrs.filter _, hhot.filter _, ?_⟩
    rintro record hrow _ hrec rfl
    obtain ⟨key, hkey, hin⟩ := mem_flatMap.mp (mem_filter.mp hrow).1
    have hcd := (hpl key hkey).rows record hin
    have hlf := (mem_filter.mp hrec).2
    rw [hcd, Bool.not_true, Bool.and_false, Bool.false_and] at hlf
    exact Bool.false_ne_true hlf
  · intro record hrec
    rcases mem_append.mp hrec with hrow | hrec
    · obtain ⟨key, -, hin⟩ := mem_flatMap.mp (mem_filter.mp hrow).1
      exact (hv.rows key record hin).1
    · exact hwal record (mem_filter.mp hrec).1

/-- Records of the WAL with one position are one record. -/
theorem eq_of_position (h : s.store.Valid) {left right : WalLogRecord} {position : WalPosition}
    (hleft : left ∈ s.store.wal) (hr : right ∈ s.store.wal)
    (hpos : left.position = some position) (hpos' : right.position = some position) :
    left = right := by
  obtain ⟨before, after, hsp⟩ := append_of_mem hleft
  have hor := h.ordered
  rw [hsp] at hr hor
  rcases mem_append.mp hr with hbef | hre
  · have := hor.lt hbef mem_cons_self hpos' hpos
    exact absurd this (lt_irrefl _)
  · rcases mem_cons.mp hre with heq | ha
    · exact heq.symm
    · rw [append_cons] at hor
      have := hor.lt (mem_append_right _ (mem_singleton.mpr rfl)) ha hpos
        hpos'
      exact absurd this (lt_irrefl _)

/-- Where blocks are published with rows of no other block, and fetched when the request's
frontier calls their rows compacted, a record is counted at most once in a window. -/
theorem row_counted_once (h : Reached CountsOnce s) {request : Request}
    (hrequest : request ∈ s.querier.requests) {frontier : CompactionFrontier}
    {blocks : List BlockKey} {hot : List WalLogRecord}
    (hdone : request.stage = .done frontier blocks hot) (scan : MetricScan)
    (htimes : scan.evalTimes.Nodup) (time : Int) (position : WalPosition) :
    (scan.contributions s.store frontier blocks hot).countP
      (fun sample => sample.1 == time && sample.2.position == some position) ≤ 1 := by
  have hcounted : s.Counted :=
    h.invariant (fun _ hs => hs ▸ counted_new) fun _ _ _ hs hcounts hstep => hs.step hcounts hstep
  obtain ⟨hnodup, hwal⟩ := hcounted.nodup_counted hrequest hdone scan
  have hmem : ∀ sample ∈ scan.contributions s.store frontier blocks hot,
      sample.2 ∈ s.store.wal := by
    intro sample hsample
    obtain ⟨record, hrecord, hin⟩ := mem_flatMap.mp hsample
    obtain ⟨_, -, rfl⟩ := mem_map.mp hin
    exact hwal record hrecord
  refine countP_le_one (MetricScan.nodup_samples htimes hnodup) ?_
  intro left hleft right hright hp hp'
  rw [Bool.and_eq_true, beq_iff_eq, beq_iff_eq] at hp hp'
  refine Prod.ext (hp.1.trans hp'.1.symm) ?_
  exact eq_of_position hcounted.1 (hmem left hleft) (hmem right hright) hp.2 hp'.2

/-! ### One record, hot and in a block -/

section Sample

/-- `count_over_time` over a window of 50 at time 120. -/
def sampleScan : MetricScan where
  tenant := "t"
  planned _ := true
  rowMatches _ := true
  hotMatches _ := true
  offsetNs := 0
  rangeNs := 50
  evalTimes := [120]

/-- The block is published and in the index before the querier's frontier has moved: the
record is counted from the block and from the hot tail. -/
theorem published_row_counted_twice :
    ∃ s request frontier blocks hot, Reached (fun _ _ => True) s ∧
      request ∈ s.querier.requests ∧ request.stage = .done frontier blocks hot ∧
      (sampleScan.contributions s.store frontier blocks hot).countP
        (fun sample => sample.1 == 120 && sample.2.position == some ⟨0, 0⟩) = 2 := by
  have hreached : Reached (fun _ _ => True) (sampleRun (.compaction (.produce sampleRecord) ::
      .receive sampleRecord :: sampleCompaction ++ sampleFetchingRequest)) :=
    reached_sampleRun (meets_of_forall fun _ _ => trivial) (by decide +kernel)
  refine ⟨_, _, _, _, _, hreached, mem_of_getElem? (i := 0) rfl, rfl, ?_⟩
  decide +kernel

instance (store : Compaction) : (event : Compaction.Event) → Decidable (store.CountsOnce event)
  | .publishBlock id _ => inferInstanceAs (Decidable (store.PublishesNew id))
  | .produce _ | .start _ | .assign _ _ | .revoke _ _ | .poll _ _ | .writeBlock _ | .retry _
  | .commit _ | .advance _ | .putFrontier _ _ | .crash _ => .isTrue trivial

instance (s : LogPath) : (event : Event) → Decidable (s.CountsOnce event)
  | .compaction event => inferInstanceAs (Decidable (s.store.CountsOnce event))
  | .fetch n m => inferInstanceAs (Decidable (s.FetchesCold n m))
  | .startQuerier | .receive _ | .snapshotPrune | .readFrontier | .replaceFrontier _ | .prune _
  | .evict _ _ | .beginRequest _ _ | .capture _ | .forFrontier _ | .lookup _ | .listShards _
  | .finishLoad _ | .failLoad _ | .snapshotHot _ | .recheck _ => .isTrue trivial

/-- With the frontier refreshed before the shard is fetched the record is counted from the
block alone, though the hot tail still has it. -/
theorem refreshed_row_counted_once :
    ∃ frontier blocks, (sampleScan.contributions (sampleRun (.compaction (.produce sampleRecord) ::
      .receive sampleRecord :: sampleCompaction ++ [.readFrontier, .replaceFrontier 0] ++
        sampleFetchingRequest)).store frontier blocks [sampleRecord]).countP
          (fun sample => sample.1 == 120 && sample.2.position == some ⟨0, 0⟩) ≤ 1 := by
  have hreached : Reached CountsOnce (sampleRun (.compaction (.produce sampleRecord) ::
      .receive sampleRecord :: sampleCompaction ++ [.readFrontier, .replaceFrontier 0] ++
        sampleFetchingRequest)) :=
    reached_sampleRun (by decide +kernel) (by decide +kernel)
  exact ⟨_, _, row_counted_once hreached (mem_of_getElem? (i := 0) rfl) rfl sampleScan
    (nodup_singleton _) 120 ⟨0, 0⟩⟩

end Sample

end LogPath

end KrabkaO11y.Observability
