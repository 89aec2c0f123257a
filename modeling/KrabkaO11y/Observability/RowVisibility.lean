import KrabkaO11y.Observability.LogQuerier

/-!
A log row stays visible while it moves from the hot tail to a block.

Every version of the shared frontier has a baseline: the blocks published when it came.
A record that the frontier calls compacted, or that was pruned, is in a block of the
baseline, and what a request loads through the cache of the version has the baseline's
blocks. So a request that ends in the version it began with sees the record in one place
or the other (`received_record_stays_visible`). A record that the hot tail has not taken
in is not seen until the querier refreshes (`persisted_record_unseen`).
-/

namespace KrabkaO11y.Observability

open Concurrent.System List Option

variable {store store' : Compaction} {q q' : Querier} {baseline : List BlockKey}
  {record : WalLogRecord}

/-! ### Baselines -/

/-- The frontier's offset of the record's partition is at or past the record. -/
def CompactionFrontier.Reaches (frontier : CompactionFrontier) (record : WalLogRecord) : Prop :=
  record.position.any frontier.reaches = true

/-- One of some blocks holds the record. -/
def Compaction.Held (store : Compaction) (keys : List BlockKey) (record : WalLogRecord) : Prop :=
  ∃ key ∈ keys, record ∈ store.objects key ∧ key.Describes record

/-- The records that a frontier reaches are in blocks of the baseline. -/
structure Compaction.Based (store : Compaction) (baseline : List BlockKey)
    (frontier : CompactionFrontier) : Prop where
  covered : store.Covered frontier
  held : ∀ record ∈ store.wal, frontier.Reaches record → store.Held baseline record

theorem Compaction.Held.grow (h : store.Held baseline record) (hg : store.Grows store') :
    store'.Held baseline record := by
  obtain ⟨key, hkey, hrow, hd⟩ := h
  exact ⟨key, hkey, hg.rows key record hrow, hd⟩

variable {keys : List BlockKey}

theorem Compaction.Held.mono (h : store.Held baseline record)
    (hsub : ∀ key ∈ baseline, key ∈ keys) : store.Held keys record := by
  obtain ⟨key, hkey, hrow⟩ := h
  exact ⟨key, hsub key hkey, hrow⟩

variable {frontier : CompactionFrontier}

/-- A record that a covered frontier reaches was in the WAL before it grew. -/
theorem Compaction.Covered.mem_of_reaches (h : store.Covered frontier) (hg : store.Grows store')
    (hrec : record ∈ store'.wal) (reaches : frontier.Reaches record) : record ∈ store.wal := by
  obtain ⟨position, hpos, hrch⟩ := any_eq_true _ _ |>.mp reaches
  obtain ⟨offset, hoff, hle⟩ := CompactionFrontier.reaches_iff.mp hrch
  exact hg.mem_of_le (h.settled _ offset hoff).reached hrec hpos hle

theorem Compaction.Based.grow (h : store.Based baseline frontier) (hg : store.Grows store') :
    store'.Based baseline frontier := by
  refine ⟨h.covered.grow hg, fun record hrec hrch => ?_⟩
  have hold := h.covered.mem_of_reaches hg hrec hrch
  exact (h.held record hold hrch).grow hg

theorem Compaction.Based.mono (h : store.Based baseline frontier)
    (hsub : ∀ key ∈ baseline, key ∈ keys) :
    store.Based keys frontier :=
  ⟨h.covered, fun record hrec hrch => (h.held record hrec hrch).mono hsub⟩

/-- The published blocks are a baseline of every covered frontier. -/
theorem Compaction.Covered.based (h : store.Covered frontier) :
    store.Based store.published frontier := by
  refine ⟨h, fun record hrec hre => ?_⟩
  obtain ⟨position, hpos, hrch⟩ := any_eq_true _ _ |>.mp hre
  obtain ⟨offset, hoff, hle⟩ := CompactionFrontier.reaches_iff.mp hrch
  exact (h.settled _ offset hoff).stored hrec hpos hle

/-- Past `i64::MIN`, what a covered frontier calls compacted is what it reaches. -/
theorem Compaction.Covered.reaches (h : store.Covered frontier) (ha : i64Min < record.timestampNs)
    (compacted : frontier.isCompacted record = true) :
    frontier.Reaches record := by
  rw [← h.through] at ha
  exact any_eq_true _ _ |>.mpr ((CompactionFrontier.isCompacted_iff ha).mp compacted)

/-! ### Caches -/

/-- A tenant's blocks that overlap a range are all there. -/
def Indexes (baseline : List BlockKey) (tenant : String) (range : TimeRange)
    (blocks : List BlockKey) : Prop :=
  ∀ key ∈ baseline, key.tenant = tenant → key.timeRange.overlaps range = true → key ∈ blocks

/-- The blocks of one of the tenant's shards are all there. -/
def Shards (baseline : List BlockKey) (tenant : String) (range : TimeRange)
    (blocks : List BlockKey) : Prop :=
  ∀ key ∈ baseline, key.tenant = tenant → key.timeRange = range → key ∈ blocks

/-- What a cache of the current version holds has the baseline's blocks. -/
structure IndexCache.Fresh (baseline : List BlockKey) (cache : IndexCache) : Prop where
  entries : ∀ tenant range blocks, cache.entries (tenant, range) = some blocks →
    Indexes baseline tenant range blocks
  ranges : ∀ tenant ranges, cache.shardRanges tenant = some ranges →
    ∀ key ∈ baseline, key.tenant = tenant → key.timeRange ∈ ranges
  shards : ∀ tenant range blocks, cache.shardIndexes (tenant, range) = some blocks →
    Shards baseline tenant range blocks

theorem fresh_empty (version : Nat) : IndexCache.Fresh baseline { version } := by
  constructor <;> simp

variable {cache : IndexCache} {blocks : Option (List BlockKey)} {tenant : String}
  {range : TimeRange}

theorem IndexCache.Fresh.updateEntries (h : cache.Fresh baseline)
    (hbs : ∀ keys, blocks = some keys → Indexes baseline tenant range keys) :
    { cache with entries := Function.update cache.entries (tenant, range) blocks
      }.Fresh baseline :=
  { h with entries := fun tenant range =>
      forall_update (fun at_ => h.entries at_.1 at_.2) hbs (tenant, range) }

theorem IndexCache.Fresh.updateRanges (h : cache.Fresh baseline)
    {ranges : Option (List TimeRange)} (hrgs : ∀ found, ranges = some found →
      ∀ key ∈ baseline, key.tenant = tenant → key.timeRange ∈ found) :
    { cache with shardRanges := Function.update cache.shardRanges tenant ranges
      }.Fresh baseline :=
  { h with ranges := forall_update h.ranges hrgs }

theorem IndexCache.Fresh.updateShards (h : cache.Fresh baseline)
    (hbs : ∀ keys, blocks = some keys → Shards baseline tenant range keys) :
    { cache with shardIndexes := Function.update cache.shardIndexes (tenant, range) blocks
      }.Fresh baseline :=
  { h with shards := fun tenant range =>
      forall_update (fun at_ => h.shards at_.1 at_.2) hbs (tenant, range) }

theorem IndexCache.Fresh.drop (h : cache.Fresh baseline) (key : CacheKey) :
    (cache.drop key).Fresh baseline := by
  cases key with
  | entry tenant range => exact h.updateEntries nofun
  | ranges tenant => exact h.updateRanges nofun
  | shard tenant range => exact h.updateShards nofun

theorem IndexCache.version_drop (cache : IndexCache) (key : CacheKey) :
    (cache.drop key).version = cache.version := by
  cases key <;> rfl

variable {tenant : String} {range : TimeRange} {blocks : List BlockKey}
  {fetched : List (TimeRange × List BlockKey)}

theorem IndexCache.Fresh.cacheShards :
    ∀ {cache : IndexCache}, cache.Fresh baseline →
      (∀ shard ∈ fetched, Shards baseline tenant shard.1 shard.2) →
        (Querier.cacheShards tenant cache fetched).Fresh baseline := by
  induction fetched with
  | nil => exact fun h _ => h
  | cons shard rest ih =>
    intro cache h hfet
    refine ih (h.updateShards fun keys hks => ?_)
      fun other ho => hfet other (mem_cons_of_mem _ ho)
    exact some.inj hks ▸ hfet shard mem_cons_self

theorem version_cacheShards :
    ∀ {cache : IndexCache}, (Querier.cacheShards tenant cache fetched).version = cache.version := by
  induction fetched with
  | nil => exact rfl
  | cons shard rest ih => exact ih

/-! ### Requests -/

/-- The record is owed to a request: the hot tail had taken it in, or the shared frontier
reached it, before the request started. -/
def Ask.Owed (ask : Ask) (record : WalLogRecord) : Prop :=
  record ∈ ask.began.hotTail ∨ record ∈ ask.began.received ∨ ask.began.shared.Reaches record

/-- A request sees a record, hot or in a block. -/
def Seen (store : Compaction) (frontier : CompactionFrontier) (blocks : List BlockKey)
    (hot : List WalLogRecord) (record : WalLogRecord) : Prop :=
  (record ∈ hot ∧ frontier.isCompacted record = false) ∨
    ∃ key ∈ blocks, record ∈ store.objects key ∧
      key.timeRange.covers record.timestampNs = true

/-- The request asks for the record. -/
structure Ask.Wants (ask : Ask) (record : WalLogRecord) : Prop where
  tenant : record.tenant = ask.tenant
  covers : ask.range.covers record.timestampNs = true
  after : i64Min < record.timestampNs

/-- A captured frontier is the shared one as long as the version is. -/
structure Querier.Captured (q : Querier) (frontier : CompactionFrontier) (version : Nat) :
    Prop where
  le : version ≤ q.shared.version
  same : version = q.shared.version → frontier = q.shared.frontier

structure Querier.Opened (q : Querier) (capture : Capture) : Prop where
  captured : q.Captured capture.frontier capture.version
  cache : ∃ cache, q.caches[capture.cache]? = some cache ∧ cache.version = capture.version

/-- The shards of a load: each block wanted is in one that was cached, is missing or has
been fetched. -/
structure Fetching (baseline : List BlockKey) (ask : Ask) (hits : List BlockKey)
    (misses : List TimeRange) (fetched : List (TimeRange × List BlockKey)) : Prop where
  found : ∀ key ∈ baseline, key.tenant = ask.tenant →
    key.timeRange.overlaps ask.range = true →
      key ∈ hits ∨ key.timeRange ∈ misses ∨ ∃ shard ∈ fetched, key ∈ shard.2
  shards : ∀ shard ∈ fetched, Shards baseline ask.tenant shard.1 shard.2

/-- What a request relies on at each stage. -/
def Ask.Holds (store : Compaction) (q : Querier) (baseline : List BlockKey)
    (ask : Ask) : RequestStage → Prop
  | .starting | .failed => True
  | .captured frontier version => q.Captured frontier version
  | .loading capture | .listing capture => q.Opened capture
  | .fetching capture hits misses fetched => q.Opened capture ∧
      (capture.version = q.shared.version → Fetching baseline ask hits misses fetched)
  | .loaded capture blocks => q.Opened capture ∧
      (capture.version = q.shared.version → ∀ keys, blocks = some keys →
        Indexes baseline ask.tenant ask.range keys)
  | .snapped capture blocks hot => q.Opened capture ∧
      (capture.version = q.shared.version →
        (∀ keys, blocks = some keys → Indexes baseline ask.tenant ask.range keys) ∧
        ∀ record ∈ ask.began.received, ask.Wants record →
          record ∈ hot ∨ store.Held baseline record)
  | .done frontier blocks hot => ∀ record ∈ store.wal, ask.Owed record →
      ask.Wants record → Seen store frontier blocks hot record

structure Request.Valid (store : Compaction) (q : Querier) (baseline : List BlockKey)
    (request : Request) : Prop where
  hotTail : ∀ record ∈ request.began.hotTail, record ∈ request.began.received
  received : ∀ record ∈ request.began.received, record ∈ q.received
  based : store.Based baseline request.began.shared
  stage : request.toAsk.Holds store q baseline request.stage

/-- What every run keeps of the querier. -/
structure Querier.Valid (store : Compaction) (baseline : List BlockKey) (q : Querier) : Prop where
  published : ∀ key ∈ baseline, key ∈ store.published
  shared : store.Based baseline q.shared.frontier
  reads : ∀ frontier ∈ q.reads, store.Covered frontier
  prunes : ∀ frontier ∈ q.prunes, store.Based baseline frontier
  received : ∀ record ∈ q.received, record ∈ store.wal
  hotTail : ∀ record ∈ q.hotTail, record ∈ q.received
  hot : ∀ record ∈ q.received, i64Min < record.timestampNs →
    record ∈ q.hotTail ∨ store.Held baseline record
  caches : ∀ cache ∈ q.caches, cache.version ≤ q.shared.version ∧
    (cache.version = q.shared.version → cache.Fresh baseline)
  generation : ∀ version id, q.generation = some (version, id) →
    ∃ cache, q.caches[id]? = some cache ∧ cache.version = version
  requests : ∀ request ∈ q.requests, request.Valid store q baseline

/-! ### Steps of the compactors -/

variable {hot : List WalLogRecord}

theorem Seen.grow (h : Seen store frontier blocks hot record)
    (hg : store.Grows store') : Seen store' frontier blocks hot record := by
  refine h.imp id ?_
  rintro ⟨key, hkey, hrow, hcov⟩
  exact ⟨key, hkey, hg.rows key record hrow, hcov⟩

theorem Request.Valid.grow {request : Request} (h : request.Valid store q baseline)
    (hrcv : ∀ record ∈ q.received, record ∈ store.wal) (hg : store.Grows store') :
    request.Valid store' q baseline := by
  obtain ⟨hhot, hbe, hba, hstg⟩ := h
  refine ⟨hhot, hbe, hba.grow hg, ?_⟩
  cases hca : request.stage with
  | starting | failed => trivial
  | captured _ _ | loading _ | listing _ | fetching _ _ _ _ | loaded _ _ =>
    rw [hca] at hstg
    exact hstg
  | snapped capture blocks hot =>
    rw [hca] at hstg
    refine ⟨hstg.1, fun hver => ⟨(hstg.2 hver).1, fun record hrec hwt => ?_⟩⟩
    exact ((hstg.2 hver).2 record hrec hwt).imp id fun hh => hh.grow hg
  | done frontier blocks hot =>
    rw [hca] at hstg
    intro record hrec how hwt
    -- a record that the WAL has just taken in is owed to no request
    have hold : record ∈ store.wal := by
      rcases how with hmem | hmem | hrch
      · exact hrcv record (hbe record (hhot record hmem))
      · exact hrcv record (hbe record hmem)
      · exact hba.covered.mem_of_reaches hg hrec hrch
    exact (hstg record hold how hwt).grow hg

theorem Querier.Valid.grow (h : q.Valid store baseline) (hg : store.Grows store') :
    q.Valid store' baseline where
  published key hkey := hg.published key (h.published key hkey)
  shared := h.shared.grow hg
  reads frontier hfr := (h.reads frontier hfr).grow hg
  prunes frontier hfr := (h.prunes frontier hfr).grow hg
  received record hrec := hg.mem_wal (h.received record hrec)
  hotTail := h.hotTail
  hot record hrec ha := (h.hot record hrec ha).imp id fun hh => hh.grow hg
  caches := h.caches
  generation := h.generation
  requests request hreq := (h.requests request hreq).grow h.received hg

/-! ### Steps of the querier -/

/-- The caches stay where they are, each for its version. -/
def Querier.KeepsCaches (q q' : Querier) : Prop :=
  ∀ (id : Nat) (cache : IndexCache), q.caches[id]? = some cache →
    ∃ next, q'.caches[id]? = some next ∧ next.version = cache.version

theorem Querier.KeepsCaches.of_eq (h : q'.caches = q.caches) : q.KeepsCaches q' :=
  fun _ cache hc => ⟨cache, by rw [h, hc], rfl⟩

theorem Querier.KeepsCaches.generation {generation : Option (Nat × Nat)} (hk : q.KeepsCaches q')
    (h : ∀ version id, generation = some (version, id) →
      ∃ cache, q.caches[id]? = some cache ∧ cache.version = version) :
    ∀ version id, generation = some (version, id) →
      ∃ cache, q'.caches[id]? = some cache ∧ cache.version = version := by
  intro version id hgen
  obtain ⟨found, hfd, hfo⟩ := h version id hgen
  obtain ⟨kept, hke, hsm⟩ := hk id found hfd
  exact ⟨kept, hke, hsm.trans hfo⟩

/-- New maps come after those there are. -/
theorem Querier.keepsCaches_concat (cache : IndexCache) :
    q.KeepsCaches { q with caches := q.caches ++ [cache] } := fun _ found hfd =>
  ⟨found, getElem?_append_left (List.getElem?_eq_some_iff.mp hfd).1 ▸ hfd, rfl⟩

theorem Querier.Captured.frame {version : Nat} (h : q.Captured frontier version)
    (hshared : q'.shared = q.shared) :
    q'.Captured frontier version :=
  ⟨by rw [hshared]; exact h.le, by rw [hshared]; exact h.same⟩

theorem Querier.Opened.frame {capture : Capture} (h : q.Opened capture)
    (hshared : q'.shared = q.shared) (caches : q.KeepsCaches q') : q'.Opened capture := by
  obtain ⟨cache, hc, hver⟩ := h.cache
  obtain ⟨next, hn, hsm⟩ := caches _ cache hc
  exact ⟨h.captured.frame hshared, next, hn, hsm.trans hver⟩

variable {ask : Ask} {stage : RequestStage}

theorem Ask.Holds.frame (h : ask.Holds store q baseline stage) (hshared : q'.shared = q.shared)
    (caches : q.KeepsCaches q') : ask.Holds store q' baseline stage := by
  cases stage with
  | starting | failed => trivial
  | captured frontier version => exact Querier.Captured.frame h hshared
  | loading capture | listing capture => exact Querier.Opened.frame h hshared caches
  | fetching _ _ _ _ | loaded _ _ | snapped _ _ _ =>
    exact ⟨h.1.frame hshared caches, by rw [hshared]; exact h.2⟩
  | done frontier blocks hot => exact h

theorem Request.Valid.frame {request : Request} (h : request.Valid store q baseline)
    (hshared : q'.shared = q.shared) (caches : q.KeepsCaches q')
    (hrcv : ∀ record ∈ q.received, record ∈ q'.received) :
    request.Valid store q' baseline :=
  ⟨h.hotTail, fun record hrec => hrcv record (h.received record hrec), h.based,
    h.stage.frame hshared caches⟩

variable {n : Nat}

/-- A step of a request that leaves the frontier and the hot tail. -/
theorem Querier.Valid.request (h : q.Valid store baseline) {request : Request}
    (hreq : q.requests[n]? = some request) {caches : List IndexCache}
    {generation : Option (Nat × Nat)} (hk : q.KeepsCaches { q with caches })
    (hcs : ∀ cache ∈ caches, cache.version ≤ q.shared.version ∧
      (cache.version = q.shared.version → cache.Fresh baseline))
    (hgen : ∀ version id, generation = some (version, id) →
      ∃ cache, caches[id]? = some cache ∧ cache.version = version)
    (hstg : request.toAsk.Holds store { q with caches } baseline stage) :
    { q.setStage n request stage with caches, generation }.Valid store baseline := by
  refine { h with caches := hcs, generation := hgen, requests := fun other ho => ?_ }
  rcases mem_or_eq_of_mem_set ho with hmem | rfl
  · exact (h.requests other hmem).frame rfl hk fun _ hrec => hrec
  · have hv := h.requests request (mem_of_getElem? hreq)
    exact ⟨hv.hotTail, hv.received, hv.based, hstg.frame rfl (.of_eq rfl)⟩

/-- A step of a request that leaves the caches too. -/
theorem Querier.Valid.setStage (h : q.Valid store baseline) {request : Request}
    (hreq : q.requests[n]? = some request) (hstg : request.toAsk.Holds store q baseline stage) :
    (q.setStage n request stage).Valid store baseline :=
  h.request hreq (.of_eq rfl) h.caches h.generation hstg

/-- The cache that a request works with, in the version it captured. -/
theorem Querier.Valid.fresh (h : q.Valid store baseline) {capture : Capture}
    (opened : q.Opened capture) (hc : q.cacheOf capture = some cache) :
    cache.version = capture.version ∧
      (capture.version = q.shared.version → cache.Fresh baseline) := by
  obtain ⟨other, ho, hver⟩ := opened.cache
  obtain rfl : cache = other := some.inj (hc.symm.trans ho)
  refine ⟨hver, fun hsm => ?_⟩
  exact (h.caches cache (mem_of_getElem? hc)).2 (hver.trans hsm)

theorem Querier.keepsCaches_setCache {id : Nat} (next : IndexCache)
    (hc : q.caches[id]? = some cache) (hver : next.version = cache.version) :
    q.KeepsCaches (q.setCache id next) := by
  intro other found hfd
  simp only [Querier.setCache, getElem?_set]
  split
  · rename_i heq
    subst heq
    obtain rfl : found = cache := some.inj (hfd.symm.trans hc)
    rw [if_pos (List.getElem?_eq_some_iff.mp hc).1]
    exact ⟨next, rfl, hver⟩
  · exact ⟨found, hfd, rfl⟩

section

variable (h : q.Valid store baseline)
include h

/-- A cache is replaced by one of its version that is as fresh. -/
theorem Querier.Valid.setCache {id : Nat} (next : IndexCache)
    (hc : q.caches[id]? = some cache) (hver : next.version = cache.version)
    (fresh : cache.version = q.shared.version → cache.Fresh baseline → next.Fresh baseline) :
    (q.setCache id next).Valid store baseline ∧ q.KeepsCaches (q.setCache id next) := by
  have hk := Querier.keepsCaches_setCache next hc hver
  refine ⟨{ h with caches := ?_, generation := hk.generation h.generation, requests := ?_ }, hk⟩
  · intro other ho
    rcases mem_or_eq_of_mem_set ho with hmem | rfl
    · exact h.caches other hmem
    · have hold := h.caches cache (mem_of_getElem? hc)
      rw [hver]
      exact ⟨hold.1, fun hsm => fresh hsm (hold.2 hsm)⟩
  · exact fun request hreq =>
      (h.requests request hreq).frame rfl hk fun _ hrec => hrec

/-! #### Hot tail and refresher -/

theorem Querier.Valid.receive
    (hs : q.receive store.wal record = some q') : q'.Valid store baseline := by
  rw [Querier.receive] at hs
  split at hs <;> cases hs
  rename_i hmem
  have hmo : ∀ other ∈ q.received, other ∈ q.received ++ [record] :=
    fun _ ho => mem_append_left _ ho
  refine { h with received := ?_, hotTail := ?_, hot := ?_, requests := ?_ }
  · intro other ho
    rcases mem_append.mp ho with ho | ho
    · exact h.received other ho
    · exact mem_singleton.mp ho ▸ hmem.1
  · exact fun other ho => mem_append.mpr ((mem_append.mp ho).imp_left (h.hotTail other))
  · intro other ho ha
    rcases mem_append.mp ho with ho | ho
    · exact (h.hot other ho ha).imp_left (mem_append_left _)
    · exact .inl (mem_append_right _ ho)
  · exact fun request hreq => (h.requests request hreq).frame rfl (.of_eq rfl) hmo

/-- Only the frontiers on their way change. -/
theorem Querier.Valid.frontiers
    {reads prunes : List CompactionFrontier}
    (hreads : ∀ frontier ∈ reads, store.Covered frontier)
    (hprunes : ∀ frontier ∈ prunes, store.Based baseline frontier) :
    { q with reads, prunes }.Valid store baseline :=
  { h with
    reads := hreads
    prunes := hprunes
    requests := fun request hreq =>
      (h.requests request hreq).frame rfl (.of_eq rfl) fun _ hrec => hrec }

/-- A prune takes out what a block of the baseline holds. -/
theorem Querier.Valid.prune (hs : q.prune n = some q') :
    q'.Valid store baseline := by
  obtain ⟨frontier, hfr, rfl⟩ := map_eq_some_iff.mp hs
  have hba := h.prunes frontier (mem_of_getElem? hfr)
  refine { h with prunes := ?_, hotTail := ?_, hot := ?_, requests := ?_ }
  · exact fun other ho => h.prunes other (mem_of_mem_eraseIdx ho)
  · exact fun other ho => h.hotTail other (mem_filter.mp ho).1
  · intro other ho ha
    rcases h.hot other ho ha with hhot | hh
    · cases hcd : frontier.isCompacted other with
      | true =>
        exact .inr (hba.held other (h.received other ho)
          (hba.covered.reaches ha hcd))
      | false => exact .inl (mem_filter.mpr ⟨hhot, by rw [hcd]; rfl⟩)
    · exact .inr hh
  · exact fun request hreq =>
      (h.requests request hreq).frame rfl (.of_eq rfl) fun _ hrec => hrec

end

/-- Nothing that a request did in an earlier version counts in a later one. -/
theorem Ask.Holds.later (h : ask.Holds store q baseline stage) (hcaches : q'.caches = q.caches)
    (hver : q.shared.version < q'.shared.version) (keys : List BlockKey) :
    ask.Holds store q' keys stage := by
  have hcap : ∀ {frontier version}, q.Captured frontier version →
      q'.Captured frontier version ∧ version ≠ q'.shared.version := by
    intro frontier version hcap
    have hlt := hcap.le.trans_lt hver
    exact ⟨⟨hlt.le, fun heq => absurd heq hlt.ne⟩, hlt.ne⟩
  have hop : ∀ {capture}, q.Opened capture →
      q'.Opened capture ∧ capture.version ≠ q'.shared.version := by
    intro capture hop
    obtain ⟨hcap, hne⟩ := hcap hop.captured
    exact ⟨⟨hcap, by rw [hcaches]; exact hop.cache⟩, hne⟩
  cases stage with
  | starting | failed => trivial
  | captured frontier version => exact (hcap h).1
  | loading capture | listing capture => exact (hop h).1
  | fetching _ _ _ _ | loaded _ _ | snapped _ _ _ =>
    exact ⟨(hop h.1).1, fun heq => absurd heq (hop h.1).2⟩
  | done frontier blocks hot => exact h

/-- A new version of the frontier has the published blocks as its baseline. -/
theorem Querier.Valid.replaceFrontier (h : q.Valid store baseline)
    (hs : q.replaceFrontier n = some q') :
    ∃ keys, q'.Valid store keys := by
  obtain ⟨frontier, hfr, rfl⟩ := map_eq_some_iff.mp hs
  have hcvd := h.reads frontier (mem_of_getElem? hfr)
  have hrd : ∀ other ∈ q.reads.eraseIdx n, store.Covered other :=
    fun other ho => h.reads other (mem_of_mem_eraseIdx ho)
  rcases q.shared.version_replace frontier with hsm | hl
  · refine ⟨baseline, ?_⟩
    rw [hsm]
    refine h.frontiers hrd fun other ho => ?_
    rcases mem_append.mp ho with ho | ho
    · exact h.prunes other ho
    · have hsh := q.shared.frontier_replace frontier
      rw [hsm] at hsh
      rw [mem_singleton.mp ho, ← hsh]
      exact h.shared
  · refine ⟨store.published, ?_⟩
    refine { h with published := fun _ hkey => hkey, shared := ?_, reads := hrd, prunes := ?_,
                    hot := ?_, caches := ?_, requests := ?_ }
    · rw [q.shared.frontier_replace]
      exact hcvd.based
    · intro other ho
      rcases mem_append.mp ho with ho | ho
      · exact (h.prunes other ho).mono h.published
      · exact mem_singleton.mp ho ▸ hcvd.based
    · exact fun record hrec ha =>
        (h.hot record hrec ha).imp id fun hh => hh.mono h.published
    · intro cache hc
      have hlt := (h.caches cache hc).1.trans_lt hl
      exact ⟨hlt.le, fun heq => absurd heq hlt.ne⟩
    · intro request hreq
      have hv := h.requests request hreq
      refine ⟨hv.hotTail, hv.received, hv.based.mono h.published, hv.stage.later ?_ ?_ _⟩
      · rfl
      · exact hl

/-! #### The index of a request -/

theorem mem_shardRanges {key : BlockKey} (hkey : key ∈ store.published) (hten : key.tenant = tenant)
    : key.timeRange ∈ store.shardRanges tenant := by
  refine mem_dedup.mpr (mem_map_of_mem (mem_filter.mpr ⟨hkey, ?_⟩))
  exact beq_iff_eq.mpr hten

theorem mem_shard {key : BlockKey} :
    key ∈ store.shard tenant range ↔
      key ∈ store.published ∧ key.tenant = tenant ∧ key.timeRange = range := by
  simp [Compaction.shard, mem_filter]

/-- The shards that a plan finds in the cache and those it misses. -/
theorem fetching_planShards (fresh : cache.Fresh baseline) {ranges : List TimeRange}
    (hrgs : ∀ key ∈ baseline, key.tenant = ask.tenant → key.timeRange ∈ ranges) :
    Fetching baseline ask
      ((ranges.filter fun range => range.overlaps ask.range).flatMap fun range =>
        (cache.shardIndexes (ask.tenant, range)).getD [])
      ((ranges.filter fun range => range.overlaps ask.range).filter fun range =>
        (cache.shardIndexes (ask.tenant, range)).isNone) [] := by
  refine ⟨fun key hkey hten hov => ?_, nofun⟩
  have hwa : key.timeRange ∈ ranges.filter fun range => range.overlaps ask.range :=
    mem_filter.mpr ⟨hrgs key hkey hten, hov⟩
  cases hsd : cache.shardIndexes (ask.tenant, key.timeRange) with
  | none =>
    exact .inr (.inl (mem_filter.mpr ⟨hwa, by rw [hsd]; rfl⟩))
  | some blocks =>
    refine .inl (mem_flatMap.mpr ⟨key.timeRange, hwa, ?_⟩)
    rw [hsd, getD_some]
    exact fresh.shards _ _ blocks hsd key hkey hten rfl

variable {hits : List BlockKey}

/-- A shard that arrives has the baseline's blocks. -/
theorem Fetching.fetch {misses : List TimeRange}
    (h : Fetching baseline ask hits misses fetched) (hpub : ∀ key ∈ baseline, key ∈ store.published)
    {m : Nat} (hr : misses[m]? = some range) :
    Fetching baseline ask hits (misses.eraseIdx m)
      (fetched ++ [(range, store.shard ask.tenant range)]) := by
  have hsd : Shards baseline ask.tenant range (store.shard ask.tenant range) :=
    fun key hkey hten ht => mem_shard.mpr ⟨hpub key hkey, hten, ht⟩
  constructor
  · intro key hkey hten hov
    rcases h.found key hkey hten hov with hhit | hmi | ⟨shard, hmem, hin⟩
    · exact .inl hhit
    · obtain ⟨hlt, hget⟩ := List.getElem?_eq_some_iff.mp hr
      have hmem := (getElem_cons_eraseIdx_perm hlt).mem_iff.mpr hmi
      rcases mem_cons.mp hmem with heq | hre
      · refine .inr (.inr ⟨_, mem_append_right _ (mem_singleton.mpr rfl), ?_⟩)
        exact hsd key hkey hten (heq.trans hget)
      · exact .inr (.inl hre)
    · exact .inr (.inr ⟨shard, mem_append_left _ hmem, hin⟩)
  · intro shard hmem
    rcases mem_append.mp hmem with hmem | hmem
    · exact h.shards shard hmem
    · exact mem_singleton.mp hmem ▸ hsd

/-- With no shard missing the index is there. -/
theorem Fetching.indexes (h : Fetching baseline ask hits [] fetched) :
    Indexes baseline ask.tenant ask.range (hits ++ fetched.flatMap Prod.snd).dedup := by
  intro key hkey hten hov
  rw [mem_dedup, mem_append]
  rcases h.found key hkey hten hov with hhit | hmi | ⟨shard, hmem, hin⟩
  · exact .inl hhit
  · cases hmi
  · exact .inr (mem_flatMap.mpr ⟨shard, hmem, hin⟩)

/-! #### Requests -/

section Requests

variable {n : Nat} {request : Request}

theorem Querier.Valid.stageOf (h : q.Valid store baseline)
    (hreq : q.requests[n]? = some request) {stage : RequestStage}
    (hstg : request.stage = stage) : request.toAsk.Holds store q baseline stage :=
  hstg ▸ (h.requests request (mem_of_getElem? hreq)).stage

theorem Querier.Valid.beginRequest (h : q.Valid store baseline)
    (stored : Option CompactionFrontier) (tenant : String) (range : TimeRange) :
    (q.beginRequest stored tenant range).Valid store baseline := by
  refine { h with requests := fun other ho => ?_ }
  rcases mem_append.mp ho with ho | ho
  · exact (h.requests other ho).frame rfl (.of_eq rfl) fun _ hrec => hrec
  · obtain rfl := mem_singleton.mp ho
    exact ⟨h.hotTail, fun _ hrec => hrec, h.shared, trivial⟩

/-- A block of the baseline that holds a wanted record is in the index that was loaded. -/
theorem seen_of_held {ask : Ask} {blocks : List BlockKey} {frontier : CompactionFrontier}
    (hblocks : Indexes baseline ask.tenant ask.range blocks)
    (wants : ask.Wants record) (hh : store.Held baseline record) :
    Seen store frontier blocks hot record := by
  obtain ⟨key, hkey, hrow, hd⟩ := hh
  have hke := TimeRange.covers_iff.mp hd.covers
  have has := TimeRange.covers_iff.mp wants.covers
  refine .inr ⟨key, hblocks key hkey (hd.tenant.symm.trans wants.tenant) ?_, hrow,
    hd.covers⟩
  rw [TimeRange.overlaps, Bool.and_eq_true, decide_eq_true_eq, decide_eq_true_eq]
  exact ⟨hke.1.trans has.2, has.1.trans hke.2⟩

variable (h : q.Valid store baseline) (hreq : q.requests[n]? = some request)
include h hreq

theorem Querier.Valid.capture (hs : q.capture n request = some q') : q'.Valid store baseline := by
  rw [Querier.capture] at hs
  split at hs <;> cases hs
  exact h.setStage hreq ⟨le_rfl, fun _ => rfl⟩

theorem Querier.Valid.forFrontier (hs : q.forFrontier n request = some q') :
    q'.Valid store baseline := by
  rw [Querier.forFrontier] at hs
  split at hs
  · rename_i frontier version hstg
    have hcap : q.Captured frontier version := h.stageOf hreq hstg
    split at hs
    · rename_i current hcur
      cases hs
      obtain ⟨hso, hver⟩ := filter_eq_some_iff.mp hcur
      obtain ⟨cache, hc, hsm⟩ := h.generation current.1 current.2 hso
      exact h.setStage hreq ⟨hcap, cache, hc, hsm.trans (beq_iff_eq.mp hver)⟩
    · -- new maps, empty and so fresh
      cases hs
      have hnew : (q.caches ++ [({ version } : IndexCache)])[q.caches.length]? =
          some { version } := getElem?_concat_length
      have hk := q.keepsCaches_concat { version }
      refine h.request hreq hk ?_ ?_ ?_
      · intro cache hc
        rcases mem_append.mp hc with hc | hc
        · exact h.caches cache hc
        · rw [mem_singleton.mp hc]
          exact ⟨hcap.le, fun _ => fresh_empty version⟩
      · intro other id hgen
        split at hgen
        · cases hgen
          exact ⟨_, hnew, rfl⟩
        · exact hk.generation h.generation other id hgen
      · exact ⟨hcap.frame rfl, _, hnew, rfl⟩
  · cases hs

theorem Querier.Valid.lookup (hs : q.lookup n request = some q') : q'.Valid store baseline := by
  rw [Querier.lookup] at hs
  split at hs
  · rename_i capture hstg
    have hop : q.Opened capture := h.stageOf hreq hstg
    obtain ⟨cache, hc, rfl⟩ := map_eq_some_iff.mp hs
    split
    · rename_i blocks hbs
      refine h.setStage hreq ⟨hop, fun hver keys hks => ?_⟩
      cases hks
      exact ((h.fresh hop hc).2 hver).entries _ _ blocks hbs
    · exact h.setStage hreq hop
  · cases hs

theorem Querier.Valid.listShards (hs : q.listShards store n request = some q') :
    q'.Valid store baseline := by
  rw [Querier.listShards] at hs
  split at hs
  · rename_i capture hstg
    have hop : q.Opened capture := h.stageOf hreq hstg
    obtain ⟨cache, hc, rfl⟩ := map_eq_some_iff.mp hs
    obtain ⟨hver, hfs⟩ := h.fresh hop hc
    split
    · rename_i ranges hrgs
      exact h.setStage hreq ⟨hop, fun hsm =>
        fetching_planShards (hfs hsm) ((hfs hsm).ranges _ ranges hrgs)⟩
    · have hrgs : ∀ key ∈ baseline, key.tenant = request.tenant →
          key.timeRange ∈ store.shardRanges request.tenant :=
        fun key hkey hten => mem_shardRanges (h.published key hkey) hten
      obtain ⟨hv, hk⟩ := h.setCache { cache with
        shardRanges := Function.update cache.shardRanges request.tenant
          (some (store.shardRanges request.tenant)) } hc rfl
        fun _ hca => hca.updateRanges fun _ hks => some.inj hks ▸ hrgs
      exact hv.setStage hreq ⟨hop.frame rfl hk, fun hsm =>
        fetching_planShards (hfs hsm) hrgs⟩
  · cases hs

theorem Querier.Valid.fetch {m : Nat} (hs : q.fetch store n m request = some q') :
    q'.Valid store baseline := by
  rw [Querier.fetch] at hs
  split at hs
  · rename_i capture hits misses fetched hstg
    obtain ⟨hop, hfe⟩ := h.stageOf hreq hstg
    obtain ⟨range, hr, rfl⟩ := map_eq_some_iff.mp hs
    exact h.setStage hreq ⟨hop, fun hsm =>
      (hfe hsm).fetch h.published hr⟩
  · cases hs

theorem Querier.Valid.finishLoad (hs : q.finishLoad n request = some q') :
    q'.Valid store baseline := by
  rw [Querier.finishLoad] at hs
  split at hs
  · rename_i capture hits fetched hstg
    obtain ⟨hop, hfe⟩ := h.stageOf hreq hstg
    obtain ⟨cache, hc, rfl⟩ := map_eq_some_iff.mp hs
    have hver := (h.fresh hop hc).1
    obtain ⟨hv, hk⟩ := h.setCache { Querier.cacheShards request.tenant cache fetched with
        entries := Function.update (Querier.cacheShards request.tenant cache fetched).entries
          (request.tenant, request.range) (some (hits ++ fetched.flatMap Prod.snd).dedup) }
      hc version_cacheShards fun hsm hca => by
        have hdo := hfe (hver.symm.trans hsm)
        exact (hca.cacheShards hdo.shards).updateEntries fun _ hks =>
          some.inj hks ▸ hdo.indexes
    refine hv.setStage hreq ⟨hop.frame rfl hk, fun hsm keys hks => ?_⟩
    cases hks
    exact (hfe hsm).indexes
  · cases hs

theorem Querier.Valid.failLoad (hs : q.failLoad n request = some q') : q'.Valid store baseline := by
  have hfailed {capture : Capture} (hop : q.Opened capture) :
      (q.setStage n request (.loaded capture none)).Valid store baseline :=
    h.setStage hreq ⟨hop, nofun⟩
  rw [Querier.failLoad] at hs
  split at hs <;> cases hs <;> rename_i hstg
  · exact hfailed (h.stageOf hreq hstg)
  · exact hfailed (h.stageOf hreq hstg)
  · exact hfailed (h.stageOf hreq hstg).1

theorem Querier.Valid.snapshotHot (hs : q.snapshotHot n request = some q') :
    q'.Valid store baseline := by
  rw [Querier.snapshotHot] at hs
  split at hs <;> cases hs
  rename_i capture blocks hstg
  obtain ⟨hop, hbs⟩ := h.stageOf hreq hstg
  have hbe := (h.requests request (mem_of_getElem? hreq)).received
  refine h.setStage hreq ⟨hop, fun hsm => ⟨hbs hsm, fun record hrec hwt => ?_⟩⟩
  exact (h.hot record (hbe record hrec) hwt.after).imp
    (fun hhot => mem_filter.mpr ⟨hhot, hwt.covers⟩) id

/-- A request that ends in the version it captured has seen what it is owed. -/
theorem Querier.Valid.recheck (hs : q.recheck n request = some q') : q'.Valid store baseline := by
  rw [Querier.recheck] at hs
  split at hs <;> cases hs
  rename_i capture blocks hot hstg
  obtain ⟨hop, hsn⟩ := h.stageOf hreq hstg
  have hv := h.requests request (mem_of_getElem? hreq)
  refine h.setStage hreq ?_
  split
  · trivial
  · rename_i hver
    have hsm : capture.version = q.shared.version := (not_not.mp hver).symm
    obtain ⟨hbs, hhot⟩ := hsn hsm
    split
    · rename_i blocks
      intro record hrec how hwt
      have hseen : store.Held _ record → Seen store capture.frontier blocks hot record :=
        seen_of_held (hbs blocks rfl) hwt
      have hre : record ∈ request.began.received ∨ request.began.shared.Reaches record :=
        how.elim (fun hmem => .inl (hv.hotTail record hmem)) id
      rcases hre with hrcv | hrch
      · rcases hhot record hrcv hwt with hin | hh
        · cases hcd : capture.frontier.isCompacted record with
          | false => exact .inl ⟨hin, hcd⟩
          | true =>
            -- compacted by the shared frontier, so in a block of the baseline
            rw [hop.captured.same hsm] at hcd
            exact hseen (h.shared.held record hrec (h.shared.covered.reaches hwt.after hcd))
        · exact hseen hh
      · exact hseen (hv.based.held record hrec hrch)
    · trivial

end Requests

/-! ### Runs -/

namespace LogPath

variable {s s' : LogPath}

/-- Every version has a baseline. -/
def Valid (s : LogPath) : Prop :=
  s.store.Valid ∧ ∃ baseline, s.querier.Valid s.store baseline

/-- A querier that starts has the published blocks as its baseline. -/
theorem valid_start (h : store.Valid) :
    (Querier.start store.frontier).Valid store store.published := by
  have hba := (Compaction.covered_loadExisting h).based
  constructor
  case published => exact fun _ hkey => hkey
  case shared => exact hba
  all_goals simp [Querier.start]

variable {event : Event}

theorem Valid.querierStep (h : s.Valid) (hs : querierStep s.store s.querier event = some q') :
    ∃ baseline, q'.Valid s.store baseline := by
  obtain ⟨hst, baseline, hq⟩ := h
  cases event with
  | compaction event => cases hs
  | startQuerier =>
    cases hs
    exact ⟨_, valid_start hst⟩
  | receive record => exact ⟨baseline, hq.receive hs⟩
  | snapshotPrune =>
    cases hs
    refine ⟨baseline, hq.frontiers hq.reads fun frontier hfr => ?_⟩
    rcases mem_append.mp hfr with hmem | hmem
    · exact hq.prunes frontier hmem
    · exact mem_singleton.mp hmem ▸ hq.shared
  | readFrontier =>
    obtain ⟨frontier, hfr, rfl⟩ := map_eq_some_iff.mp hs
    refine ⟨baseline, hq.frontiers (fun other ho => ?_) hq.prunes⟩
    rcases mem_append.mp ho with hmem | hmem
    · exact hq.reads other hmem
    · exact mem_singleton.mp hmem ▸ hst.frontier frontier hfr
  | replaceFrontier n => exact hq.replaceFrontier hs
  | prune n => exact ⟨baseline, hq.prune hs⟩
  | evict id key =>
    obtain ⟨cache, hc, rfl⟩ := map_eq_some_iff.mp hs
    exact ⟨baseline, (hq.setCache _ hc (cache.version_drop key)
      fun _ hfs => hfs.drop key).1⟩
  | beginRequest tenant range =>
    cases hs
    exact ⟨baseline, hq.beginRequest _ tenant range⟩
  | capture n => exact ⟨baseline, of_part hq.capture hs⟩
  | forFrontier n => exact ⟨baseline, of_part hq.forFrontier hs⟩
  | lookup n => exact ⟨baseline, of_part hq.lookup hs⟩
  | listShards n => exact ⟨baseline, of_part hq.listShards hs⟩
  | fetch n m => exact ⟨baseline, of_part (hq.fetch · ·) hs⟩
  | finishLoad n => exact ⟨baseline, of_part hq.finishLoad hs⟩
  | failLoad n => exact ⟨baseline, of_part hq.failLoad hs⟩
  | snapshotHot n => exact ⟨baseline, of_part hq.snapshotHot hs⟩
  | recheck n => exact ⟨baseline, of_part hq.recheck hs⟩

/-- A step is one of the compactors or one of the querier. -/
theorem step_cases (hs : s.step event = some s') :
    (∃ inner, event = .compaction inner ∧ s.store.step inner = some s'.store ∧
      s'.querier = s.querier) ∨
    (querierStep s.store s.querier event = some s'.querier ∧ s'.store = s.store) := by
  cases event with
  | compaction inner =>
    obtain ⟨store, hst, rfl⟩ := map_eq_some_iff.mp hs
    exact .inl ⟨inner, rfl, hst, rfl⟩
  | _ =>
    simp only [LogPath.step] at hs
    obtain ⟨querier, hq, rfl⟩ := map_eq_some_iff.mp hs
    exact .inr ⟨hq, rfl⟩

theorem Valid.step (h : s.Valid) (hs : s.step event = some s') : s'.Valid := by
  rcases step_cases hs with ⟨inner, -, hst, hqu⟩ | ⟨hqu, hst⟩
  · obtain ⟨hv, baseline, hq⟩ := h
    refine ⟨hv.step hst, baseline, ?_⟩
    rw [hqu]
    exact hq.grow (Compaction.effect_step hv hst).grows
  · refine ⟨hst ▸ h.1, ?_⟩
    rw [hst]
    exact h.querierStep hqu

theorem valid_new : new.Valid :=
  ⟨Compaction.valid_new, _, valid_start Compaction.valid_new⟩

/-- A request that is done sees every record it is owed: one that the hot tail had taken
in, or that the querier's own frontier reached, before it started. -/
theorem received_record_stays_visible (h : Reached (fun _ _ => True) s) {request : Request}
    (hrequest : request ∈ s.querier.requests) {frontier : CompactionFrontier}
    {blocks : List BlockKey} {hot : List WalLogRecord}
    (hdone : request.stage = .done frontier blocks hot) :
    ∀ record ∈ s.store.wal, request.toAsk.Owed record → request.toAsk.Wants record →
      Seen s.store frontier blocks hot record := by
  have hvalid : s.Valid :=
    h.invariant (fun _ hs => hs ▸ valid_new) fun _ _ _ hs _ hstep => hs.step hstep
  obtain ⟨-, baseline, hquerier⟩ := hvalid
  have hstage := (hquerier.requests request hrequest).stage
  rw [hdone] at hstage
  exact hstage

/-! ### One record, one process, two requests -/

section Sample

/-- One record of a tenant's, at time 100 on partition 0. -/
def sampleRecord : WalLogRecord :=
  ⟨"t", [("app", "api")], 100, "line", [], some ⟨0, 0⟩⟩

/-- One process compacts the record and puts the frontier. -/
def sampleCompaction : List Event :=
  [.compaction (.start 0), .compaction (.assign 0 0), .compaction (.poll 0 [sampleRecord]),
    .compaction (.writeBlock 0), .compaction (.publishBlock 0 true), .compaction (.commit 0),
    .compaction (.advance 0), .compaction (.putFrontier 0 .ok)]

/-- A request that finds no shard of its tenant. -/
def sampleEmptyRequest : List Event :=
  [.beginRequest "t" ⟨0, 200⟩, .capture 0, .forFrontier 0, .lookup 0, .listShards 0,
    .finishLoad 0, .snapshotHot 0, .recheck 0]

/-- A request whose index is cached. -/
def sampleCachedRequest (n : Nat) : List Event :=
  [.beginRequest "t" ⟨0, 200⟩, .capture n, .forFrontier n, .lookup n, .snapshotHot n, .recheck n]

/-- A request that fetches one shard. -/
def sampleFetchingRequest : List Event :=
  [.beginRequest "t" ⟨0, 200⟩, .capture 0, .forFrontier 0, .lookup 0, .listShards 0, .fetch 0 0,
    .finishLoad 0, .snapshotHot 0, .recheck 0]

def sampleRun (events : List Event) : LogPath :=
  (run step new events).getD new

theorem reached_sampleRun {condition : LogPath → Event → Prop} {events : List Event}
    (meets : Meets step condition new events) (h : (run step new events).isSome = true) :
    Reached condition (sampleRun events) :=
  Reachable.getD (.initial rfl) meets h

/-- The index that a request cached before the record was compacted hides it from the next
one, though the frontier object reaches it: the hot tail has not taken it in and the
querier has not refreshed. -/
theorem persisted_record_unseen :
    ∃ s request persisted frontier blocks hot, Reached (fun _ _ => True) s ∧
      request ∈ s.querier.requests ∧ request.stage = .done frontier blocks hot ∧
      sampleRecord ∈ s.store.wal ∧ request.began.persisted = some persisted ∧
      persisted.Reaches sampleRecord ∧ request.toAsk.Wants sampleRecord ∧
      ¬ Seen s.store frontier blocks hot sampleRecord := by
  have hreached : Reached (fun _ _ => True) (sampleRun (.compaction (.produce sampleRecord) ::
      sampleEmptyRequest ++ sampleCompaction ++ sampleCachedRequest 1)) :=
    reached_sampleRun (meets_of_forall fun _ _ => trivial) (by decide +kernel)
  refine ⟨_, _, _, _, _, _, hreached, mem_of_getElem? (i := 1) rfl, rfl, ?_, rfl, ?_, ?_, ?_⟩
  · exact mem_of_getElem? (i := 0) rfl
  · rw [CompactionFrontier.Reaches]
    decide +kernel
  · exact ⟨rfl, by decide, by decide⟩
  · rintro (⟨hhot, -⟩ | ⟨key, hkey, -⟩)
    · cases hhot
    · cases hkey

/-- A record that was hot when the request started is seen in the block it has moved to. -/
theorem hot_record_seen_compacted :
    ∃ frontier blocks, Seen (sampleRun (.compaction (.produce sampleRecord) ::
      .receive sampleRecord :: sampleFetchingRequest.take 1 ++ sampleCompaction ++
        [.readFrontier, .replaceFrontier 0, .prune 0] ++ sampleFetchingRequest.drop 1)).store
      frontier blocks [] sampleRecord := by
  have hreached : Reached (fun _ _ => True) (sampleRun (.compaction (.produce sampleRecord) ::
      .receive sampleRecord :: sampleFetchingRequest.take 1 ++ sampleCompaction ++
        [.readFrontier, .replaceFrontier 0, .prune 0] ++ sampleFetchingRequest.drop 1)) :=
    reached_sampleRun (meets_of_forall fun _ _ => trivial) (by decide +kernel)
  refine ⟨_, _, received_record_stays_visible hreached
    (mem_of_getElem? (i := 0) rfl) rfl sampleRecord ?_ (.inl ?_) ⟨rfl, by decide, by decide⟩⟩
  · exact mem_of_getElem? (i := 0) rfl
  · exact mem_of_getElem? (i := 0) rfl

end Sample

end LogPath

end KrabkaO11y.Observability
