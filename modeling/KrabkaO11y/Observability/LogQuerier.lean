import KrabkaO11y.Observability.CompactionRuns

/-!
A log querier beside the compactors
(`crates/observability/src/querier/state/request_state/querier_state.rs`,
`querier/state/types/dynamic_index_cache.rs`, `wal/hot_tail.rs`, and the refresher of
`compactor/runtime.rs`).

The querier holds a shared frontier, the hot tail of the WAL, and the index shards it has
loaded, cached for each version of the frontier. A refresher reads the frontier object,
replaces the shared frontier and prunes the hot tail. A request captures the frontier,
loads the index through the cache of its version, takes the hot records, and starts again
if the version has moved. Each lock taken and each store call is one step.
-/

namespace KrabkaO11y.Observability

/-! ### The index in the store -/

/-- The time ranges of a tenant's index shards. -/
def Compaction.shardRanges (s : Compaction) (tenant : String) : List TimeRange :=
  ((s.published.filter fun key => key.tenant == tenant).map BlockKey.timeRange).dedup

/-- The blocks of an index shard. A block is in the shard of its own time range. -/
def Compaction.shard (s : Compaction) (tenant : String) (range : TimeRange) : List BlockKey :=
  s.published.filter fun key => key.tenant == tenant && key.timeRange == range

/-! ### State -/

/-- The maps of a `FrontierIndexCache` and the version they are for. -/
structure IndexCache where
  version : Nat
  entries : String × TimeRange → Option (List BlockKey) := fun _ => none
  shardRanges : String → Option (List TimeRange) := fun _ => none
  shardIndexes : String × TimeRange → Option (List BlockKey) := fun _ => none

inductive CacheKey where
  | entry (tenant : String) (range : TimeRange)
  | ranges (tenant : String)
  | shard (tenant : String) (range : TimeRange)

/-- An entry past its time to live is dropped when it is next met. -/
def IndexCache.drop (cache : IndexCache) : CacheKey → IndexCache
  | .entry tenant range =>
    { cache with entries := Function.update cache.entries (tenant, range) none }
  | .ranges tenant => { cache with shardRanges := Function.update cache.shardRanges tenant none }
  | .shard tenant range =>
    { cache with shardIndexes := Function.update cache.shardIndexes (tenant, range) none }

/-- What a pass of a request works with: the frontier it captured and its cache. -/
structure Capture where
  frontier : CompactionFrontier
  version : Nat
  cache : Nat

inductive RequestStage where
  | starting
  | captured (frontier : CompactionFrontier) (version : Nat)
  | loading (capture : Capture)
  | listing (capture : Capture)
  /-- The blocks of the cached shards, the shards to fetch, and those fetched. -/
  | fetching (capture : Capture) (hits : List BlockKey) (misses : List TimeRange)
      (fetched : List (TimeRange × List BlockKey))
  /-- The index, or `none` where a store call failed. -/
  | loaded (capture : Capture) (blocks : Option (List BlockKey))
  | snapped (capture : Capture) (blocks : Option (List BlockKey)) (hot : List WalLogRecord)
  | done (frontier : CompactionFrontier) (blocks : List BlockKey) (hot : List WalLogRecord)
  | failed

/-- What there was when a request started. -/
structure Began where
  /-- The hot tail. -/
  hotTail : List WalLogRecord
  /-- The records that the hot tail had taken in, pruned since or not. -/
  received : List WalLogRecord
  /-- The shared frontier of the querier. -/
  shared : CompactionFrontier
  /-- The frontier object. -/
  persisted : Option CompactionFrontier

/-- What a request is for. -/
structure Ask where
  tenant : String
  range : TimeRange
  began : Began

structure Request extends Ask where
  stage : RequestStage

structure Querier where
  shared : SharedFrontierState
  hotTail : List WalLogRecord
  received : List WalLogRecord
  /-- Frontiers that the refresher has read and not yet put in place. -/
  reads : List CompactionFrontier
  /-- Frontiers that the hot tail is about to be pruned by. -/
  prunes : List CompactionFrontier
  caches : List IndexCache
  /-- The version and the cache of the current generation. -/
  generation : Option (Nat × Nat)
  requests : List Request

/-- A querier that starts has the stored frontier and an empty hot tail. -/
def Querier.start (stored : Option CompactionFrontier) : Querier where
  shared := loadExistingCompactionFrontier stored
  hotTail := []
  received := []
  reads := []
  prunes := []
  caches := []
  generation := none
  requests := []

namespace Querier

variable (q : Querier)

/-! ### Hot tail and refresher -/

/-- The hot tail's consumer takes in a record of the WAL. -/
def receive (wal : List WalLogRecord) (record : WalLogRecord) : Option Querier :=
  if record ∈ wal ∧ record ∉ q.received then
    some { q with hotTail := q.hotTail ++ [record], received := q.received ++ [record] }
  else none

/-- After an append the poller prunes by a snapshot of the shared frontier. -/
def snapshotPrune : Querier :=
  { q with prunes := q.prunes ++ [q.shared.frontier] }

/-- `refresh_compaction_frontier_and_prune` reads the object. -/
def readFrontier (stored : Option CompactionFrontier) : Option Querier :=
  stored.map fun frontier => { q with reads := q.reads ++ [frontier] }

variable (n : Nat)

def replaceFrontier : Option Querier :=
  q.reads[n]?.map fun frontier =>
    { q with
      shared := q.shared.replace frontier
      reads := q.reads.eraseIdx n
      prunes := q.prunes ++ [frontier] }

def prune : Option Querier :=
  q.prunes[n]?.map fun frontier =>
    { q with
      hotTail := q.hotTail.filter fun record => !frontier.isCompacted record
      prunes := q.prunes.eraseIdx n }

/-! ### Requests -/

def setCache (id : Nat) (cache : IndexCache) : Querier :=
  { q with caches := q.caches.set id cache }

variable (request : Request)

def setStage (stage : RequestStage) : Querier :=
  { q with requests := q.requests.set n { request with stage } }

def evict (id : Nat) (key : CacheKey) : Option Querier :=
  q.caches[id]?.map fun cache => q.setCache id (cache.drop key)

def beginRequest (stored : Option CompactionFrontier) (tenant : String) (range : TimeRange) :
    Querier :=
  { q with requests := q.requests ++
      [⟨⟨tenant, range, ⟨q.hotTail, q.received, q.shared.frontier, stored⟩⟩, .starting⟩] }

def capture : Option Querier :=
  match request.stage with
  | .starting => some (q.setStage n request (.captured q.shared.frontier q.shared.version))
  | _ => none

/-- `DynamicIndexCache::for_frontier`: the maps of the generation, or new ones, which
become the generation's unless it is later. -/
def forFrontier : Option Querier :=
  match request.stage with
  | .captured frontier version =>
    match q.generation.filter fun current => current.1 == version with
    | some current => some (q.setStage n request (.loading ⟨frontier, version, current.2⟩))
    | none =>
      let id := q.caches.length
      some { q.setStage n request (.loading ⟨frontier, version, id⟩) with
        caches := q.caches ++ [{ version }]
        generation := if q.generation.all fun current => decide (current.1 < version) then
          some (version, id) else q.generation }
  | _ => none

/-- The cache that a request's capture names. -/
def cacheOf (capture : Capture) : Option IndexCache := q.caches[capture.cache]?

/-- The index may be cached for the request's tenant and range. -/
def lookup : Option Querier :=
  match request.stage with
  | .loading capture => (q.cacheOf capture).map fun cache =>
    match cache.entries (request.tenant, request.range) with
    | some blocks => q.setStage n request (.loaded capture (some blocks))
    | none => q.setStage n request (.listing capture)
  | _ => none

/-- The cached and the missing ones of the shards that overlap the request's range. -/
def planShards (capture : Capture) (cache : IndexCache)
    (ranges : List TimeRange) : Querier :=
  let wanted := ranges.filter fun range => range.overlaps request.range
  q.setStage n request (.fetching capture
    (wanted.flatMap fun range => (cache.shardIndexes (request.tenant, range)).getD [])
    (wanted.filter fun range => (cache.shardIndexes (request.tenant, range)).isNone) [])

/-- `cached_tenant_shard_ranges`, then the look at the cached shards. -/
def listShards (store : Compaction) (n : Nat) (request : Request) : Option Querier :=
  match request.stage with
  | .listing capture => (q.cacheOf capture).map fun cache =>
    match cache.shardRanges request.tenant with
    | some ranges => q.planShards n request capture cache ranges
    | none =>
      let ranges := store.shardRanges request.tenant
      (q.setCache capture.cache { cache with
        shardRanges := Function.update cache.shardRanges request.tenant (some ranges) }).planShards
          n request capture cache ranges
  | _ => none

/-- One of the missing shards arrives. -/
def fetch (store : Compaction) (n m : Nat) (request : Request) : Option Querier :=
  match request.stage with
  | .fetching capture hits misses fetched => misses[m]?.map fun range =>
    q.setStage n request (.fetching capture hits (misses.eraseIdx m)
      (fetched ++ [(range, store.shard request.tenant range)]))
  | _ => none

def cacheShards (tenant : String) (cache : IndexCache)
    (fetched : List (TimeRange × List BlockKey)) :
    IndexCache :=
  fetched.foldl (fun cache shard => { cache with
    shardIndexes := Function.update cache.shardIndexes (tenant, shard.1) (some shard.2) }) cache

/-- All shards are there: they are cached and merged, one block a key. -/
def finishLoad : Option Querier :=
  match request.stage with
  | .fetching capture hits [] fetched => (q.cacheOf capture).map fun cache =>
    let blocks := (hits ++ fetched.flatMap Prod.snd).dedup
    let cache := cacheShards request.tenant cache fetched
    (q.setCache capture.cache { cache with
      entries := Function.update cache.entries (request.tenant, request.range)
        (some blocks) }).setStage n request (.loaded capture (some blocks))
  | _ => none

/-- A store call of the load fails. -/
def failLoad : Option Querier :=
  match request.stage with
  | .loading capture | .listing capture | .fetching capture _ _ _ =>
    some (q.setStage n request (.loaded capture none))
  | _ => none

def snapshotHot : Option Querier :=
  match request.stage with
  | .loaded capture blocks => some (q.setStage n request (.snapped capture blocks
      (q.hotTail.filter fun record => request.range.covers record.timestampNs)))
  | _ => none

/-- A request ends unless the version has moved. -/
def recheck : Option Querier :=
  match request.stage with
  | .snapped capture blocks hot =>
    some (q.setStage n request (if q.shared.version ≠ capture.version then .starting
      else match blocks with
        | some blocks => .done capture.frontier blocks hot
        | none => .failed))
  | _ => none

end Querier

/-! ### The whole -/

structure LogPath where
  store : Compaction
  querier : Querier

namespace LogPath

def new : LogPath := ⟨.new, .start none⟩

inductive Event where
  | compaction (event : Compaction.Event)
  /-- The querier starts, or starts again. -/
  | startQuerier
  | receive (record : WalLogRecord)
  | snapshotPrune
  | readFrontier
  | replaceFrontier (n : Nat)
  | prune (n : Nat)
  | evict (id : Nat) (key : CacheKey)
  | beginRequest (tenant : String) (range : TimeRange)
  | capture (n : Nat)
  | forFrontier (n : Nat)
  | lookup (n : Nat)
  | listShards (n : Nat)
  | fetch (n m : Nat)
  | finishLoad (n : Nat)
  | failLoad (n : Nat)
  | snapshotHot (n : Nat)
  | recheck (n : Nat)

/-- The step of a request of the querier. -/
def onRequest (q : Querier) (n : Nat) (step : Request → Option Querier) : Option Querier :=
  q.requests[n]?.bind step

/-- The querier's own steps. -/
def querierStep (store : Compaction) (q : Querier) : Event → Option Querier
  | .compaction _ => none
  | .startQuerier => some (.start store.frontier)
  | .receive record => q.receive store.wal record
  | .snapshotPrune => some q.snapshotPrune
  | .readFrontier => q.readFrontier store.frontier
  | .replaceFrontier n => q.replaceFrontier n
  | .prune n => q.prune n
  | .evict id key => q.evict id key
  | .beginRequest tenant range => some (q.beginRequest store.frontier tenant range)
  | .capture n => onRequest q n (q.capture n)
  | .forFrontier n => onRequest q n (q.forFrontier n)
  | .lookup n => onRequest q n (q.lookup n)
  | .listShards n => onRequest q n (q.listShards store n)
  | .fetch n m => onRequest q n (q.fetch store n m)
  | .finishLoad n => onRequest q n (q.finishLoad n)
  | .failLoad n => onRequest q n (q.failLoad n)
  | .snapshotHot n => onRequest q n (q.snapshotHot n)
  | .recheck n => onRequest q n (q.recheck n)

def step (s : LogPath) : Event → Option LogPath
  | .compaction event => (s.store.step event).map fun store => { s with store }
  | event => (querierStep s.store s.querier event).map fun querier => { s with querier }

/-- The states that runs reach, from an empty store. -/
abbrev Reached (condition : LogPath → Event → Prop) (s : LogPath) : Prop :=
  Concurrent.System.Reachable step (· = new) condition s

end LogPath

end KrabkaO11y.Observability
