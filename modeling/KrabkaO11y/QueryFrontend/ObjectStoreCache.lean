import KrabkaO11y.Collections.Tree
import KrabkaO11y.Concurrent.ObjectStore
import KrabkaO11y.Concurrent.System
import KrabkaO11y.Machine.Saturating

/-!
The query cache in an object store (`crates/query-frontend/src/cache.rs`,
`ObjectStoreCache`): each value is one object whose path has its tenant, its key, a
revision and the time it was stored, and an insert prunes the namespace after its write.

The calls are programs of the object store's operations, any of which may fail.
-/

namespace KrabkaO11y.QueryFrontend

open Concurrent ObjectStore Machine

/-! ### Keys and paths -/

structure CacheKey where
  tenant : String
  bytes : List UInt8
deriving DecidableEq, Repr

/-- The path of an object, below the prefix of the cache. -/
structure CachePath where
  key : CacheKey
  revision : Nat
  storedAtMs : Int64
deriving DecidableEq, Repr

def hex (bytes : List UInt8) : List Char :=
  bytes.flatMap fun byte => [Nat.digitChar (byte.toNat / 16), Nat.digitChar (byte.toNat % 16)]

def CacheKey.tenantSegment (key : CacheKey) : List Char :=
  if key.tenant.isEmpty then ['_'] else hex key.tenant.toUTF8.toList

/-- The path as text, by which objects of one revision or time are ordered. -/
def CachePath.text (path : CachePath) : List Char :=
  path.key.tenantSegment ++ '/' :: 'k' :: hex path.key.bytes ++ "/v2-".toList ++
    (toString path.revision).toList ++ '-' :: (toString path.storedAtMs.toInt).toList ++
      ".json".toList

structure StoredValue (V : Type) where
  storedAtMs : Int64
  value : V
deriving DecidableEq, Repr

structure CachePolicy where
  maxObjects : Option ℕ+
  maxBytes : Option ℕ+
  maxObjectsPerTenant : Option ℕ+
  maxBytesPerTenant : Option ℕ+

structure ObjectStoreCache (V : Type) where
  policy : CachePolicy
  ttlMs : Nat
  /-- The length of the encoded value. -/
  size : StoredValue V → Nat
  /-- The prefix is as the store normalizes it. Paths are compared with the prefix as it
  was given, so with another one no path is found under it. -/
  normalPrefix : Bool

inductive CacheError where
  | objectStore
  | revisionExhausted
deriving DecidableEq, Repr

def isExpired (storedAtMs nowMs : Int64) (ttlMs : Nat) : Bool :=
  decide ((ttlMs : Int) < (saturatingSub nowMs storedAtMs).toInt)

/-- A bound that is not set bounds nothing. -/
def exceeds (amount : Nat) (limit : Option ℕ+) : Bool :=
  limit.any fun limit => decide ((limit : Nat) < amount)

structure StoredObject where
  path : CachePath
  bytes : Nat
deriving DecidableEq, Repr

def StoredObject.ofMeta (object : ObjectMeta CachePath) : StoredObject :=
  ⟨object.location, object.size⟩

def StoredObject.replacementOrder (object : StoredObject) : ℕ ×ₗ List Char :=
  toLex (object.path.revision, object.path.text)

/-- The order in which objects are evicted. -/
def StoredObject.evictionOrder (object : StoredObject) : ℤ ×ₗ List Char :=
  toLex (object.path.storedAtMs.toInt, object.path.text)

namespace ObjectStoreCache

variable {V : Type} (cache : ObjectStoreCache V)

/-- A call of the cache. -/
abbrev Calls (V α : Type) :=
  Prog (Op CachePath (StoredValue V)) (Result CachePath (StoredValue V)) CacheError α

/-- One operation of the store; its failure ends the call. -/
def call (op : Op CachePath (StoredValue V)) : Calls V (Answer CachePath (StoredValue V) op) :=
  .call op fun result => match result with
    | .ok answer => .done (.ok answer)
    | .error _ => .done (.error .objectStore)

def deleteObject (object : StoredObject) : Calls V Unit :=
  call (.delete object.path) >>= fun _ => pure ()

/-- The objects of the namespace. -/
def storedObjects : Calls V (List StoredObject) :=
  call (.list fun _ => true) >>= fun objects => pure (objects.map .ofMeta)

/-- `starts_with` of the key's prefix. -/
def hasKey (key : CacheKey) (object : StoredObject) : Bool :=
  cache.normalPrefix && object.path.key == key

/-- `starts_with` of the tenant's prefix. -/
def sameTenant (key : CacheKey) (object : StoredObject) : Bool :=
  cache.normalPrefix && object.path.key.tenant == key.tenant

/-! ### Pruning -/

/-- The loop from the newest object on: it deletes what is expired or has a newer object
of its key, and gives the others from the oldest on. -/
def pruneStale (nowMs : Int64) : List StoredObject → List CacheKey → List StoredObject →
    Calls V (List StoredObject)
  | [], _, live => pure live
  | object :: rest, keys, live =>
    let newest := decide (object.path.key ∉ keys)
    let expired := isExpired object.path.storedAtMs nowMs cache.ttlMs
    if expired || !newest then
      deleteObject object >>= fun _ => pruneStale nowMs rest (object.path.key :: keys) live
    else pruneStale nowMs rest (object.path.key :: keys) (object :: live)

def totalBytes (objects : List StoredObject) : Nat :=
  (objects.map StoredObject.bytes).sum

def overTenant (key : CacheKey) (objects : List StoredObject) : Bool :=
  let own := objects.filter (cache.sameTenant key)
  exceeds own.length cache.policy.maxObjectsPerTenant ||
    exceeds (totalBytes own) cache.policy.maxBytesPerTenant

def overTotal (objects : List StoredObject) : Bool :=
  exceeds objects.length cache.policy.maxObjects ||
    exceeds (totalBytes objects) cache.policy.maxBytes

/-- Deletes the tenant's oldest object while it is over its bounds. The objects passed over
are of other tenants. -/
def evictTenant (key : CacheKey) (passed : List StoredObject) : List StoredObject →
    Calls V (List StoredObject)
  | [] => pure passed
  | object :: rest =>
    if cache.overTenant key (passed ++ object :: rest) then
      if cache.sameTenant key object then
        deleteObject object >>= fun _ => evictTenant key passed rest
      else evictTenant key (passed ++ [object]) rest
    else pure (passed ++ object :: rest)

/-- Deletes the oldest object while the namespace is over its bounds. -/
def evictTotal : List StoredObject → Calls V (List StoredObject)
  | [] => pure []
  | object :: rest =>
    if cache.overTotal (object :: rest) then
      deleteObject object >>= fun _ => evictTotal rest
    else pure (object :: rest)

def pruneForInsert (key : CacheKey) (nowMs : Int64) : Calls V Unit := do
  let stored ← storedObjects
  let ordered := stored.insertionSort fun left right =>
    left.replacementOrder ≤ right.replacementOrder
  let live ← cache.pruneStale nowMs ordered.reverse [] []
  let oldest := live.insertionSort fun left right => left.evictionOrder ≤ right.evictionOrder
  let kept ← cache.evictTenant key [] oldest
  let _ ← cache.evictTotal kept
  pure ()

/-! ### Calls -/

/-- The revision after the largest of the key's objects. -/
def nextRevision (key : CacheKey) (objects : List StoredObject) : Nat :=
  (objects.filter (cache.hasKey key)).foldl
    (fun newest object => max newest object.path.revision) 0 + 1

/-- The value is over a byte bound by itself. -/
def oversize (stored : StoredValue V) : Bool :=
  exceeds (cache.size stored) cache.policy.maxBytes ||
    exceeds (cache.size stored) cache.policy.maxBytesPerTenant

/-- The path that an insert puts its value at. -/
def insertPath (key : CacheKey) (storedAtMs : Int64) (objects : List StoredObject) : CachePath :=
  ⟨key, cache.nextRevision key objects, storedAtMs⟩

/-- An insert reads the clock when it starts and when it prunes. -/
def insert (key : CacheKey) (value : V) (storedAtMs nowMs : Int64) : Calls V Unit :=
  let stored : StoredValue V := ⟨storedAtMs, value⟩
  if cache.oversize stored then pure ()
  else do
    let objects ← storedObjects
    if cache.nextRevision key objects < 2 ^ 64 then
      let _ ← call (.put (cache.insertPath key storedAtMs objects) stored)
      cache.pruneForInsert key nowMs
    else .fail .revisionExhausted

/-- The newer of the newest object so far and the next one of a listing. -/
def newer : Option StoredObject → StoredObject → Option StoredObject
  | some newest, object =>
    if object.replacementOrder < newest.replacementOrder then some newest else some object
  | none, object => some object

def newestOf (objects : List StoredObject) : Option StoredObject :=
  objects.foldl newer none

def get (key : CacheKey) (nowMs : Int64) : Calls V (Option V) := do
  let objects ← call (.list fun path => decide (path.key = key))
  match newestOf (objects.map .ofMeta) with
  | none => pure none
  | some object => do
    let found ← call (.get object.path)
    match found with
    | none => pure none
    | some (stored, _) =>
      if isExpired stored.storedAtMs nowMs cache.ttlMs then
        -- the delete may fail; the call misses all the same
        .call (.delete object.path) fun _ => pure none
      else pure (some stored.value)

def sweepObjects (nowMs : Int64) : List StoredObject → Nat → Calls V Nat
  | [], swept => pure swept
  | object :: rest, swept =>
    if isExpired object.path.storedAtMs nowMs cache.ttlMs then
      deleteObject object >>= fun _ => sweepObjects nowMs rest (swept + 1)
    else sweepObjects nowMs rest swept

/-- A sweep; the listing at its end only sets a gauge. -/
def sweep (nowMs : Int64) : Calls V Nat := do
  let objects ← storedObjects
  let swept ← cache.sweepObjects nowMs objects 0
  let _ ← call (.list fun _ => true)
  pure swept

def deleteAll : List (ObjectMeta CachePath) → Calls V Unit
  | [] => pure ()
  | object :: rest => call (.delete object.location) >>= fun _ => deleteAll rest

def invalidateTenant (tenant : String) : Calls V Nat := do
  let objects ← call (.list fun path => decide (path.key.tenant = tenant))
  deleteAll objects
  let _ ← call (.list fun _ => true)
  pure (List.length objects)

/-! ### Runs of one instance -/

/-- The store and the outcomes of the calls to come. -/
abbrev World (V : Type) := Store CachePath (StoredValue V) × List Outcome

/-- One operation under the next outcome. -/
def handler (op : Op CachePath (StoredValue V)) (world : World V) :
    Result CachePath (StoredValue V) op × World V :=
  let answered := world.1.answer cache.size (world.2.headD .ok) op
  (answered.1, answered.2, world.2.tail)

/-- A call to the end. -/
def exec {α : Type} (calls : Calls V α) (store : Store CachePath (StoredValue V))
    (outcomes : List Outcome) : Except CacheError α × Store CachePath (StoredValue V) :=
  let ended := calls.eval cache.handler (store, outcomes)
  (ended.1, ended.2.1)

/-- A call, its clock readings and the outcomes of its operations. -/
inductive Event (V : Type) where
  | insert (key : CacheKey) (value : V) (storedAtMs nowMs : Int64) (outcomes : List Outcome)
  | get (key : CacheKey) (nowMs : Int64) (outcomes : List Outcome)
  | sweep (nowMs : Int64) (outcomes : List Outcome)
  | invalidateTenant (tenant : String) (outcomes : List Outcome)

structure State (V : Type) where
  store : Store CachePath (StoredValue V)
  /-- The value of the last insert of a key whose put reached the store. -/
  last : CacheKey → Option V

def State.new : State V := ⟨{}, fun _ => none⟩

/-- The objects of the namespace, as a listing gives them. -/
def objectsOf (store : Store CachePath (StoredValue V)) : List StoredObject :=
  (store.listing cache.size fun _ => true).map .ofMeta

/-- An insert's put reaches the store: its listing comes back and the put is carried out. -/
def lands (stored : StoredValue V) (store : Store CachePath (StoredValue V)) (key : CacheKey)
    (outcomes : List Outcome) : Bool :=
  !cache.oversize stored && outcomes.headD .ok == .ok &&
    decide (cache.nextRevision key (cache.objectsOf store) < 2 ^ 64) &&
      outcomes.tail.headD .ok != .refused

def step (s : State V) : Event V → Option (State V)
  | .insert key value storedAtMs nowMs outcomes => some
      { store := (cache.exec (cache.insert key value storedAtMs nowMs) s.store outcomes).2
        last := if cache.lands ⟨storedAtMs, value⟩ s.store key outcomes then
          Function.update s.last key (some value) else s.last }
  | .get key nowMs outcomes => some
      { s with store := (cache.exec (cache.get key nowMs) s.store outcomes).2 }
  | .sweep nowMs outcomes => some
      { s with store := (cache.exec (cache.sweep nowMs) s.store outcomes).2 }
  | .invalidateTenant tenant outcomes => some
      { s with store := (cache.exec (invalidateTenant tenant) s.store outcomes).2 }

/-- The states of one instance on an empty namespace. -/
abbrev Reached (condition : State V → Event V → Prop) (s : State V) : Prop :=
  System.Reachable cache.step (· = .new) condition s

end ObjectStoreCache

end KrabkaO11y.QueryFrontend
