import KrabkaO11y.QueryFrontend.ObjectStoreCachePruning

/-!
Runs of one instance of the cache. When no insert fails between its put and the end of its
pruning, every value served is the one last put, and the namespace stays within its bounds.
An insert that fails there leaves an older object behind, which is served once the newer one
has expired.
-/

namespace KrabkaO11y.QueryFrontend.ObjectStoreCache

open Concurrent ObjectStore Prog

variable {V : Type} {cache : ObjectStoreCache V}

/-! ### What a namespace should be -/

/-- One object for each key, within the bounds of the policy. -/
structure Bounded (cache : ObjectStoreCache V) (store : Store CachePath (StoredValue V)) :
    Prop where
  single : ((cache.objectsOf store).map (·.path.key)).Nodup
  objects : ∀ limit ∈ cache.policy.maxObjects, (cache.objectsOf store).length ≤ limit
  bytes : ∀ limit ∈ cache.policy.maxBytes, totalBytes (cache.objectsOf store) ≤ limit
  tenantObjects : ∀ tenant, ∀ limit ∈ cache.policy.maxObjectsPerTenant,
    ((cache.objectsOf store).filter (·.path.key.tenant == tenant)).length ≤ limit
  tenantBytes : ∀ tenant, ∀ limit ∈ cache.policy.maxBytesPerTenant,
    totalBytes ((cache.objectsOf store).filter (·.path.key.tenant == tenant)) ≤ limit

/-- The invariant of the runs. -/
structure Tidy (cache : ObjectStoreCache V) (s : State V) : Prop where
  single : ((cache.objectsOf s.store).map (·.path.key)).Nodup
  tenant : ∀ key, cache.overTenant key (cache.objectsOf s.store) = false
  total : cache.overTotal (cache.objectsOf s.store) = false
  last : ∀ path object, s.store.lookup path = some object →
    s.last path.key = some object.value.value

theorem le_of_not_exceeds {amount : Nat} {limit : Option ℕ+} (h : exceeds amount limit = false) :
    ∀ bound ∈ limit, amount ≤ bound := by
  rintro bound rfl
  exact Nat.not_lt.mp (of_decide_eq_false h)

variable {s : State V}

theorem Tidy.bounded (h : cache.Tidy s) (normal : cache.normalPrefix = true) :
    cache.Bounded s.store := by
  obtain ⟨hob, hby⟩ := Bool.or_eq_false_iff.mp h.total
  have hten : ∀ tenant, cache.sameTenant ⟨tenant, []⟩ = (·.path.key.tenant == tenant) := by
    intro tenant
    funext object
    rw [sameTenant, normal, Bool.true_and]
  have hov : ∀ tenant, _ := fun tenant => Bool.or_eq_false_iff.mp (h.tenant ⟨tenant, []⟩)
  refine ⟨h.single, le_of_not_exceeds hob, le_of_not_exceeds hby, ?_, ?_⟩
  · intro tenant
    rw [← hten]
    exact le_of_not_exceeds (hov tenant).1
  · intro tenant
    rw [← hten]
    exact le_of_not_exceeds (hov tenant).2

variable {store : Store CachePath (StoredValue V)}

/-- Objects that go leave the rest tidy. -/
theorem Tidy.shrinks (h : cache.Tidy s) (hshr : s.store.Shrinks store) :
    cache.Tidy { s with store } := by
  have hsub : (cache.objectsOf store).Sublist (cache.objectsOf s.store) :=
    (hshr.listing _).map _
  exact
    { single := h.single.sublist (hsub.map _)
      tenant := fun key => overTenant_mono (hsub.filter _).subperm (h.tenant key)
      total := overTotal_mono hsub.subperm h.total
      last := fun path object hlk => h.last path object (hshr.lookup hlk) }

/-! ### A value served -/

variable {world : World V} {α : Type}

/-- A call that returned passed each of its operations. -/
theorem eval_of_call_bind_ok {op : Op CachePath (StoredValue V)}
    {next : Answer CachePath (StoredValue V) op → Calls V α} {result : α}
    (h : ((call op >>= next).eval cache.handler world).1 = .ok result) :
    ((next (world.1.apply cache.size op).1).eval cache.handler
      ((world.1.apply cache.size op).2, world.2.tail)).1 = .ok result := by
  simp only [call, call_bind, eval_call, handler] at h
  cases hout : world.2.headD .ok with
  | ok =>
    rw [hout] at h
    exact h
  | refused | lost =>
    rw [hout] at h
    cases h

variable {object : StoredObject}

theorem mem_newer {newest : Option StoredObject} {x : StoredObject} (h : x ∈ newer newest object) :
    x ∈ newest ∨ x = object := by
  cases newest with
  | none => exact .inr (Option.some.inj h).symm
  | some newest =>
    rw [newer] at h
    split at h
    · exact .inl h
    · exact .inr (Option.some.inj h).symm

variable {objects : List StoredObject}

theorem newestOf_mem (h : newestOf objects = some object) :
    object ∈ objects := by
  have hfo : ∀ (objects : List StoredObject) (newest : Option StoredObject),
      ∀ x ∈ objects.foldl newer newest, x ∈ newest ∨ x ∈ objects := by
    intro objects
    induction objects with
    | nil => exact fun newest x hx => .inl hx
    | cons first rest ih =>
      intro newest x hx
      rcases ih _ x hx with hin | hin
      · rcases mem_newer hin with hin | rfl
        · exact .inl hin
        · exact .inr List.mem_cons_self
      · exact .inr (List.mem_cons_of_mem _ hin)
  exact (hfo objects none object h).resolve_left fun hno => by cases hno

variable {key : CacheKey} {value : V}

/-- A value that a `get` returns is that of an object of the key. -/
theorem lookup_of_get {nowMs : Int64}
    (h : ((cache.get key nowMs).eval cache.handler world).1 = .ok (some value)) :
    ∃ path object, world.1.lookup path = some object ∧ path.key = key ∧
      object.value.value = value := by
  have hls := eval_of_call_bind_ok h
  simp only [Store.apply] at hls
  cases hnew : newestOf ((world.1.listing cache.size fun path =>
      decide (path.key = key)).map .ofMeta) with
  | none =>
    rw [hnew] at hls
    cases hls
  | some object =>
    rw [hnew] at hls
    have hget := eval_of_call_bind_ok hls
    obtain ⟨m, hm, rfl⟩ := List.mem_map.mp (newestOf_mem hnew)
    obtain ⟨hw, -⟩ := Store.mem_listing.mp hm
    simp only [Store.apply] at hget
    cases hfd : world.1.lookup (StoredObject.ofMeta m).path with
    | none =>
      rw [hfd] at hget
      cases hget
    | some found =>
      rw [hfd] at hget
      simp only [Option.map_some] at hget
      split at hget
      · cases hget
      · refine ⟨_, found, hfd, of_decide_eq_true hw, ?_⟩
        exact Option.some.inj (Except.ok.inj hget)

/-! ### An insert -/

/-- The insert does not fail between its put and the end of its pruning: its first listing
fails, its put is refused, or nothing fails. -/
def Uninterrupted (_ : State V) : Event V → Prop
  | .insert _ _ _ _ outcomes =>
    outcomes.headD .ok ≠ .ok ∨ outcomes.tail.headD .ok = .refused ∨
      ∀ outcome ∈ outcomes, outcome = .ok
  | _ => True

instance decidableUninterrupted (s : State V) :
    (event : Event V) → Decidable (Uninterrupted s event)
  | .insert _ _ _ _ _ => inferInstanceAs (Decidable (_ ∨ _))
  | .get _ _ _ | .sweep _ _ | .invalidateTenant _ _ => .isTrue trivial

theorem eval_storedObjects_bind (next : List StoredObject → Calls V α)
    (store : Store CachePath (StoredValue V)) (outcomes : List Outcome) :
    (storedObjects >>= next).eval cache.handler (store, outcomes) =
      if outcomes.headD .ok = .ok then
        (next (cache.objectsOf store)).eval cache.handler (store, outcomes.tail)
      else (.error .objectStore, store, outcomes.tail) := by
  simp only [storedObjects, call, call_bind, eval_call, handler]
  cases outcomes.headD .ok <;> rfl

theorem eval_call_bind_refused (op : Op CachePath (StoredValue V))
    (next : Answer CachePath (StoredValue V) op → Calls V α) (h : world.2.headD .ok = .refused) :
    (call op >>= next).eval cache.handler world = (.error .objectStore, world.1, world.2.tail) := by
  simp only [call, call_bind, eval_call, handler, h]
  rfl

variable {stored : StoredValue V} {outcomes : List Outcome}

theorem lands_iff :
    cache.lands stored store key outcomes = true ↔
      ¬ cache.oversize stored = true ∧ outcomes.headD .ok = .ok ∧
        cache.nextRevision key (cache.objectsOf store) < 2 ^ 64 ∧
          outcomes.tail.headD .ok ≠ .refused := by
  simp only [lands, Bool.and_eq_true, Bool.not_eq_true', Bool.not_eq_true, beq_iff_eq,
    decide_eq_true_eq, bne_iff_ne, and_assoc]

/-- What an insert that is not interrupted does: nothing, or its put and a whole pruning. -/
inductive InsertEffect (cache : ObjectStoreCache V) (key : CacheKey) (stored : StoredValue V)
    (store after : Store CachePath (StoredValue V)) (landed : Bool) : Prop where
  | nothing (hlanded : landed = false) (hsame : after = store)
  | pruned (hlanded : landed = true)
      (hshrinks : (store.write (cache.insertPath key stored.storedAtMs
        (cache.objectsOf store)) stored).Shrinks after)
      (hpruned : cache.Pruned key (cache.objectsOf (store.write (cache.insertPath key
        stored.storedAtMs (cache.objectsOf store)) stored)) (cache.objectsOf after))

theorem insertEffect {storedAtMs nowMs : Int64}
    (h : Uninterrupted s (.insert key value storedAtMs nowMs outcomes)) :
    InsertEffect cache key ⟨storedAtMs, value⟩ s.store
      (cache.exec (cache.insert key value storedAtMs nowMs) s.store outcomes).2
      (cache.lands ⟨storedAtMs, value⟩ s.store key outcomes) := by
  rw [exec, insert]
  cases hla : cache.lands ⟨storedAtMs, value⟩ s.store key outcomes with
  | false =>
    refine .nothing rfl ?_
    by_cases hsz : cache.oversize ⟨storedAtMs, value⟩ = true
    · rw [if_pos hsz]
      rfl
    rw [if_neg hsz, eval_storedObjects_bind]
    split
    swap
    · rfl
    rename_i hls
    split
    swap
    · rfl
    rename_i hre
    -- the put is left, and what did not land was refused
    have href : outcomes.tail.headD .ok = .refused := by
      by_contra hput
      rw [lands_iff.mpr ⟨hsz, hls, hre, hput⟩] at hla
      cases hla
    have hwo : (s.store, outcomes.tail).2.headD Outcome.ok = .refused := href
    dsimp only
    rw [eval_call_bind_refused _ _ hwo]
  | true =>
    obtain ⟨hsz, hls, hre, hput⟩ := lands_iff.mp hla
    have hsm : Smooth (s.store, outcomes.tail) := by
      rcases h with hfa | href | hsm
      · exact absurd hls hfa
      · exact absurd href hput
      · exact fun outcome hin => hsm outcome (List.mem_of_mem_tail hin)
    rw [if_neg hsz, eval_storedObjects_bind, if_pos hls, if_pos hre]
    obtain ⟨_, written, hwr, -, hw, hr⟩ : Returns cache.handler _ _ _ :=
      returns_call hsm (.put (cache.insertPath key storedAtMs (cache.objectsOf s.store))
        ⟨storedAtMs, value⟩)
    obtain ⟨_, ended, hen, hprn⟩ : Returns cache.handler _ _ _ :=
      returns_pruneForInsert key nowMs hr
    have hshr : written.1.Shrinks
        (eval cache.handler (cache.pruneForInsert key nowMs) written).2.1 :=
      shrinks_eval (only_pruneForInsert key nowMs) written
    have hst : written.1 = s.store.write (cache.insertPath key storedAtMs
      (cache.objectsOf s.store)) ⟨storedAtMs, value⟩ := hw
    rw [eval_bind_ok _ hwr, hen]
    rw [hen, hst] at hshr
    rw [hst] at hprn
    exact .pruned rfl hshr hprn

theorem mem_objectsOf {path : CachePath} {object : Object (StoredValue V)}
    (h : store.lookup path = some object) :
    (⟨path, cache.size object.value⟩ : StoredObject) ∈ cache.objectsOf store :=
  List.mem_map.mpr ⟨Store.metaOf cache.size path object,
    Store.mem_listing.mpr ⟨rfl, object, h, rfl⟩, rfl⟩

/-- The next revision of a key is above those of its objects. -/
theorem revision_lt_nextRevision (normal : cache.normalPrefix = true)
    (hin : object ∈ objects) (hkey : object.path.key = key) :
    object.path.revision < cache.nextRevision key objects := by
  have hfo : ∀ (objects : List StoredObject) (newest : Nat),
      newest ≤ objects.foldl (fun newest object => max newest object.path.revision) newest ∧
        ∀ x ∈ objects, x.path.revision ≤
          objects.foldl (fun newest object => max newest object.path.revision) newest := by
    intro objects
    induction objects with
    | nil => simp
    | cons first rest ih =>
      intro newest
      obtain ⟨hnew, hr⟩ := ih (max newest first.path.revision)
      refine ⟨(le_max_left _ _).trans hnew, fun x hx => ?_⟩
      rcases List.mem_cons.mp hx with rfl | hx
      · exact (le_max_right _ _).trans hnew
      · exact hr x hx
  have hfil : object ∈ objects.filter (cache.hasKey key) :=
    List.mem_filter.mpr ⟨hin, by simp [hasKey, normal, hkey]⟩
  exact Nat.lt_succ_of_le ((hfo _ 0).2 object hfil)

theorem revision_le_of_replacementOrder_le {other : StoredObject}
    (h : object.replacementOrder ≤ other.replacementOrder) :
    object.path.revision ≤ other.path.revision := by
  rcases Prod.Lex.toLex_le_toLex.mp h with hlt | ⟨heq, -⟩
  · exact hlt.le
  · exact heq.le

/-- Another tenant has no more objects after a write. -/
theorem overTenant_write_of_ne {path : CachePath} (hne : path.key.tenant ≠ key.tenant)
    (h : cache.overTenant key (cache.objectsOf store) = false) :
    cache.overTenant key (cache.objectsOf (store.write path stored)) = false := by
  refine overTenant_mono (List.Sublist.subperm ?_) h
  rw [objectsOf, Store.listing_write, List.map_cons, List.filter_cons_of_neg]
  · exact (((Store.shrinks_erase path).listing _).map _).filter _
  · have hbeq : (path.key.tenant == key.tenant) = false := beq_false_of_ne hne
    simp [sameTenant, StoredObject.ofMeta, Store.metaOf, hbeq]

theorem Tidy.insert (normal : cache.normalPrefix = true) (h : cache.Tidy s)
    {after : Store CachePath (StoredValue V)} {landed : Bool}
    (effect : InsertEffect cache key stored s.store after landed) :
    cache.Tidy ⟨after,
      if landed then Function.update s.last key (some stored.value) else s.last⟩ := by
  cases effect with
  | nothing hla hsm =>
    rw [hla, hsm]
    exact h
  | pruned hla hshr hprn =>
    set path := cache.insertPath key stored.storedAtMs (cache.objectsOf s.store) with hpa
    have hkey : path.key = key := rfl
    have hsub : (cache.objectsOf after).Sublist (cache.objectsOf (s.store.write path stored)) :=
      (hshr.listing _).map _
    refine ⟨hprn.nodup, fun other => ?_, hprn.total, fun found object hfd => ?_⟩
    · by_cases hten : key.tenant = other.tenant
      · have hsm : cache.sameTenant other = cache.sameTenant key := by
          funext object
          rw [sameTenant, sameTenant, hten]
        have hown := hprn.tenant
        simp only [overTenant, hsm] at hown ⊢
        exact hown
      · exact overTenant_mono (hsub.filter _).subperm
          (overTenant_write_of_ne hten (h.tenant other))
    · have hwr := hshr.lookup hfd
      rw [Store.lookup_write] at hwr
      rw [hla, if_pos rfl]
      split at hwr
      · rename_i heq
        cases hwr
        rw [heq, hkey]
        exact Function.update_self _ _ _
      · have hold := h.last found object hwr
        have ho : found.key ≠ key := by
          -- an older object of the key has a newer one beside it, so it is not kept
          intro hsm
          have hnew : (s.store.write path stored).lookup path = some ⟨stored, _, _⟩ :=
            Store.lookup_write.trans (if_pos rfl)
          have hle := revision_le_of_replacementOrder_le (hprn.newest _
            (mem_objectsOf hfd) _ (mem_objectsOf hnew) (hkey.trans hsm.symm))
          have hlt : found.revision < path.revision :=
            revision_lt_nextRevision normal (mem_objectsOf hwr) hsm
          exact absurd hle (Nat.not_le.mpr hlt)
        exact (Function.update_of_ne ho _ _).trans hold

theorem tidy_new : cache.Tidy .new where
  single := List.nodup_nil
  tenant _ := overTenant_of_filter_nil rfl
  total := by
    change (exceeds 0 _ || exceeds 0 _) = false
    rw [exceeds_zero, exceeds_zero]
    rfl
  last := by
    intro path object hlk
    cases hlk

theorem Tidy.step (normal : cache.normalPrefix = true) {s' : State V} {event : Event V}
    (h : cache.Tidy s) (condition : Uninterrupted s event) (hs : cache.step s event = some s') :
    cache.Tidy s' := by
  cases event with
  | insert key value storedAtMs nowMs outcomes =>
    rw [← Option.some.inj hs]
    exact h.insert normal (insertEffect condition)
  | get key nowMs outcomes =>
    rw [← Option.some.inj hs]
    exact h.shrinks (shrinks_eval (only_get key nowMs) (s.store, outcomes))
  | sweep nowMs outcomes =>
    rw [← Option.some.inj hs]
    exact h.shrinks (shrinks_eval (only_sweep nowMs) (s.store, outcomes))
  | invalidateTenant tenant outcomes =>
    rw [← Option.some.inj hs]
    exact h.shrinks (shrinks_eval (only_invalidateTenant tenant) (s.store, outcomes))

theorem tidy_of_reached (normal : cache.normalPrefix = true) (h : cache.Reached Uninterrupted s) :
    cache.Tidy s :=
  h.invariant (fun _ hs => hs ▸ tidy_new) fun _ _ _ hti hco hst =>
    hti.step normal hco hst

/-! ### The values served and the bounds -/

/-- In a run none of whose inserts is interrupted, a value served is the last one put, and
an insert leaves one object for each key, within the bounds. -/
theorem served_value_is_last_put (hnormal : cache.normalPrefix = true) {s : State V}
    (h : cache.Reached Uninterrupted s) :
    (∀ key nowMs outcomes value,
      (cache.exec (cache.get key nowMs) s.store outcomes).1 = .ok (some value) →
        s.last key = some value) ∧
    ∀ key value storedAtMs nowMs outcomes,
      Uninterrupted s (.insert key value storedAtMs nowMs outcomes) →
      (cache.exec (cache.insert key value storedAtMs nowMs) s.store outcomes).1 = .ok () →
        cache.Bounded (cache.exec (cache.insert key value storedAtMs nowMs) s.store
          outcomes).2 := by
  have htidy := tidy_of_reached hnormal h
  constructor
  · intro key nowMs outcomes value hget
    obtain ⟨path, object, hlookup, rfl, rfl⟩ := lookup_of_get hget
    exact htidy.last path object hlookup
  · intro key value storedAtMs nowMs outcomes hcondition _
    exact (htidy.insert hnormal (insertEffect hcondition)).bounded hnormal

/-! ### Two runs -/

/-- A cache without bounds whose values live for 50 ms. -/
def shortLived : ObjectStoreCache Nat where
  policy := ⟨none, none, none, none⟩
  ttlMs := 50
  size _ := 1
  normalPrefix := true

def someKey : CacheKey := ⟨"", []⟩

def stateAfter (events : List (Event Nat)) : State Nat :=
  (System.run shortLived.step .new events).getD .new

theorem reached_stateAfter {condition : State Nat → Event Nat → Prop} {events : List (Event Nat)}
    (meets : System.Meets shortLived.step condition .new events)
    (hsm : (System.run shortLived.step .new events).isSome = true) :
    shortLived.Reached condition (stateAfter events) :=
  System.Reachable.getD (.initial rfl) meets hsm

/-- The second insert puts its value, with an earlier clock reading, and fails to list the
namespace for its pruning; a `get` then finds the second value expired and removes it. -/
def interruptedRun : List (Event Nat) :=
  [.insert someKey 1 100 100 [], .insert someKey 2 0 0 [.ok, .ok, .refused], .get someKey 60 []]

/-- The value of the first insert is served although the second one was put after it. -/
theorem superseded_value_served : ∃ s, shortLived.Reached (fun _ _ => True) s ∧
    s.last someKey = some 2 ∧
      (shortLived.exec (shortLived.get someKey 60) s.store []).1 = .ok (some 1) :=
  ⟨stateAfter interruptedRun,
    reached_stateAfter (System.meets_of_forall fun _ _ => trivial) (by decide +kernel),
    by decide +kernel, by decide +kernel⟩

/-- The second insert, with an earlier clock reading, is pruned for; a third is refused. -/
def uninterruptedRun : List (Event Nat) :=
  [.insert someKey 1 100 100 [], .insert someKey 2 90 90 [], .sweep 95 [.lost],
    .insert someKey 3 95 95 [.ok, .refused]]

theorem second_value_served :
    (stateAfter uninterruptedRun).last someKey = some 2 ∧
      shortLived.Bounded (shortLived.exec (shortLived.insert someKey 4 96 97)
        (stateAfter uninterruptedRun).store []).2 := by
  have hserved := served_value_is_last_put rfl (reached_stateAfter
    (by decide +kernel : System.Meets shortLived.step Uninterrupted .new uninterruptedRun)
    (by decide +kernel))
  exact ⟨hserved.1 someKey 96 [] 2 (by decide +kernel),
    hserved.2 someKey 4 96 97 [] (by decide +kernel) (by decide +kernel)⟩

end KrabkaO11y.QueryFrontend.ObjectStoreCache
