import KrabkaO11y.QueryFrontend.ObjectStoreCache

/-!
What the calls of the cache do to the store: every operation of a `get`, a `sweep`, an
invalidation or a pruning only removes objects, whatever fails, and a pruning none of whose
operations fails leaves the newest object of each key within the bounds.
-/

namespace KrabkaO11y.QueryFrontend.ObjectStoreCache

open Concurrent ObjectStore Prog List

variable {V : Type} {cache : ObjectStoreCache V}

/-! ### Calls that write nothing -/

/-- The operation adds no object. -/
def NoWrite : Op CachePath (StoredValue V) → Prop
  | .list _ | .get _ | .head _ | .delete _ | .now => True
  | .put _ _ | .create _ _ _ | .update _ _ _ => False

theorem only_call {op : Op CachePath (StoredValue V)} (h : NoWrite op) :
    (call op).Only NoWrite :=
  ⟨h, fun result => by cases result <;> trivial⟩

theorem only_deleteObject (object : StoredObject) : (deleteObject (V := V) object).Only NoWrite :=
  only_bind (only_call trivial) fun _ => trivial

theorem only_storedObjects : (storedObjects (V := V)).Only NoWrite :=
  only_bind (only_call trivial) fun _ => trivial

theorem only_pruneStale (nowMs : Int64) (todo : List StoredObject) :
    ∀ keys live, (cache.pruneStale nowMs todo keys live).Only NoWrite := by
  induction todo with
  | nil => exact fun _ _ => trivial
  | cons object rest ih =>
    intro keys live
    rw [pruneStale]
    split
    · exact only_bind (only_deleteObject object) fun _ => ih _ _
    · exact ih _ _

theorem only_evictTenant (key : CacheKey) (todo : List StoredObject) :
    ∀ passed, (cache.evictTenant key passed todo).Only NoWrite := by
  induction todo with
  | nil => exact fun _ => trivial
  | cons object rest ih =>
    intro passed
    rw [evictTenant]
    split
    · split
      · exact only_bind (only_deleteObject object) fun _ => ih _
      · exact ih _
    · trivial

theorem only_evictTotal (todo : List StoredObject) : (cache.evictTotal todo).Only NoWrite := by
  induction todo with
  | nil => trivial
  | cons object rest ih =>
    rw [evictTotal]
    split
    · exact only_bind (only_deleteObject object) fun _ => ih
    · trivial

theorem only_pruneForInsert (key : CacheKey) (nowMs : Int64) :
    (cache.pruneForInsert key nowMs).Only NoWrite :=
  only_bind only_storedObjects fun _ => only_bind (only_pruneStale _ _ _ _) fun _ =>
    only_bind (only_evictTenant _ _ _) fun _ => only_bind (only_evictTotal _) fun _ => trivial

theorem only_get (key : CacheKey) (nowMs : Int64) : (cache.get key nowMs).Only NoWrite := by
  refine only_bind (only_call trivial) fun objects => ?_
  split
  · trivial
  · refine only_bind (only_call trivial) fun found => ?_
    split
    · trivial
    · split
      · exact ⟨trivial, fun _ => trivial⟩
      · trivial

theorem only_sweepObjects (nowMs : Int64) (todo : List StoredObject) :
    ∀ swept, (cache.sweepObjects nowMs todo swept).Only NoWrite := by
  induction todo with
  | nil => exact fun _ => trivial
  | cons object rest ih =>
    intro swept
    rw [sweepObjects]
    split
    · exact only_bind (only_deleteObject object) fun _ => ih _
    · exact ih _

theorem only_sweep (nowMs : Int64) : (cache.sweep nowMs).Only NoWrite :=
  only_bind only_storedObjects fun _ => only_bind (only_sweepObjects _ _ _) fun _ =>
    only_bind (only_call trivial) fun _ => trivial

theorem only_deleteAll (objects : List (ObjectMeta CachePath)) :
    (deleteAll (V := V) objects).Only NoWrite := by
  induction objects with
  | nil => trivial
  | cons object rest ih => exact only_bind (only_call trivial) fun _ => ih

theorem only_invalidateTenant (tenant : String) :
    (invalidateTenant (V := V) tenant).Only NoWrite :=
  only_bind (only_call trivial) fun _ => only_bind (only_deleteAll _) fun _ =>
    only_bind (only_call trivial) fun _ => trivial

theorem shrinks_handler (op : Op CachePath (StoredValue V)) (world : World V) (h : NoWrite op) :
    world.1.Shrinks (cache.handler op world).2.1 := by
  have hap : world.1.Shrinks (world.1.apply cache.size op).2 := by
    cases op with
    | delete path => exact Store.shrinks_erase path
    | put _ _ | create _ _ _ | update _ _ _ => exact h.elim
    | _ => exact Store.Shrinks.refl _
  rw [handler]
  cases world.2.headD .ok with
  | refused => exact Store.Shrinks.refl _
  | ok | lost => exact hap

/-- A call that writes nothing only removes objects, whatever fails. -/
theorem shrinks_eval {α : Type} {calls : Calls V α} (h : calls.Only NoWrite) (world : World V) :
    world.1.Shrinks (calls.eval cache.handler world).2.1 :=
  h.eval_related (R := fun before after => before.1.Shrinks after.1)
    (fun world => Store.Shrinks.refl world.1) Store.Shrinks.trans shrinks_handler world

/-! ### Calls of which nothing fails -/

/-- No operation to come fails. -/
def Smooth (world : World V) : Prop := ∀ outcome ∈ world.2, outcome = .ok

variable {world : World V}

theorem Smooth.handler (h : Smooth world) (op : Op CachePath (StoredValue V)) :
    cache.handler op world =
      (.ok (world.1.apply cache.size op).1, (world.1.apply cache.size op).2, world.2.tail) := by
  obtain ⟨store, outcomes⟩ := world
  have hhd : outcomes.headD .ok = .ok := by
    cases outcomes with
    | nil => rfl
    | cons outcome rest => exact h outcome mem_cons_self
  rw [ObjectStoreCache.handler, hhd]
  rfl

theorem returns_call (h : Smooth world) (op : Op CachePath (StoredValue V)) :
    Returns cache.handler world (call op) fun answer after =>
      answer = (world.1.apply cache.size op).1 ∧
        after.1 = (world.1.apply cache.size op).2 ∧ Smooth after := by
  refine ⟨_, ((world.1.apply cache.size op).2, world.2.tail), ?_, rfl, rfl,
    fun outcome hmem => h outcome (mem_of_mem_tail hmem)⟩
  rw [call, eval_call, h.handler]
  rfl

theorem returns_storedObjects (h : Smooth world) :
    Returns cache.handler world storedObjects fun objects after =>
      objects = cache.objectsOf world.1 ∧ after.1 = world.1 ∧ Smooth after := by
  refine (returns_call h _).bind ?_
  rintro answer after ⟨rfl, hst, ha⟩
  exact returns_done ⟨rfl, hst, ha⟩

/-- The namespace holds some objects, and no operation to come fails. -/
structure Holds (cache : ObjectStoreCache V) (objects : List StoredObject) (world : World V) :
    Prop where
  perm : (cache.objectsOf world.1).Perm objects
  smooth : Smooth world

variable {objects : List StoredObject} {objects' : List StoredObject}

theorem Holds.of_perm (h : cache.Holds objects world)
    (hperm : objects.Perm objects') :
    cache.Holds objects' world :=
  ⟨h.perm.trans hperm, h.smooth⟩

variable {object : StoredObject} {rest : List StoredObject}

theorem objectsOf_erase {store : Store CachePath (StoredValue V)}
    (h : (cache.objectsOf store).Perm (object :: rest)) :
    (cache.objectsOf (store.erase object.path)).Perm rest := by
  obtain ⟨m, hm, rfl⟩ := mem_map.mp (h.mem_iff.mpr mem_cons_self)
  have hls := perm_cons_erase hm
  have her := Store.perm_listing_erase hls
  have hr : (StoredObject.ofMeta m ::
      ((store.listing cache.size fun _ => true).erase m).map .ofMeta).Perm (.ofMeta m :: rest) :=
    (hls.map StoredObject.ofMeta).symm.trans h
  exact (her.map StoredObject.ofMeta).trans hr.cons_inv

theorem returns_deleteObject (h : cache.Holds (object :: rest) world) :
    Returns cache.handler world (deleteObject object) fun _ => cache.Holds rest := by
  refine (returns_call h.smooth _).bind ?_
  rintro answer after ⟨-, hst, ha⟩
  refine returns_done ⟨?_, ha⟩
  rw [hst]
  exact objectsOf_erase h.perm

/-- No object is older than another of its key, and no key has two. -/
structure Newest (kept todo live : List StoredObject) (keys : List CacheKey) : Prop where
  nodup : (kept.map (·.path.key)).Nodup
  newest : ∀ object ∈ kept, object ∈ live ∨ object.path.key ∉ keys ∧
    ∀ other ∈ todo, other.path.key = object.path.key →
      other.replacementOrder ≤ object.replacementOrder

/-- What the rest of the loop keeps is still the newest when the object before it counts. -/
theorem Newest.cons {kept todo live live' : List StoredObject} {keys : List CacheKey}
    (h : Newest kept todo live' (object.path.key :: keys))
    (hlive : ∀ x ∈ live', x ∈ live ∨ x = object ∧ object.path.key ∉ keys)
    (sorted : ∀ other ∈ todo, other.replacementOrder ≤ object.replacementOrder) :
    Newest kept (object :: todo) live keys := by
  refine ⟨h.nodup, fun x hx => ?_⟩
  rcases h.newest x hx with hin | ⟨hks, hnew⟩
  · refine (hlive x hin).imp_right ?_
    rintro ⟨rfl, hout⟩
    refine ⟨hout, fun other ho _ => ?_⟩
    rcases mem_cons.mp ho with rfl | ho
    · exact le_rfl
    · exact sorted other ho
  · obtain ⟨hne, hout⟩ := not_or.mp (mt mem_cons.mpr hks)
    refine .inr ⟨hout, fun other ho hsm => ?_⟩
    rcases mem_cons.mp ho with rfl | ho
    · exact absurd hsm.symm hne
    · exact hnew other ho hsm

theorem returns_pruneStale (nowMs : Int64) (todo : List StoredObject) :
    ∀ (keys : List CacheKey) (live : List StoredObject) (world : World V),
      cache.Holds (todo ++ live) world →
      todo.Pairwise (fun a b => b.replacementOrder ≤ a.replacementOrder) →
      (live.map (·.path.key)).Nodup → (∀ object ∈ live, object.path.key ∈ keys) →
      Returns cache.handler world (cache.pruneStale nowMs todo keys live) fun kept after =>
        cache.Holds kept after ∧ Newest kept todo live keys := by
  induction todo with
  | nil =>
    intro keys live world hh _ hnd _
    exact returns_done ⟨hh, hnd, fun _ hin => .inl hin⟩
  | cons object rest ih =>
    intro keys live world hh hso hnd hks
    obtain ⟨hf, hr⟩ := pairwise_cons.mp hso
    rw [pruneStale]
    split
    · refine (returns_deleteObject hh).bind fun _ after ha => ?_
      refine (ih _ _ after ha hr hnd fun x hx =>
        mem_cons_of_mem _ (hks x hx)).mono ?_
      rintro kept last ⟨hl, hnew⟩
      exact ⟨hl, hnew.cons (fun x hx => .inl hx) hf⟩
    · rename_i hk
      have hout : object.path.key ∉ keys := by
        intro hin
        simp [hin] at hk
      have hlv : ((object :: live).map (·.path.key)).Nodup := by
        refine nodup_cons.mpr ⟨fun hin => ?_, hnd⟩
        obtain ⟨x, hx, hsm⟩ := mem_map.mp hin
        have hkey : x.path.key = object.path.key := hsm
        exact hout (hkey ▸ hks x hx)
      refine (ih _ _ world (hh.of_perm perm_middle.symm) hr hlv ?_).mono ?_
      · intro x hx
        rcases mem_cons.mp hx with rfl | hx
        · exact mem_cons_self
        · exact mem_cons_of_mem _ (hks x hx)
      · rintro kept last ⟨hl, hnew⟩
        refine ⟨hl, hnew.cons (fun x hx => ?_) hf⟩
        exact (mem_cons.mp hx).symm.imp_right fun heq => ⟨heq, hout⟩

/-! ### Bounds -/

theorem exceeds_mono {a b : Nat} (h : a ≤ b) {limit : Option ℕ+} (ha : exceeds a limit = true) :
    exceeds b limit = true := by
  cases limit with
  | none => exact ha
  | some limit =>
    have hlt : (limit : Nat) < a := of_decide_eq_true ha
    exact decide_eq_true (hlt.trans_le h)

theorem exceeds_zero (limit : Option ℕ+) : exceeds 0 limit = false := by
  cases limit with
  | none => rfl
  | some limit => exact decide_eq_false (Nat.not_lt_zero (limit : Nat))

theorem totalBytes_mono (h : objects.Subperm objects') :
    totalBytes objects ≤ totalBytes objects' := by
  obtain ⟨middle, hpm, hsub⟩ := h
  rw [totalBytes, ← (hpm.map StoredObject.bytes).sum_eq]
  exact (hsub.map StoredObject.bytes).sum_le_sum fun _ _ => Nat.zero_le _

/-- Fewer objects are not over bounds that more are not over. -/
theorem not_exceeds_mono {maxObjects maxBytes : Option ℕ+}
    (h : objects.Subperm objects')
    (hover : (exceeds objects'.length maxObjects || exceeds (totalBytes objects') maxBytes) =
      false) :
    (exceeds objects.length maxObjects || exceeds (totalBytes objects) maxBytes) = false := by
  rw [← Bool.not_eq_true, Bool.or_eq_true] at hover ⊢
  exact fun hsm =>
    hover (hsm.imp (exceeds_mono h.length_le) (exceeds_mono (totalBytes_mono h)))

variable {key : CacheKey}

theorem overTenant_mono
    (h : (objects.filter (cache.sameTenant key)).Subperm (objects'.filter (cache.sameTenant key)))
    (hover : cache.overTenant key objects' = false) : cache.overTenant key objects = false :=
  not_exceeds_mono h hover

theorem overTotal_mono (h : objects.Subperm objects')
    (hover : cache.overTotal objects' = false) : cache.overTotal objects = false :=
  not_exceeds_mono h hover

theorem overTenant_of_filter_nil (h : objects.filter (cache.sameTenant key) = []) :
    cache.overTenant key objects = false := by
  simp [overTenant, h, totalBytes, exceeds_zero]

/-- The bounds of one tenant hold when its evictions end. -/
theorem returns_evictTenant (key : CacheKey) (todo : List StoredObject) :
    ∀ (passed : List StoredObject) (world : World V), cache.Holds (passed ++ todo) world →
      (∀ object ∈ passed, cache.sameTenant key object = false) →
      Returns cache.handler world (cache.evictTenant key passed todo) fun kept after =>
        cache.Holds kept after ∧ kept.Sublist (passed ++ todo) ∧
          cache.overTenant key kept = false := by
  induction todo with
  | nil =>
    intro passed world hh hpas
    rw [append_nil] at hh ⊢
    refine returns_done ⟨hh, List.Sublist.refl _, overTenant_of_filter_nil ?_⟩
    exact filter_eq_nil_iff.mpr fun object hin => by simp [hpas object hin]
  | cons object rest ih =>
    intro passed world hh hpas
    rw [evictTenant]
    split
    · split
      · refine (returns_deleteObject (hh.of_perm perm_middle)).bind
          fun _ after ha => ?_
        refine (ih passed after ha hpas).mono ?_
        rintro kept last ⟨hl, hsub, hov⟩
        exact ⟨hl, hsub.trans (sublist_cons_self object rest |>.append_left passed),
          hov⟩
      · rename_i ho
        have hmo : passed ++ object :: rest = passed ++ [object] ++ rest := by simp
        rw [hmo] at hh ⊢
        refine ih (passed ++ [object]) world hh fun x hx => ?_
        rcases mem_append.mp hx with hx | hx
        · exact hpas x hx
        · rw [mem_singleton.mp hx]
          exact Bool.eq_false_iff.mpr ho
    · rename_i hov
      exact returns_done ⟨hh, List.Sublist.refl _, Bool.eq_false_iff.mpr hov⟩

/-- The bounds of the namespace hold when the evictions end. -/
theorem returns_evictTotal (todo : List StoredObject) :
    ∀ world : World V, cache.Holds todo world →
      Returns cache.handler world (cache.evictTotal todo) fun kept after =>
        cache.Holds kept after ∧ kept.Sublist todo ∧ cache.overTotal kept = false := by
  induction todo with
  | nil =>
    intro world hh
    refine returns_done ⟨hh, List.Sublist.refl _, ?_⟩
    simp [overTotal, totalBytes, exceeds_zero]
  | cons object rest ih =>
    intro world hh
    rw [evictTotal]
    split
    · refine (returns_deleteObject hh).bind fun _ after ha => ?_
      refine (ih after ha).mono ?_
      rintro kept last ⟨hl, hsub, hov⟩
      exact ⟨hl, hsub.cons object, hov⟩
    · rename_i hov
      exact returns_done ⟨hh, List.Sublist.refl _, Bool.eq_false_iff.mpr hov⟩

/-! ### The whole pruning -/

/-- What a pruning for a key leaves of some objects. -/
structure Pruned (cache : ObjectStoreCache V) (key : CacheKey) (before after : List StoredObject) :
    Prop where
  nodup : (after.map (·.path.key)).Nodup
  newest : ∀ object ∈ after, ∀ other ∈ before, other.path.key = object.path.key →
    other.replacementOrder ≤ object.replacementOrder
  tenant : cache.overTenant key after = false
  total : cache.overTotal after = false

theorem Pruned.of_perm {before after after' : List StoredObject} (h : cache.Pruned key before after)
    (perm : after'.Perm after) :
    cache.Pruned key before after' where
  nodup := (perm.map _).nodup_iff.mpr h.nodup
  newest object hin := h.newest object (perm.mem_iff.mp hin)
  tenant := overTenant_mono (perm.filter _).subperm h.tenant
  total := overTotal_mono perm.subperm h.total

theorem returns_pruneForInsert (key : CacheKey) (nowMs : Int64) (h : Smooth world) :
    Returns cache.handler world (cache.pruneForInsert key nowMs) fun _ after =>
      cache.Pruned key (cache.objectsOf world.1) (cache.objectsOf after.1) := by
  refine (returns_storedObjects h).bind ?_
  rintro _ listed ⟨rfl, hst, hlst⟩
  set ordered := (cache.objectsOf world.1).insertionSort fun left right =>
    left.replacementOrder ≤ right.replacementOrder
  have hpm : (cache.objectsOf world.1).Perm ordered.reverse :=
    (perm_insertionSort _ _).symm.trans ordered.reverse_perm.symm
  have hso : ordered.reverse.Pairwise fun a b => b.replacementOrder ≤ a.replacementOrder :=
    pairwise_reverse.mpr (Collections.pairwise_insertionSort_key StoredObject.replacementOrder _)
  have hh : cache.Holds (ordered.reverse ++ []) listed := by
    refine ⟨?_, hlst⟩
    rw [hst, append_nil]
    exact hpm
  refine (returns_pruneStale nowMs _ _ _ listed hh hso nodup_nil (by simp)).bind ?_
  rintro live stale ⟨hlv, hnew⟩
  have hol := perm_insertionSort
    (fun left right : StoredObject => left.evictionOrder ≤ right.evictionOrder) live
  refine (returns_evictTenant key _ [] stale (hlv.of_perm hol.symm) (by simp)).bind ?_
  rintro kept evicted ⟨hk, hke, hten⟩
  refine (returns_evictTotal kept evicted hk).bind ?_
  rintro final last ⟨hfi, hfin, htot⟩
  have hsub : final.Subperm live := (hfin.trans hke).subperm.trans hol.subperm
  refine returns_done (Pruned.of_perm ⟨?_, ?_, ?_, htot⟩ hfi.perm)
  · obtain ⟨middle, hmid, hsu⟩ := hsub
    exact (hmid.map _).nodup_iff.mp (hnew.nodup.sublist (hsu.map _))
  · intro object hin other ho
    have hobj := hnew.newest object (hsub.subset hin)
    exact (hobj.resolve_left not_mem_nil).2 other (hpm.mem_iff.mp ho)
  · exact overTenant_mono (hfin.filter _).subperm hten

end KrabkaO11y.QueryFrontend.ObjectStoreCache
