import KrabkaO11y.Blockstore.Snapshot.Programs

/-!
The merge of one tenant, run alone: what it reads, what it writes and what it names.

The reads of a merge are the touched shards with their bytes (`foldReads`); the shards
it did not touch are carried by name (`carriedOf`); what it publishes is written unless
the base names it already (`publishedStore`) and named after the carried shards
(`namePublished`).
-/

open Std (ExtTreeMap ExtTreeSet)

namespace KrabkaO11y.Blockstore

open SnapshotEnv TenantShardMerge Concurrent List
open Concurrent.Prog (fail ofExcept eval_bind_ok)

/-! ### Running programs alone -/

namespace SnapshotEnv

variable {α β : Type} {env : SnapshotEnv} {s s' : SnapshotStore}

@[simp] theorem run_done (result : Except BlockStoreError α) :
    env.run (.done result : SnapshotProg α) s = (result, s) := rfl

@[simp] theorem run_fail (e : BlockStoreError) :
    env.run (fail e : SnapshotProg α) s = (.error e, s) := rfl

@[simp] theorem run_ofExcept (result : Except BlockStoreError α) :
    env.run (ofExcept result : SnapshotProg α) s = (result, s) := rfl

theorem run_bind_ok {p : SnapshotProg α} {f : α → SnapshotProg β} {a : α}
    (h : env.run p s = (.ok a, s')) : env.run (p >>= f) s = env.run (f a) s' :=
  eval_bind_ok _ h

@[simp] theorem run_storeOp (op : ObjectStore.Op SnapshotPath SnapshotObject) :
    env.run (storeOp op) s = (.ok (s.apply env.objectSize op).1, (s.apply env.objectSize op).2) :=
  rfl

@[simp] theorem run_shardPayloadContentHash (bytes : List UInt8) :
    env.run (shardPayloadContentHash bytes) s = (.ok (env.contentHash bytes), s) := rfl

end SnapshotEnv

/-- The payload under a path. -/
def Stored (s : SnapshotStore) (path : SnapshotPath) (bytes : List UInt8) : Prop :=
  ∃ object, s.lookup path = some object ∧ object.value = .payload bytes

variable {s : SnapshotStore} {path : SnapshotPath}

theorem Stored.unique {bytes bytes' : List UInt8} (h : Stored s path bytes)
    (h' : Stored s path bytes') : bytes = bytes' := by
  obtain ⟨object, hobj, hval⟩ := h
  obtain ⟨object', hobj', hval'⟩ := h'
  rw [hobj] at hobj'
  rw [Option.some.inj hobj', hval'] at hval
  exact (SnapshotObject.payload.inj hval).symm

variable {bytes : List UInt8}

theorem stored_write :
    Stored (s.write path (.payload bytes)) path bytes :=
  ⟨_, by rw [ObjectStore.Store.lookup_write, if_pos rfl], rfl⟩

theorem run_readShardPayload {env : SnapshotEnv} {key : String} {maxBytes : UInt64}
    (h : Stored s path bytes) (hlen : bytes.length ≤ maxBytes.toNat) :
    env.run (readShardPayload key maxBytes path) s = (.ok bytes, s) := by
  obtain ⟨object, hobj, hval⟩ := h
  rw [readShardPayload, run_bind_ok (run_storeOp _)]
  simp only [ObjectStore.Store.apply, hobj, Option.map_some, ObjectStore.Store.metaOf, hval,
    objectSize, if_neg (Nat.not_lt.mpr hlen)]
  rfl

namespace TenantShardMerge

variable {σ : Type} {env : SnapshotEnv} {s : SnapshotStore} {merge : TenantShardMerge}
  {touched : List IndexShardRange} {shards : List ManifestShard}

/-! ### Reading -/

/-- Folds the shards that were read, with their bytes. -/
def foldReads (merge : TenantShardMerge)
    (fold : σ → IndexShardRange → String → List UInt8 → Except BlockStoreError σ)
    (reads : List (ManifestShard × List UInt8)) (init : σ) : Except BlockStoreError σ :=
  reads.foldlM (fun folded read => fold folded read.1.range
    ((merge.payloadPath read.1).render merge.key) read.2) init

/-- The names of the shards that were not touched. -/
def carriedOf (touched : List IndexShardRange) (shards : List ManifestShard)
    (carried : ExtTreeMap IndexShardRange String) : ExtTreeMap IndexShardRange String :=
  (shards.filter fun shard => !isTouched touched shard).foldl
    (fun carried shard => carried.insert shard.range shard.content) carried

/-- The reads are the touched shards, each with bytes the store holds within the cap. -/
structure Reads (merge : TenantShardMerge) (s : SnapshotStore) (touched : List IndexShardRange)
    (shards : List ManifestShard) (reads : List (ManifestShard × List UInt8)) : Prop where
  shards_eq : reads.map Prod.fst = shards.filter (isTouched touched)
  stored : ∀ read ∈ reads, Stored s (merge.payloadPath read.1) read.2
  capped : ∀ read ∈ reads, read.2.length ≤ merge.maxBytes.toNat

/-- A merge has its reads when every touched shard is stored within the cap. -/
theorem exists_reads {P : ManifestShard → List UInt8 → Prop} {shards : List ManifestShard}
    (h : ∀ shard ∈ shards, ∃ bytes, P shard bytes) :
    ∃ reads : List (ManifestShard × List UInt8),
      reads.map Prod.fst = shards ∧ ∀ read ∈ reads, P read.1 read.2 := by
  induction shards with
  | nil => exact ⟨[], rfl, by simp⟩
  | cons shard rest ih =>
    obtain ⟨bytes, hby⟩ := h shard (by simp)
    obtain ⟨reads, hfst, hrd⟩ := ih fun shard h' => h shard (mem_cons_of_mem _ h')
    refine ⟨(shard, bytes) :: reads, by rw [map_cons, hfst], ?_⟩
    exact forall_mem_cons.mpr ⟨hby, hrd⟩

theorem run_readTouchedFrom
    {fold : σ → IndexShardRange → String → List UInt8 → Except BlockStoreError σ} :
    ∀ (shards : List ManifestShard) (reads : List (ManifestShard × List UInt8)) (init final : σ)
      (carried : ExtTreeMap IndexShardRange String), Reads merge s touched shards reads →
      merge.foldReads fold reads init = .ok final →
      env.run (merge.readTouchedFrom touched fold shards init carried) s =
        (.ok (final, carriedOf touched shards carried), s) := by
  intro shards
  induction shards with
  | nil =>
    intro reads init final carried hrd hfo
    obtain rfl : reads = [] := by simpa using hrd.shards_eq
    obtain rfl : init = final := by simpa [foldReads, pure, Except.pure] using hfo
    rfl
  | cons shard rest ih =>
    intro reads init final carried hrd hfo
    rw [readTouchedFrom]
    by_cases htch : isTouched touched shard
    · rw [if_pos htch]
      have heq := hrd.shards_eq
      rw [filter_cons, if_pos htch] at heq
      cases reads with
      | nil => simp at heq
      | cons read reads =>
        obtain ⟨rfl, hre⟩ := List.cons.inj heq
        rw [foldReads, foldlM_cons, except_bind_eq_ok] at hfo
        obtain ⟨next, hs, hfo⟩ := hfo
        have hrd' : Reads merge s touched rest reads :=
          ⟨hre, fun r hr => hrd.stored r (mem_cons_of_mem _ hr),
            fun r hr => hrd.capped r (mem_cons_of_mem _ hr)⟩
        rw [run_bind_ok (run_readShardPayload (hrd.stored read (by simp))
          (hrd.capped read (by simp))), hs,
          run_bind_ok (run_ofExcept _),
          ih reads next final carried hrd' hfo]
        simp [carriedOf, htch]
    · rw [if_neg htch, ih reads init final _ ⟨by rw [hrd.shards_eq, filter_cons,
        if_neg htch], hrd.stored, hrd.capped⟩ hfo]
      simp [carriedOf, htch]

variable {range : IndexShardRange}

/-- With one shard a range, the carried names are the untouched shards. -/
theorem getElem?_carriedOf (hdis : (shards.map ManifestShard.range).Nodup) {content : String} :
    (carriedOf touched shards ∅)[range]? = some content ↔
      ∃ shard ∈ shards, isTouched touched shard = false ∧ shard.range = range ∧
        shard.content = content := by
  have hge : ∀ (xs : List ManifestShard) (carried : ExtTreeMap IndexShardRange String),
      (xs.map ManifestShard.range).Nodup →
      ((xs.foldl (fun carried shard => carried.insert shard.range shard.content) carried)[range]? =
        some content ↔ (∃ shard ∈ xs, shard.range = range ∧ shard.content = content) ∨
          ((∀ shard ∈ xs, shard.range ≠ range) ∧ carried[range]? = some content)) := by
    intro xs
    induction xs with
    | nil => simp
    | cons first rest ih =>
      intro carried hnd
      rw [map_cons, nodup_cons] at hnd
      have hf : first.range = range → ∀ shard ∈ rest, shard.range ≠ range :=
        fun h shard hsd heq => hnd.1 (mem_map.mpr ⟨shard, hsd, heq.trans h.symm⟩)
      rw [foldl_cons, ih _ hnd.2, ExtTreeMap.getElem?_insert]
      by_cases h : first.range = range
      · have hre := hf h
        simp only [h, Std.compare_self, if_true, Option.some.injEq, mem_cons,
          exists_eq_or_imp, true_and, forall_eq_or_imp, ne_eq, not_true, false_and, or_false]
        constructor
        · rintro (⟨shard, hsd, hr, -⟩ | ⟨-, hc⟩)
          · exact absurd hr (hre shard hsd)
          · exact .inl hc
        · rintro (hc | ⟨shard, hsd, hr, -⟩)
          · exact .inr ⟨hre, hc⟩
          · exact absurd hr (hre shard hsd)
      · simp [h]
  rw [carriedOf, hge _ _ (hdis.sublist (filter_sublist.map _))]
  simp [and_assoc]

/-! ### Publishing -/

/-- The store after publishing some shards. -/
def publishedStore (env : SnapshotEnv) (merge : TenantShardMerge)
    (published : List (IndexShardRange × List UInt8)) (s : SnapshotStore) : SnapshotStore :=
  published.foldl
    (fun s (range, bytes) =>
      if merge.isPublished range (env.contentHash bytes) then s
      else s.write (.shardPayload merge.tenant range (env.contentHash bytes)) (.payload bytes))
    s

/-- The name of a published shard. -/
def shardOf (env : SnapshotEnv) (published : IndexShardRange × List UInt8) : ManifestShard :=
  ⟨published.1.start, published.1.stop, env.contentHash published.2⟩

/-- The manifest after naming some published shards. -/
def namePublished (env : SnapshotEnv) (merge : TenantShardMerge)
    (published : List (IndexShardRange × List UInt8)) (manifest : SnapshotManifest) :
    SnapshotManifest :=
  published.foldl
    (fun manifest (range, bytes) => manifest.insert merge.tenant range (env.contentHash bytes))
    manifest

variable {manifest : SnapshotManifest}

theorem run_publish (hcap : bytes.length ≤ maxVecLen) :
    env.run (merge.publish manifest range bytes) s =
      (.ok (merge.namePublished env [(range, bytes)] manifest),
        merge.publishedStore env [(range, bytes)] s) := by
  rw [publish, if_neg (Nat.not_lt.mpr hcap),
    run_bind_ok (run_shardPayloadContentHash bytes)]
  simp only [publishedStore, namePublished, foldl_cons, foldl_nil]
  split
  · rfl
  · rw [run_bind_ok (run_storeOp _)]
    rfl

variable {published : List (IndexShardRange × List UInt8)}

theorem run_publishAll (hcap : ∀ entry ∈ published, entry.2.length ≤ maxVecLen) :
    env.run (merge.publishAll published manifest) s =
      (.ok (merge.namePublished env published manifest), merge.publishedStore env published s) := by
  induction published generalizing manifest s with
  | nil => rfl
  | cons entry rest ih =>
    obtain ⟨range, bytes⟩ := entry
    obtain ⟨hby, hr⟩ := forall_mem_cons.mp hcap
    rw [publishAll, run_bind_ok (run_publish hby), ih hr]
    rfl

theorem lookup_publishedStore_of_ne {path : SnapshotPath} (hne : ∀ entry ∈ published,
      path ≠ .shardPayload merge.tenant entry.1 (env.contentHash entry.2)) :
    (merge.publishedStore env published s).lookup path = s.lookup path := by
  induction published generalizing s with
  | nil => rfl
  | cons entry rest ih =>
    obtain ⟨he, hr⟩ := forall_mem_cons.mp hne
    rw [publishedStore, foldl_cons]
    refine (ih hr).trans ?_
    dsimp only
    split
    · rfl
    · rw [ObjectStore.Store.lookup_write, if_neg he]

/-- What is published is stored, when a name the base already has stands for these
bytes. -/
theorem stored_publishedStore (hdis : (published.map Prod.fst).Nodup)
    {entry : IndexShardRange × List UInt8} (hmem : entry ∈ published)
    (base : merge.isPublished entry.1 (env.contentHash entry.2) = true →
      Stored s (.shardPayload merge.tenant entry.1 (env.contentHash entry.2)) entry.2) :
    Stored (merge.publishedStore env published s)
      (.shardPayload merge.tenant entry.1 (env.contentHash entry.2)) entry.2 := by
  induction published generalizing s with
  | nil => simp at hmem
  | cons first rest ih =>
    obtain ⟨hf, hre⟩ := nodup_cons.mp hdis
    have hs : merge.publishedStore env (first :: rest) s =
        merge.publishedStore env rest (merge.publishedStore env [first] s) := rfl
    rw [hs]
    rcases mem_cons.mp hmem with rfl | hmem
    · -- the later ones are published at other ranges
      have hfm : ∀ other ∈ rest, SnapshotPath.shardPayload merge.tenant entry.1
          (env.contentHash entry.2) ≠
            .shardPayload merge.tenant other.1 (env.contentHash other.2) := by
        intro other ho heq
        have hr := (SnapshotPath.shardPayload.inj heq).2.1
        exact hf (mem_map.mpr ⟨other, ho, hr.symm⟩)
      have hhd : Stored (merge.publishedStore env [entry] s)
          (.shardPayload merge.tenant entry.1 (env.contentHash entry.2)) entry.2 := by
        simp only [publishedStore, foldl_cons, foldl_nil]
        split
        · rename_i h; exact base h
        · exact stored_write
      obtain ⟨object, hobj, hval⟩ := hhd
      exact ⟨object, by rw [lookup_publishedStore_of_ne hfm, hobj], hval⟩
    · refine ih hre hmem fun h => ?_
      have ho : entry.1 ≠ first.1 := fun heq => hf (mem_map.mpr ⟨entry, hmem, heq⟩)
      obtain ⟨object, hobj, hval⟩ := base h
      refine ⟨object, ?_, hval⟩
      rw [lookup_publishedStore_of_ne (by
        intro other hmem heq
        rw [mem_singleton.mp hmem] at heq
        exact ho (SnapshotPath.shardPayload.inj heq).2.1), hobj]

/-! ### The manifest -/

theorem shardsOf_namePublished {tenant : String} :
    (merge.namePublished env published manifest).shardsOf tenant =
      if tenant = merge.tenant then manifest.shardsOf tenant ++ published.map (shardOf env)
      else manifest.shardsOf tenant := by
  induction published generalizing manifest with
  | nil => simp [namePublished]
  | cons entry rest ih =>
    have hs : merge.namePublished env (entry :: rest) manifest =
        merge.namePublished env rest
          (manifest.insert merge.tenant entry.1 (env.contentHash entry.2)) := rfl
    rw [hs, ih, SnapshotManifest.shardsOf_insert]
    split
    · rename_i h; subst h; simp [shardOf]
    · rfl

theorem shardsOf_carry {carried : ExtTreeMap IndexShardRange String} {tenant : String} :
    (merge.carry manifest carried).shardsOf tenant =
      if tenant = merge.tenant then
        manifest.shardsOf tenant ++ carried.toList.map fun (range, content) =>
          ⟨range.start, range.stop, content⟩
      else manifest.shardsOf tenant := by
  rw [carry]
  generalize carried.toList = entries
  induction entries generalizing manifest with
  | nil => simp
  | cons entry rest ih =>
    rw [foldl_cons, ih, SnapshotManifest.shardsOf_insert]
    split
    · rename_i h; subst h; simp
    · rfl

end TenantShardMerge

/-! ### The whole merge of a tenant -/

namespace SnapshotKind

variable {ι : Type} {kind : SnapshotKind ι} {env : SnapshotEnv} {s : SnapshotStore} {index : ι}
  {merge : TenantShardMerge} {manifest : SnapshotManifest}

/-- The manifest a merge makes from what it publishes. -/
def tenantManifest (kind : SnapshotKind ι) (env : SnapshotEnv) (index : ι)
    (merge : TenantShardMerge) (published : List (IndexShardRange × List UInt8))
    (manifest : SnapshotManifest) : SnapshotManifest :=
  merge.namePublished env published (merge.carry manifest
    (carriedOf (kind.touched index merge) (merge.base.shardsOf merge.tenant) ∅))

variable {published : List (IndexShardRange × List UInt8)}

theorem run_mergeTenantShards {reads : List (ManifestShard × List UInt8)} {shards : kind.Shards}
    (hreads : merge.Reads s (kind.touched index merge) (merge.base.shardsOf merge.tenant) reads)
    (hfold : merge.foldReads (kind.foldShard merge) reads kind.noShards = .ok shards)
    (hmerge : kind.mergeShards index merge shards = .ok published)
    (hcap : ∀ entry ∈ published, entry.2.length ≤ maxVecLen) :
    env.run (kind.mergeTenantShards index merge manifest) s =
      (.ok (kind.tenantManifest env index merge published manifest),
        merge.publishedStore env published s) := by
  rw [mergeTenantShards, readTouched, run_bind_ok
    (run_readTouchedFrom _ reads _ shards ∅ hreads hfold)]
  dsimp only
  rw [hmerge, run_bind_ok (run_ofExcept _),
    run_publishAll hcap]
  rfl

/-- A shard of the merged tenant is an untouched one of the base or a published one. -/
theorem mem_shardsOf_tenantManifest
    (hdis : ((merge.base.shardsOf merge.tenant).map ManifestShard.range).Nodup)
    (hnew : manifest.shardsOf merge.tenant = []) {shard : ManifestShard} :
    shard ∈ (kind.tenantManifest env index merge published manifest).shardsOf merge.tenant ↔
      (shard ∈ merge.base.shardsOf merge.tenant ∧
        isTouched (kind.touched index merge) shard = false) ∨
      shard ∈ published.map (shardOf env) := by
  rw [tenantManifest, shardsOf_namePublished, if_pos rfl,
    shardsOf_carry, if_pos rfl, hnew, nil_append, mem_append]
  refine or_congr ?_ Iff.rfl
  simp only [mem_map, Prod.exists, ExtTreeMap.mem_toList_iff_getElem?_eq_some,
    getElem?_carriedOf hdis]
  constructor
  · rintro ⟨range, content, ⟨held, hh, hunt, rfl, rfl⟩, rfl⟩
    exact ⟨hh, hunt⟩
  · rintro ⟨hh, hunt⟩
    exact ⟨shard.range, shard.content, ⟨shard, hh, hunt, rfl, rfl⟩, rfl⟩

/-- The merged tenant has one shard a range, when nothing is published at an untouched
range. -/
theorem nodup_tenantManifest
    (hdis : ((merge.base.shardsOf merge.tenant).map ManifestShard.range).Nodup)
    (hpub : (published.map Prod.fst).Nodup)
    (apart : ∀ entry ∈ published, ∀ shard ∈ merge.base.shardsOf merge.tenant,
      shard.range = entry.1 → isTouched (kind.touched index merge) shard = true)
    (hnew : manifest.shardsOf merge.tenant = []) :
    (((kind.tenantManifest env index merge published manifest).shardsOf merge.tenant).map
      ManifestShard.range).Nodup := by
  rw [tenantManifest, shardsOf_namePublished, if_pos rfl,
    shardsOf_carry, if_pos rfl, hnew, nil_append, map_append,
    nodup_append, map_map, map_map]
  refine ⟨?_, hpub, ?_⟩
  · have hks : ∀ carried : ExtTreeMap IndexShardRange String,
        (carried.toList.map (ManifestShard.range ∘ fun (range, content) =>
          ⟨range.start, range.stop, content⟩)).Nodup := by
      intro carried
      have := Collections.nodup_of_ordered carried.ordered_keys
      rwa [← ExtTreeMap.map_fst_toList_eq_keys] at this
    exact hks _
  · rintro range hra _ he rfl
    obtain ⟨⟨r, content⟩, hca, rfl⟩ := mem_map.mp hra
    obtain ⟨entry, he, hr⟩ := mem_map.mp he
    rw [ExtTreeMap.mem_toList_iff_getElem?_eq_some,
      getElem?_carriedOf hdis] at hca
    obtain ⟨shard, hsd, hunt, hra, -⟩ := hca
    rw [apart entry he shard hsd (hra.trans hr.symm)] at hunt
    cases hunt

end SnapshotKind

end KrabkaO11y.Blockstore
