import KrabkaO11y.Profiles.PprofSymbols

/-!
Stacks from an upload to a compacted block (`crates/profiles/src/blockbuilder.rs`,
`blockbuilder/record_writer.rs`, `compactor/compact_blocks_with_policy.rs`,
`compactor/destination_partitions.rs`).

A stored sample keeps the place of its stack in a partition. Interning further records and
copying partitions into another database both keep what a place resolves to, so a stack
resolves after any number of compactions to what its own upload means by it, if every location
has a mapping. One without takes on the first mapping of the block.
-/

namespace KrabkaO11y.Profiles

open Collections Concurrent List SymbolDb

variable (drop : String → String)

/-! ### Building a block -/

/-- The partition that the block builder interns stacks in. -/
def stacktracePartition : Nat := 0

/-- Samples of one series in an upload. -/
structure UploadRecord where
  profile : PprofProfile
  samples : List PprofSample

/-- The symbols and stacks of a WAL record. -/
structure WalStacks where
  symbols : Tables
  traces : List (List Nat)

/-- The positions of a sample's locations. -/
def locationRefs (profile : PprofProfile) (sample : PprofSample) : Except String (List Nat) :=
  sample.locationId.mapM fun id =>
    match idRef (profile.location.map PprofLocation.id) id with
    | some reference => .ok reference
    | none => .error ("sample references missing location id " ++ toString id)

def walStacks (record : UploadRecord) : Except String WalStacks := do
  let symbols ← extractSymbols record.profile
  let traces ← record.samples.mapM (locationRefs record.profile)
  return ⟨symbols, traces⟩

/-- Every line number fits an `i32`. -/
def LinesFit (symbols : Tables) : Prop :=
  ∀ location ∈ symbols.locations, ∀ line ∈ location.lines, -2 ^ 31 ≤ line.line ∧ line.line < 2 ^ 31
deriving Decidable

def internSymbols (tables symbols : Tables) : Except String (Tables × List Nat) :=
  if LinesFit symbols then .ok (internTables remapRef tables symbols)
  else .error "line number does not fit i32: out of range integral type conversion attempted"

def internStacks : SymbolDb → List (List Nat) → SymbolDb × List (Option Nat)
  | db, [] => (db, [])
  | db, stack :: rest =>
    let first := db.internStacktrace stacktracePartition stack
    let others := internStacks first.1 rest
    (others.1, first.2 :: others.2)

def internRecord (db : SymbolDb) (record : WalStacks) :
    Except String (SymbolDb × List (Option Nat)) := do
  let tables ← internSymbols db.tables record.symbols
  return internStacks { db with tables := tables.1 }
    (record.traces.map fun stack => stack.map (remapRef · tables.2))

/-- A stored sample: the place of its stack, and what its upload means by the stack. -/
structure StoredSample where
  partition : Nat
  stacktraceId : Option Nat
  origin : List ResolvedLocation
deriving DecidableEq, Repr

/-- The symbols of a block, the partitions that its index entry lists, and its samples. -/
structure SymbolBlock where
  db : SymbolDb
  partitions : List Nat
  samples : List StoredSample

/-- A location by its id, as the upload means it. -/
def PprofProfile.content (profile : PprofProfile) (id : Nat) : Option ResolvedLocation :=
  (profile.location.find? (·.id = id)).map (profile.locationContent drop)

def PprofProfile.stackContent (profile : PprofProfile) (sample : PprofSample) :
    List ResolvedLocation :=
  sample.locationId.filterMap (profile.content drop)

def addRecord (block : SymbolBlock) (record : UploadRecord) : Except String SymbolBlock := do
  let traces ← walStacks record
  let interned ← internRecord block.db traces
  return { block with
    db := interned.1
    samples := block.samples ++ List.zipWith
      (fun stacktraceId sample =>
        ⟨stacktracePartition, stacktraceId, record.profile.stackContent drop sample⟩)
      interned.2 record.samples }

def buildBlock (records : List UploadRecord) : Except String SymbolBlock :=
  records.foldlM (addRecord drop) ⟨new, [stacktracePartition], []⟩

/-! ### Compacting blocks -/

/-- The partitions of an input, of those that its index entry lists. -/
def sourcePartitions (partitions : List Nat) : List Nat :=
  if partitions = [] then [stacktracePartition]
  else (partitions.insertionSort (· ≤ ·)).dedup

/-- Where the partitions of the input at an index go. -/
def destinationPartitions (blockIdx : Nat) (partitions : List Nat) :
    Except String (List (Nat × Nat)) :=
  if 2 ^ 32 < partitions.length then
    .error ("local partition " ++ toString (2 ^ 32) ++ " does not fit the low 32 bits")
  else .ok (partitions.zipIdx.map fun entry => (entry.1, (blockIdx + 1) * 2 ^ 32 + entry.2))

def remapPartition (map : List (Nat × Nat)) (partition : Nat) : Nat :=
  ((map.find? (·.1 = partition)).map Prod.snd).getD partition

def copyPartitions (source : SymbolDb) (db : SymbolDb) (map : List (Nat × Nat)) :
    Except String SymbolDb :=
  map.foldlM (fun db entry => db.copyPartitionFrom source entry.1 entry.2) db

def mergeBlock (out : SymbolBlock) (input : SymbolBlock × Nat) : Except String SymbolBlock := do
  let map ← destinationPartitions input.2 (sourcePartitions input.1.partitions)
  let db ← copyPartitions input.1.db out.db map
  return ⟨db, out.partitions ++ map.map Prod.snd, out.samples ++ input.1.samples.map fun sample =>
    { sample with partition := remapPartition map sample.partition }⟩

def compactBlocks (blocks : List SymbolBlock) : Except String SymbolBlock :=
  if blocks.length < 2 then .error "compaction requires at least two input blocks"
  else blocks.zipIdx.foldlM mergeBlock ⟨new, [], []⟩

/-- Blocks built of records that meet a condition, and merged any number of times. -/
inductive Stored (condition : UploadRecord → Prop) : SymbolBlock → Prop where
  | built {records : List UploadRecord} {block : SymbolBlock} :
      (∀ record ∈ records, condition record) → buildBlock drop records = .ok block →
        Stored condition block
  | compacted {blocks : List SymbolBlock} {block : SymbolBlock} :
      (∀ input ∈ blocks, Stored condition input) → compactBlocks blocks = .ok block →
        Stored condition block

/-! ### What a place resolves to -/

/-- The stack at a place of a partition resolves to some locations. -/
def Attached (db : SymbolDb) (partition : Nat) (stacktraceId : Option Nat)
    (origin : List ResolvedLocation) : Prop :=
  ∃ refs, Path (db.partitions partition) stacktraceId refs ∧
    List.Forall₂ (fun ref location => db.tables.resolve drop ref = some location) refs origin

/-- References are in range, and callers come before callees. -/
structure SymbolDb.Valid (db : SymbolDb) : Prop where
  closed : Closed db.tables
  grown : ∀ partition, Grown (db.partitions partition)

/-- Every stack of one database resolves in the other to the same. -/
def Keeps (db db' : SymbolDb) : Prop :=
  ∀ partition stacktraceId origin, Attached drop db partition stacktraceId origin →
    Attached drop db' partition stacktraceId origin

variable {drop}

theorem Keeps.trans {db db' db'' : SymbolDb} (h : Keeps drop db db') (h' : Keeps drop db' db'') :
    Keeps drop db db'' :=
  fun partition stacktraceId origin hat => h' _ _ _ (h partition stacktraceId origin hat)

theorem Attached.resolveLocations_eq {db : SymbolDb} {partition : Nat} {stacktraceId : Option Nat}
    {origin : List ResolvedLocation} (h : Attached drop db partition stacktraceId origin) :
    db.resolveLocations drop partition stacktraceId = origin := by
  obtain ⟨refs, hpa, hre⟩ := h
  rw [resolveLocations, hpa.walk]
  clear hpa
  induction hre with
  | nil => rfl
  | cons hf _ ih => rw [filterMap_cons_some hf, ih]

/-- Longer tables and trees keep what every place resolves to. -/
theorem keeps_of_extends {db db' : SymbolDb} (closed : Closed db.tables)
    (htab : Extends db.tables db'.tables)
    (paths : ∀ partition current refs, Path (db.partitions partition) current refs →
      Path (db'.partitions partition) current refs) : Keeps drop db db' := by
  rintro partition stacktraceId origin ⟨refs, hpat, hre⟩
  exact ⟨refs, paths _ _ _ hpat, hre.imp fun _ _ hat => htab.resolve_eq closed hat⟩

theorem valid_new : new.Valid :=
  ⟨⟨nofun, nofun, nofun⟩, fun _ _ _ hno => absurd hno nofun⟩

/-! ### Interning a record -/

theorem internStacktrace_spec {db : SymbolDb} (h : db.Valid) (stack : List Nat) :
    (db.internStacktrace stacktracePartition stack).1.tables = db.tables ∧
      (db.internStacktrace stacktracePartition stack).1.Valid ∧
      (∀ partition, db.partitions partition <+:
        (db.internStacktrace stacktracePartition stack).1.partitions partition) ∧
      Path ((db.internStacktrace stacktracePartition stack).1.partitions stacktracePartition)
        (db.internStacktrace stacktracePartition stack).2 stack := by
  obtain ⟨hin, hgw, hpa⟩ :=
    @internPath_spec stack.reverse _ _ [] (h.grown stacktracePartition) .root
  rw [reverse_reverse, append_nil] at hpa
  refine ⟨rfl, ⟨h.closed, fun partition => ?_⟩, fun partition => ?_, ?_⟩
  · by_cases hp : partition = stacktracePartition
    · subst hp
      simpa only [internStacktrace, Function.update_self] using hgw
    · simpa only [internStacktrace, Function.update_of_ne hp] using h.grown partition
  · by_cases hp : partition = stacktracePartition
    · subst hp
      simpa only [internStacktrace, Function.update_self] using hin
    · simp only [internStacktrace, Function.update_of_ne hp, prefix_rfl]
  · simpa only [internStacktrace, Function.update_self] using hpa

theorem internStacks_spec {traces : List (List Nat)} : ∀ {db : SymbolDb}, db.Valid →
    (internStacks db traces).1.tables = db.tables ∧ (internStacks db traces).1.Valid ∧
      (∀ partition, db.partitions partition <+: (internStacks db traces).1.partitions partition) ∧
      List.Forall₂ (fun stacktraceId stack =>
        Path ((internStacks db traces).1.partitions stacktracePartition) stacktraceId stack)
        (internStacks db traces).2 traces := by
  induction traces with
  | nil => exact fun h => ⟨rfl, h, fun _ => prefix_rfl, .nil⟩
  | cons stack rest ih =>
    intro db h
    obtain ⟨htab, hv, hin, hpa⟩ := internStacktrace_spec h stack
    obtain ⟨hr, hva, hpr, hall⟩ := ih hv
    exact ⟨hr.trans htab, hva,
      fun partition => (hin partition).trans (hpr partition),
      .cons (hpa.mono (hpr stacktracePartition)) hall⟩

/-- The upload is a valid pprof: its ids are unique. -/
def ValidUpload (record : UploadRecord) : Prop := record.profile.UniqueIds

/-- Every location of the upload has a mapping. -/
def Mapped (record : UploadRecord) : Prop :=
  ∀ location ∈ record.profile.location, location.mappingId ≠ 0

section Lists

variable {α β γ : Type} {R : α → β → Prop} {as : List α} {bs : List β}

theorem forall₂_of_common {S : γ → β → Prop} {T : α → γ → Prop}
    (common : ∀ a b c, R a b → S c b → T a c) (h : List.Forall₂ R as bs) :
    ∀ {cs : List γ}, List.Forall₂ S cs bs → List.Forall₂ T as cs := by
  induction h with
  | nil =>
    intro cs h'
    cases h'
    exact .nil
  | cons hf _ ih =>
    intro cs h'
    cases h' with
    | cons hf' hr => exact .cons (common _ _ _ hf hf') (ih hr)

theorem mem_zipWith_of_forall₂ {f : α → β → γ}
    (h : List.Forall₂ R as bs) {c : γ} (hc : c ∈ List.zipWith f as bs) :
    ∃ a b, R a b ∧ c = f a b := by
  induction h with
  | nil => cases hc
  | cons hf _ ih =>
    rcases mem_cons.mp hc with rfl | hc
    · exact ⟨_, _, hf, rfl⟩
    · exact ih hc

end Lists

/-- Positions of a sample's locations resolve, renumbered, to what the upload means. -/
theorem forall₂_stackContent {profile : PprofProfile} {tables : Tables} {renumber : Nat → Nat}
    (hres : ∀ place location, profile.location[place]? = some location →
      tables.resolve drop (renumber place) = some (profile.locationContent drop location))
    (huni : profile.UniqueIds) {sample : PprofSample} {refs : List Nat}
    (hrefs : locationRefs profile sample = .ok refs) :
    List.Forall₂ (fun ref location => tables.resolve drop ref = some location)
      (refs.map renumber) (profile.stackContent drop sample) := by
  have hfo := forall₂_of_mapM_ok hrefs
  clear hrefs
  rw [PprofProfile.stackContent]
  generalize sample.locationId = ids at hfo
  induction hfo with
  | nil => exact .nil
  | @cons id ref ids refs hf _ ih =>
    have hpl : (profile.location.map PprofLocation.id)[ref]? = some id := by
      split at hf <;> cases hf
      rename_i hid
      exact getElem?_of_idRef hid
    obtain ⟨location, hat, hfi⟩ := find?_of_position huni.location hpl
    have hco : profile.content drop id = some (profile.locationContent drop location) := by
      rw [PprofProfile.content, hfi, Option.map_some]
    rw [filterMap_cons_some hco, map_cons]
    exact .cons (hres ref location hat) ih

/-- Every sample of the block is attached to what its upload means by its stack. -/
structure Faithful (drop : String → String) (block : SymbolBlock) : Prop where
  valid : block.db.Valid
  samples : ∀ sample ∈ block.samples, sample.partition ∈ block.partitions ∧
    Attached drop block.db sample.partition sample.stacktraceId sample.origin

variable {block : SymbolBlock}

theorem addRecord_faithful {block' : SymbolBlock} {record : UploadRecord} (h : Faithful drop block)
    (hp : stacktracePartition ∈ block.partitions) (huni : ValidUpload record) (hmpd : Mapped record)
    (hadd : addRecord drop block record = .ok block') :
    Faithful drop block' ∧ block'.partitions = block.partitions := by
  obtain ⟨wal, hwal, hadd⟩ := except_bind_eq_ok.mp hadd
  obtain ⟨interned, hint, hadd⟩ := except_bind_eq_ok.mp hadd
  cases hadd
  obtain ⟨symbols, hsy, hwal⟩ := except_bind_eq_ok.mp hwal
  obtain ⟨traces, htr, hwal⟩ := except_bind_eq_ok.mp hwal
  cases hwal
  obtain ⟨tables, htab, hint⟩ := except_bind_eq_ok.mp hint
  cases hint
  rw [internSymbols] at htab
  split at htab
  swap
  · cases htab
  cases htab
  have hex := extractSymbols_ok hsy
  have hcl := hex.closed hmpd
  set result := internTables remapRef block.db.tables symbols with hres
  have hv : SymbolDb.Valid { block.db with tables := result.1 } :=
    ⟨closed_internTables looks_remapRef h.valid.closed hcl, h.valid.grown⟩
  obtain ⟨hsm, hva, hini, hpa⟩ := @internStacks_spec
    (traces.map fun trace => trace.map (remapRef · result.2)) _ hv
  set db := (internStacks { block.db with tables := result.1 }
    (traces.map fun trace => trace.map (remapRef · result.2))).1
  have hk : Keeps drop block.db db := by
    refine keeps_of_extends h.valid.closed ?_ fun partition current refs hpat =>
      hpat.mono (hini partition)
    rw [hsm]
    exact extends_internTables
  obtain ⟨string, function, mapping, hren⟩ :=
    @renumbers_internTables remapRef block.db.tables symbols looks_remapRef
  have hreso : ∀ place location, record.profile.location[place]? = some location →
      db.tables.resolve drop (remapRef place result.2) =
        some (record.profile.locationContent drop location) := by
    intro place location hat
    rw [hsm]
    exact hren.resolve_eq hcl
      (hex.resolve_eq huni hat (hmpd location (mem_of_getElem? hat)))
  have hre : List.Forall₂ (fun sample trace => locationRefs record.profile sample = .ok trace)
      record.samples traces := forall₂_of_mapM_ok htr
  have hatt := forall₂_of_common (T := fun stacktraceId sample =>
      Attached drop db stacktracePartition stacktraceId (record.profile.stackContent drop sample))
    (fun stacktraceId trace sample hpat hre =>
      ⟨trace.map (remapRef · result.2), hpat,
        forall₂_stackContent hreso huni hre⟩)
    (forall₂_map_right_iff.mp hpa) hre
  refine ⟨⟨hva, fun sample hsam => ?_⟩, rfl⟩
  rcases mem_append.mp hsam with hold | hnew
  · obtain ⟨hin, hat⟩ := h.samples sample hold
    exact ⟨hin, hk _ _ _ hat⟩
  · obtain ⟨stacktraceId, source, hat, rfl⟩ := mem_zipWith_of_forall₂ hatt hnew
    exact ⟨hp, hat⟩

theorem buildBlock_faithful {records : List UploadRecord}
    (hrecords : ∀ record ∈ records, ValidUpload record ∧ Mapped record)
    (h : buildBlock drop records = .ok block) : Faithful drop block := by
  have hfo : ∀ (records : List UploadRecord) (start : SymbolBlock), Faithful drop start →
      stacktracePartition ∈ start.partitions →
        (∀ record ∈ records, ValidUpload record ∧ Mapped record) →
          records.foldlM (addRecord drop) start = .ok block → Faithful drop block := by
    intro records
    induction records with
    | nil =>
      intro start hst _ _ hok
      cases hok
      exact hst
    | cons record rest ih =>
      intro start hst hp hall hok
      rw [foldlM_cons] at hok
      obtain ⟨next, hn, hok⟩ := except_bind_eq_ok.mp hok
      obtain ⟨huni, hmpd⟩ := hall record mem_cons_self
      obtain ⟨hfa, hsm⟩ := addRecord_faithful hst hp huni hmpd hn
      exact ih next hfa (hsm ▸ hp)
        (fun other ho => hall other (mem_cons_of_mem _ ho)) hok
  exact hfo records _ ⟨valid_new, fun _ hsam => absurd hsam not_mem_nil⟩ mem_cons_self hrecords h

/-! ### Copying partitions -/

theorem path_nil {current : Option Nat} {refs : List Nat} (h : Path [] current refs) :
    current = none ∧ refs = [] := by
  cases h with
  | root => exact ⟨rfl, rfl⟩
  | node hno _ _ => cases hno

theorem copyPartitionFrom_spec {db db' source : SymbolDb} {sourcePartition destPartition : Nat}
    (h : db.Valid) (hsrc : source.Valid)
    (copy : db.copyPartitionFrom source sourcePartition destPartition = .ok db') :
    db'.Valid ∧ Keeps drop db db' ∧ ∀ stacktraceId origin,
      Attached drop source sourcePartition stacktraceId origin →
        Attached drop db' destPartition stacktraceId origin := by
  rw [copyPartitionFrom] at copy
  split at copy
  · -- Nothing to copy: only the empty stack has a place.
    rename_i hnil
    cases copy
    refine ⟨h, fun _ _ _ hat => hat, ?_⟩
    rintro stacktraceId origin ⟨refs, hpa, hre⟩
    rw [hnil] at hpa
    obtain ⟨rfl, rfl⟩ := path_nil hpa
    cases hre
    exact ⟨[], .root, .nil⟩
  · split at copy <;> cases copy
    rename_i hem
    have hem : db.partitions destPartition = [] := not_not.mp hem
    obtain ⟨string, function, mapping, hren⟩ :=
      @renumbers_internTables remapIndex db.tables source.tables looks_remapIndex
    refine ⟨⟨closed_internTables looks_remapIndex h.closed hsrc.closed, fun partition => ?_⟩,
      keeps_of_extends h.closed extends_internTables fun partition current refs hpa => ?_, ?_⟩
    · by_cases hp : partition = destPartition
      · subst hp
        simp only [Function.update_self]
        intro current node hno parent hpar
        rw [getElem?_map] at hno
        obtain ⟨old, hold, rfl⟩ := Option.map_eq_some_iff.mp hno
        exact hsrc.grown sourcePartition current old hold parent hpar
      · simp only [Function.update_of_ne hp]
        exact h.grown partition
    · by_cases hp : partition = destPartition
      · subst hp
        rw [hem] at hpa
        obtain ⟨rfl, rfl⟩ := path_nil hpa
        exact .root
      · simp only [Function.update_of_ne hp]
        exact hpa
    · rintro stacktraceId origin ⟨refs, hpa, hre⟩
      refine ⟨refs.map (remapIndex · (internTables remapIndex db.tables source.tables).2), ?_, ?_⟩
      · simp only [Function.update_self]
        exact hpa.map (remapIndex · (internTables remapIndex db.tables source.tables).2)
      · rw [forall₂_map_left_iff]
        exact hre.imp fun _ _ hat => hren.resolve_eq hsrc.closed hat

variable {map : List (Nat × Nat)}

theorem copyPartitions_spec {source : SymbolDb} (hsrc : source.Valid) :
    ∀ {db db' : SymbolDb}, db.Valid → copyPartitions source db map = .ok db' →
      db'.Valid ∧ Keeps drop db db' ∧ ∀ entry ∈ map, ∀ stacktraceId origin,
        Attached drop source entry.1 stacktraceId origin →
          Attached drop db' entry.2 stacktraceId origin := by
  induction map with
  | nil =>
    intro db db' h hco
    cases hco
    exact ⟨h, fun _ _ _ hat => hat, nofun⟩
  | cons entry rest ih =>
    intro db db' h hco
    rw [copyPartitions, foldlM_cons] at hco
    obtain ⟨next, hn, hco⟩ := except_bind_eq_ok.mp hco
    obtain ⟨hv, hk, hf⟩ : next.Valid ∧ Keeps drop db next ∧ _ :=
      copyPartitionFrom_spec h hsrc hn
    obtain ⟨hv', hk', hr⟩ := ih hv hco
    refine ⟨hv', hk.trans hk', fun other ho stacktraceId origin hat => ?_⟩
    rcases mem_cons.mp ho with rfl | ho
    · exact hk' _ _ _ (hf stacktraceId origin hat)
    · exact hr other ho stacktraceId origin hat

/-- A partition that the index lists has a destination. -/
theorem remapPartition_mem {blockIdx : Nat}
    (hmap : destinationPartitions blockIdx (sourcePartitions block.partitions) = .ok map)
    {partition : Nat} (hp : partition ∈ block.partitions) :
    (partition, remapPartition map partition) ∈ map := by
  have hsrc : partition ∈ sourcePartitions block.partitions := by
    rw [sourcePartitions, if_neg (ne_nil_of_mem hp), mem_dedup,
      mem_insertionSort]
    exact hp
  rw [destinationPartitions] at hmap
  split at hmap
  · cases hmap
  cases hmap
  obtain ⟨i, hi⟩ := getElem?_of_mem hsrc
  have hmem : (partition, (blockIdx + 1) * 2 ^ 32 + i) ∈
      (sourcePartitions block.partitions).zipIdx.map fun entry =>
        (entry.1, (blockIdx + 1) * 2 ^ 32 + entry.2) :=
    mem_map.mpr ⟨(partition, i), mem_zipIdx_iff_getElem?.mpr hi, rfl⟩
  obtain ⟨entry, he⟩ : ∃ entry, List.find? (·.1 = partition)
      ((sourcePartitions block.partitions).zipIdx.map fun entry =>
        (entry.1, (blockIdx + 1) * 2 ^ 32 + entry.2)) = some entry :=
    Option.isSome_iff_exists.mp (find?_isSome.mpr ⟨_, hmem, by simp⟩)
  have hkey : entry.1 = partition := by simpa using find?_some he
  rw [remapPartition, he, Option.map_some, Option.getD_some, ← hkey]
  exact mem_of_find?_eq_some he

theorem mergeBlock_faithful {out out' : SymbolBlock} {input : SymbolBlock × Nat}
    (h : Faithful drop out) (hinp : Faithful drop input.1)
    (merge : mergeBlock out input = .ok out') : Faithful drop out' := by
  obtain ⟨map, hmap, merge⟩ := except_bind_eq_ok.mp merge
  obtain ⟨db, hdb, merge⟩ := except_bind_eq_ok.mp merge
  cases merge
  obtain ⟨hv, hk, hco⟩ : db.Valid ∧ Keeps drop out.db db ∧ _ :=
    copyPartitions_spec hinp.valid h.valid hdb
  refine ⟨hv, fun sample hsam => ?_⟩
  rcases mem_append.mp hsam with hold | hnew
  · obtain ⟨hin, hat⟩ := h.samples sample hold
    exact ⟨mem_append_left _ hin, hk _ _ _ hat⟩
  · obtain ⟨source, hsrc, rfl⟩ := mem_map.mp hnew
    obtain ⟨hin, hat⟩ := hinp.samples source hsrc
    have he := remapPartition_mem hmap hin
    exact ⟨mem_append_right _ (mem_map_of_mem he), hco _ he _ _ hat⟩

theorem compactBlocks_faithful {blocks : List SymbolBlock}
    (hblocks : ∀ input ∈ blocks, Faithful drop input) (h : compactBlocks blocks = .ok block) :
    Faithful drop block := by
  have hfo : ∀ (inputs : List (SymbolBlock × Nat)) (start : SymbolBlock), Faithful drop start →
      (∀ input ∈ inputs, Faithful drop input.1) → inputs.foldlM mergeBlock start = .ok block →
        Faithful drop block := by
    intro inputs
    induction inputs with
    | nil =>
      intro start hst _ hok
      cases hok
      exact hst
    | cons input rest ih =>
      intro start hst hall hok
      rw [foldlM_cons] at hok
      obtain ⟨next, hn, hok⟩ := except_bind_eq_ok.mp hok
      exact ih next (mergeBlock_faithful hst (hall input mem_cons_self) hn)
        (fun other ho => hall other (mem_cons_of_mem _ ho)) hok
  rw [compactBlocks] at h
  split at h
  · cases h
  refine hfo _ _ ⟨valid_new, fun _ hsam => absurd hsam not_mem_nil⟩ (fun input hin => ?_) h
  exact hblocks _ (mem_of_getElem? (mem_zipIdx_iff_getElem?.mp hin))

/-- Every stored sample of a block that is built of valid uploads whose locations have mappings,
or merged from such blocks, resolves to exactly what its own upload means by its stack. -/
theorem stored_samples_resolve {block : SymbolBlock}
    (h : Stored drop (fun record => ValidUpload record ∧ Mapped record) block) :
    ∀ sample ∈ block.samples,
      block.db.resolveLocations drop sample.partition sample.stacktraceId = sample.origin := by
  have hfaithful : Faithful drop block := by
    induction h with
    | built hrecords hbuild => exact buildBlock_faithful hrecords hbuild
    | compacted _ hcompact ih => exact compactBlocks_faithful ih hcompact
  exact fun sample hsample => (hfaithful.samples sample hsample).2.resolveLocations_eq

/-- One location of one function, with the id of its mapping, in a profile with one mapping. -/
def sampleProfile (mappingId : Nat) : PprofProfile :=
  { stringTable := ["", "main", "app"]
    sampleType := []
    periodType := none
    function := [⟨1, 1, 1, 0, 10⟩]
    mapping := [⟨1, 0, 4096, 0, 2, 0, ⟨true, true, true, true⟩⟩]
    location := [⟨1, mappingId, 64, [⟨1, 12⟩]⟩]
    sample := [⟨[1], [5], []⟩]
    comment := []
    dropFrames := 0
    keepFrames := 0
    defaultSampleType := 0
    timeNanos := 0 }

def sampleUpload (mappingId : Nat) : UploadRecord := ⟨sampleProfile mappingId, [⟨[1], [5], []⟩]⟩

theorem uniqueIds_sampleProfile (mappingId : Nat) : (sampleProfile mappingId).UniqueIds :=
  ⟨nodup_singleton _, nodup_singleton _, nodup_singleton _⟩

/-- Two blocks of the upload with its mapping, merged. -/
theorem stored_samples_resolve_mapped :
    ∃ block, Stored id (fun record => ValidUpload record ∧ Mapped record) block ∧
      block.samples.length = 2 ∧ ∀ sample ∈ block.samples,
        block.db.resolveLocations id sample.partition sample.stacktraceId = sample.origin := by
  obtain ⟨input, hinput, block, hblock, hlength⟩ : ∃ input,
      buildBlock id [sampleUpload 1] = .ok input ∧ ∃ block,
        compactBlocks [input, input] = .ok block ∧ block.samples.length = 2 :=
    ⟨_, rfl, _, rfl, rfl⟩
  have hcondition : ValidUpload (sampleUpload 1) ∧ Mapped (sampleUpload 1) := by
    refine ⟨uniqueIds_sampleProfile 1, fun location hlocation => ?_⟩
    rw [mem_singleton.mp hlocation]
    exact one_ne_zero
  have hstored : Stored id (fun record => ValidUpload record ∧ Mapped record) input :=
    .built (fun record hrecord => by rwa [mem_singleton.mp hrecord]) hinput
  have hcompacted : Stored id (fun record => ValidUpload record ∧ Mapped record) block := by
    refine .compacted (fun other hother => ?_) hblock
    have : other = input := by simpa using hother
    rwa [this]
  exact ⟨block, hcompacted, hlength, stored_samples_resolve hcompacted⟩

/-- A location without a mapping resolves to the first mapping of the block. -/
theorem unmapped_location_resolves_to_mapping :
    ∃ block, Stored id ValidUpload block ∧ ∃ sample ∈ block.samples,
      sample.origin = [⟨64, none, [⟨⟨"main", "main", "", 10⟩, 12⟩]⟩] ∧
        block.db.resolveLocations id sample.partition sample.stacktraceId =
          [⟨64, some ⟨0, 4096, 0, "app", "", ⟨true, true, true, true⟩⟩,
            [⟨⟨"main", "main", "", 10⟩, 12⟩]⟩] := by
  obtain ⟨block, hblock, sample, hsample, horigin, hresolved⟩ : ∃ block,
      buildBlock id [sampleUpload 0] = .ok block ∧ ∃ sample ∈ block.samples,
        sample.origin = [⟨64, none, [⟨⟨"main", "main", "", 10⟩, 12⟩]⟩] ∧
          block.db.resolveLocations id sample.partition sample.stacktraceId =
            [⟨64, some ⟨0, 4096, 0, "app", "", ⟨true, true, true, true⟩⟩,
              [⟨⟨"main", "main", "", 10⟩, 12⟩]⟩] :=
    ⟨_, rfl, _, mem_cons_self, rfl, rfl⟩
  refine ⟨block, .built (fun record hrecord => ?_) hblock, sample, hsample, horigin, hresolved⟩
  rw [mem_singleton.mp hrecord]
  exact uniqueIds_sampleProfile 0

end KrabkaO11y.Profiles
