import KrabkaO11y.Collections.Chunks
import KrabkaO11y.Collections.Upsert
import KrabkaO11y.Concurrent.System

/-!
The profile block builder over whole runs with crashes
(`crates/profiles/src/blockbuilder/run_with_config.rs`, `record_writer.rs`), the hot tail, and
the union of both (`crates/pprof/src/union_store`).

A flush writes blocks, saves the index, and commits, and the builder may stop between any two of
these. Every block holds the records of one tenant and partition between two offsets, and its
object key says which, so a replay that cuts the same blocks changes nothing. One that cuts
others puts a sample in the index twice: the union removes hot rows against cold ones only.
-/

namespace KrabkaO11y.Profiles.Replay

open Collections Concurrent.System List Function

variable {n : Nat} {α : Type}

structure Record (α : Type) where
  tenant : String
  samples : List α
deriving DecidableEq, Repr

structure PositionedRecord (n : Nat) (α : Type) where
  partition : Fin n
  offset : Nat
  record : Record α
deriving DecidableEq, Repr

/-- The identity of a WAL sample; the hash of the record that it also carries is determined by
the position. -/
structure SampleIdentity (n : Nat) where
  partition : Fin n
  offset : Nat
  ordinal : Nat
deriving DecidableEq, Repr

structure Row (n : Nat) (α : Type) where
  identity : SampleIdentity n
  tenant : String
  sample : α
deriving DecidableEq, Repr

structure ObjectKey (n : Nat) where
  tenant : String
  partition : Fin n
  minOffset : Nat
  maxOffset : Nat
  minTs : Int
  maxTs : Int
deriving DecidableEq, Repr

structure Block (n : Nat) (α : Type) where
  objectKey : ObjectKey n
  rows : List (Row n α)
deriving DecidableEq, Repr

/-- The records of a partition with their offsets. -/
def positioned (logs : Fin n → List (Record α)) (p : Fin n) : List (PositionedRecord n α) :=
  (logs p).zipIdx.map fun entry => ⟨p, entry.2, entry.1⟩

def rowsOf (entry : PositionedRecord n α) : List (Row n α) :=
  entry.record.samples.zipIdx.map fun sample =>
    ⟨⟨entry.partition, entry.offset, sample.2⟩, entry.record.tenant, sample.1⟩

/-! ### Flushing -/

/-- How the block builder is set up, and the time of a sample in milliseconds. -/
structure Config (α : Type) where
  flushRecords : Nat
  timestampMs : α → Int

theorem Config.pos_flushRecords (config : Config α) : 0 < max config.flushRecords 1 := by omega

def writeBlock (config : Config α) (tenant : String) (p : Fin n)
    (entries : List (PositionedRecord n α)) : Block n α :=
  let rows := entries.flatMap rowsOf
  let times := rows.map fun row => config.timestampMs row.sample
  { objectKey :=
      { tenant := tenant
        partition := p
        minOffset := (entries.head?.map PositionedRecord.offset).getD 0
        maxOffset := (entries.getLast?.map PositionedRecord.offset).getD 0
        minTs := times.foldl min (2 ^ 63 - 1)
        maxTs := times.foldl max (-2 ^ 63) }
    rows := rows }

/-- The records of a tenant and partition, by offset. -/
def tenantRecords (records : List (PositionedRecord n α)) (tenant : String) (p : Fin n) :
    List (PositionedRecord n α) :=
  (records.filter fun entry => entry.partition = p ∧ entry.record.tenant = tenant).insertionSort
    fun a b => a.offset ≤ b.offset

/-- The blocks that a flush writes. -/
def flushBlocks (config : Config α) (records : List (PositionedRecord n α)) : List (Block n α) :=
  (records.map fun entry => (entry.record.tenant, entry.partition)).dedup.flatMap fun key =>
    (chunks (max config.flushRecords 1) (tenantRecords records key.1 key.2)).map
      (writeBlock config key.1 key.2)

/-- A block written under the object key of another. -/
def Block.replace (block new : Block n α) : Block n α := { block with rows := new.rows }

/-- Adding a block to the index replaces the one that has its object key. -/
def addBlocks (index blocks : List (Block n α)) : List (Block n α) :=
  upsertAll Block.objectKey Block.replace index blocks

/-! ### The system -/

/-- Where the builder stands between two polls. -/
inductive Phase where
  | polling
  | flushed
  | saved
deriving DecidableEq, Repr

structure Builder (n : Nat) (α : Type) where
  index : List (Block n α)
  records : List (PositionedRecord n α)
  position : Fin n → Nat
  phase : Phase

/-- The logs, the durable state of the builder, the builder while it runs, and what the hot tail
has applied of each partition. -/
structure State (n : Nat) (α : Type) where
  logs : Fin n → List (Record α)
  committed : Fin n → Nat
  saved : List (Block n α)
  builder : Option (Builder n α)
  applied : Fin n → Nat

inductive Event (n : Nat) (α : Type) where
  | append (p : Fin n) (record : Record α)
  | tail (p : Fin n) (upto : Nat)
  | start
  | poll (p : Fin n) (count : Nat)
  | flush
  | saveIndex
  | commit
  | crash

def Builder.poll (logs : Fin n → List (Record α)) (builder : Builder n α) (p : Fin n)
    (count : Nat) : Builder n α :=
  let polled := ((positioned logs p).drop (builder.position p)).take count
  { builder with
    records := builder.records ++ polled
    position := update builder.position p (builder.position p + polled.length) }

def step (config : Config α) (s : State n α) : Event n α → Option (State n α)
  | .append p record =>
    some { s with logs := update s.logs p (s.logs p ++ [record]) }
  | .tail p upto => some { s with applied := update s.applied p upto }
  | .start =>
    match s.builder with
    | some _ => none
    | none => some { s with builder := some ⟨s.saved, [], s.committed, .polling⟩ }
  | .poll p count => do
    let builder ← s.builder
    if builder.phase = .polling then
      some { s with builder := some (builder.poll s.logs p count) }
    else none
  | .flush => do
    let builder ← s.builder
    if builder.phase = .polling ∧ builder.records ≠ [] then
      some { s with builder := some { builder with
        index := addBlocks builder.index (flushBlocks config builder.records)
        phase := .flushed } }
    else none
  | .saveIndex => do
    let builder ← s.builder
    if builder.phase = .flushed then
      some { s with saved := builder.index, builder := some { builder with phase := .saved } }
    else none
  | .commit => do
    let builder ← s.builder
    if builder.phase = .saved then
      some { s with
        committed := builder.position
        builder := some { builder with records := [], phase := .polling } }
    else none
  | .crash => some { s with builder := none }

def initial (s : State n α) : Prop :=
  s.committed = (fun _ => 0) ∧ s.saved = [] ∧ s.builder = none

/-! ### Queries -/

/-- A query: a tenant, and which of its samples have the type, match and lie in the range. -/
structure Query (α : Type) where
  tenant : String
  selects : α → Bool

def Query.rows (query : Query α) (rows : List (Row n α)) : List (Row n α) :=
  rows.filter fun row => row.tenant = query.tenant && query.selects row.sample

def coldRows (s : State n α) : List (Row n α) := s.saved.flatMap Block.rows

def hotRows (s : State n α) : List (Row n α) :=
  (List.finRange n).flatMap fun p => ((positioned s.logs p).take (s.applied p)).flatMap rowsOf

/-- Hot rows without those whose sample a cold row has, and all cold rows. -/
def union (hot cold : List (Row n α)) : List (Row n α) :=
  (hot.filter fun row => row.identity ∉ cold.map Row.identity) ++ cold

def select (s : State n α) (query : Query α) : List (Row n α) :=
  union (query.rows (hotRows s)) (query.rows (coldRows s))

/-- Every query finds no sample twice, and finds all that is committed or applied. -/
structure CountedOnce (s : State n α) : Prop where
  once : ∀ query, ((select s query).map Row.identity).Nodup
  found : ∀ query p, ∀ entry ∈ positioned s.logs p,
    entry.offset < s.committed p ∨ entry.offset < s.applied p →
      ∀ row ∈ query.rows (rowsOf entry), row.identity ∈ (select s query).map Row.identity

/-! ### Positions and identities -/

variable {logs logs' : Fin n → List (Record α)} {config : Config α}

/-- Offsets of a partition ascend. -/
theorem pairwise_positioned (logs : Fin n → List (Record α)) (p : Fin n) :
    (positioned logs p).Pairwise fun a b => a.offset < b.offset := by
  rw [positioned, pairwise_map]
  have offsets : ((logs p).zipIdx.map Prod.snd).Pairwise (· < ·) := by
    rw [zipIdx_map_snd]
    exact pairwise_lt_range' 1
  exact pairwise_map.mp offsets

theorem length_positioned (logs : Fin n → List (Record α)) (p : Fin n) :
    (positioned logs p).length = (logs p).length := by
  rw [positioned, length_map, length_zipIdx]

variable {entry : PositionedRecord n α} {p : Fin n}

theorem partition_of_mem (h : entry ∈ positioned logs p) : entry.partition = p := by
  obtain ⟨_, -, rfl⟩ := mem_map.mp h
  rfl

variable {entries : List (PositionedRecord n α)}

/-- An offset of a partition has one record. -/
theorem eq_of_offset_eq
    (sorted : entries.Pairwise fun a b => a.offset < b.offset) {a b : PositionedRecord n α}
    (ha : a ∈ entries) (hb : b ∈ entries) (h : a.offset = b.offset) : a = b := by
  have nodup : (entries.map PositionedRecord.offset).Nodup :=
    (pairwise_map.mpr sorted).imp Nat.ne_of_lt
  exact inj_on_of_nodup_map nodup ha hb h

/-- The first records of a log are those of smaller offsets. -/
theorem mem_take_positioned {k : Nat} (h : entry ∈ positioned logs p) :
    entry ∈ (positioned logs p).take k ↔ entry.offset < k := by
  obtain ⟨pair, hpair, rfl⟩ := mem_map.mp h
  rw [positioned, ← map_take, mem_map]
  constructor
  · rintro ⟨other, ho, heq⟩
    have hoff : other.2 = pair.2 := congrArg PositionedRecord.offset heq
    obtain ⟨i, hi, rfl⟩ := mem_iff_getElem.mp ho
    rw [length_take] at hi
    rw [getElem_take, getElem_zipIdx] at hoff
    dsimp only at hoff ⊢
    omega
  · intro hlt
    refine ⟨pair, ?_, rfl⟩
    obtain ⟨i, hi, rfl⟩ := mem_iff_getElem.mp hpair
    rw [getElem_zipIdx] at hlt ⊢
    dsimp only at hlt
    refine mem_iff_getElem.mpr ⟨i, ?_, ?_⟩
    · rw [length_take]
      omega
    · rw [getElem_take, getElem_zipIdx]

variable {row : Row n α}

/-- A row is identified by the position of its record. -/
theorem identity_of_mem_rowsOf (h : row ∈ rowsOf entry) :
    row.identity.partition = entry.partition ∧
      row.identity.offset = entry.offset ∧ row.tenant = entry.record.tenant := by
  obtain ⟨_, -, rfl⟩ := mem_map.mp h
  exact ⟨rfl, rfl, rfl⟩

/-- A sample is of one record. -/
theorem eq_of_identity {entry' : PositionedRecord n α} {row' : Row n α}
    (hlogged : entry ∈ positioned logs entry.partition)
    (hlogged' : entry' ∈ positioned logs entry'.partition) (hin : row ∈ rowsOf entry)
    (hin' : row' ∈ rowsOf entry') (heq : row.identity = row'.identity) : entry = entry' := by
  obtain ⟨hpartition, hoffset, -⟩ := identity_of_mem_rowsOf hin
  obtain ⟨hpartition', hoffset', -⟩ := identity_of_mem_rowsOf hin'
  have hsame : entry.partition = entry'.partition := by rw [← hpartition, ← hpartition', heq]
  rw [← hsame] at hlogged'
  refine eq_of_offset_eq (pairwise_positioned logs _) hlogged hlogged' ?_
  rw [← hoffset, ← hoffset', heq]

/-- The samples of a record are told apart by their index. -/
theorem nodup_rowsOf (entry : PositionedRecord n α) : ((rowsOf entry).map Row.identity).Nodup := by
  rw [rowsOf, map_map]
  have ordinals : (entry.record.samples.zipIdx.map Prod.snd).Nodup := by
    rw [zipIdx_map_snd]
    exact nodup_range'
  refine List.Nodup.of_map SampleIdentity.ordinal ?_
  rw [map_map]
  exact ordinals

/-- The rows of records at different offsets are different samples. -/
theorem nodup_flatMap_rowsOf
    (sorted : entries.Pairwise fun a b => a.offset < b.offset) :
    ((entries.flatMap rowsOf).map Row.identity).Nodup := by
  rw [map_flatMap, nodup_flatMap]
  refine ⟨fun entry _ => nodup_rowsOf entry, sorted.imp fun hlt => ?_⟩
  intro identity ha hb
  obtain ⟨row, hrow, rfl⟩ := mem_map.mp ha
  obtain ⟨row', hrow', heq⟩ := mem_map.mp hb
  have hoff := (identity_of_mem_rowsOf hrow).2.1
  have hoff' := (identity_of_mem_rowsOf hrow').2.1
  rw [heq] at hoff'
  omega

/-- The hot tail applies a record once. -/
theorem nodup_hotRows (s : State n α) : ((hotRows s).map Row.identity).Nodup := by
  rw [hotRows, map_flatMap, nodup_flatMap]
  refine ⟨fun p _ => nodup_flatMap_rowsOf
    ((pairwise_positioned s.logs p).sublist (take_sublist _ _)), ?_⟩
  refine (nodup_finRange n).imp fun {p q} hne identity hp hq => hne ?_
  have hpartition {p : Fin n} (h : identity ∈
      (((positioned s.logs p).take (s.applied p)).flatMap rowsOf).map Row.identity) :
      identity.partition = p := by
    obtain ⟨row, hrow, rfl⟩ := mem_map.mp h
    obtain ⟨entry, he, hmem⟩ := mem_flatMap.mp hrow
    exact (identity_of_mem_rowsOf hmem).1.trans (partition_of_mem (mem_of_mem_take he))
  exact (hpartition hp).symm.trans (hpartition hq)

/-! ### Blocks and their keys -/

/-- The records of a tenant in a partition. -/
def tenantLog (logs : Fin n → List (Record α)) (tenant : String) (p : Fin n) :
    List (PositionedRecord n α) :=
  (positioned logs p).filter fun entry => entry.partition = p ∧ entry.record.tenant = tenant

/-- The block holds consecutive records of a tenant in a partition. -/
def Cut (config : Config α) (logs : Fin n → List (Record α)) (block : Block n α) : Prop :=
  ∃ tenant p entries, entries ≠ [] ∧ entries <:+: tenantLog logs tenant p ∧
    block = writeBlock config tenant p entries

theorem pairwise_tenantLog (logs : Fin n → List (Record α)) (tenant : String) (p : Fin n) :
    (tenantLog logs tenant p).Pairwise fun a b => a.offset < b.offset :=
  (pairwise_positioned logs p).filter _

/-- A part of a sorted list is what lies between its ends. -/
theorem eq_filter_section {β : Type*} {f : β → Nat} {whole part : List β}
    (sorted : whole.Pairwise fun a b => f a < f b) (hp : part <:+: whole) {low high : Nat}
    (hlow : part.head?.map f = some low) (hhigh : part.getLast?.map f = some high) :
    part = whole.filter fun x => low ≤ f x ∧ f x ≤ high := by
  obtain ⟨before, after, rfl⟩ := hp
  obtain ⟨first, hf, rfl⟩ := Option.map_eq_some_iff.mp hlow
  obtain ⟨last, hl, rfl⟩ := Option.map_eq_some_iff.mp hhigh
  have firstmem := mem_of_head? hf
  have lastmem := mem_of_getLast? hl
  obtain ⟨hleft, -, ha⟩ := pairwise_append.mp sorted
  obtain ⟨-, hmid, hbef⟩ := pairwise_append.mp hleft
  have hbnd : ∀ x ∈ part, f first ≤ f x ∧ f x ≤ f last := by
    intro x hx
    constructor
    · obtain ⟨rest, rfl⟩ := head?_eq_some_iff.mp hf
      rcases mem_cons.mp hx with rfl | hx
      · exact le_rfl
      · exact ((pairwise_cons.mp hmid).1 x hx).le
    · obtain ⟨rest, rfl⟩ := getLast?_eq_some_iff.mp hl
      rcases mem_append.mp hx with hx | hx
      · exact ((pairwise_append.mp hmid).2.2 x hx last mem_cons_self).le
      · rw [mem_singleton.mp hx]
  rw [filter_append, filter_append,
    filter_eq_nil_iff.mpr fun x hx => by
      have := hbef x hx first firstmem
      simp only [decide_eq_true_eq]
      omega,
    filter_eq_self.mpr fun x hx => by simpa using hbnd x hx,
    filter_eq_nil_iff.mpr fun x hx => by
      have := ha last (mem_append_right _ lastmem) x hx
      simp only [decide_eq_true_eq]
      omega,
    nil_append, append_nil]

variable {block : Block n α}

/-- The object key of a block says what it holds. -/
theorem Cut.ext {block' : Block n α} (h : Cut config logs block) (h' : Cut config logs block')
    (hkey : block.objectKey = block'.objectKey) : block = block' := by
  obtain ⟨tenant, p, entries, hne, hsec, rfl⟩ := h
  obtain ⟨tenant', p', entries', hne', hsec', rfl⟩ := h'
  obtain rfl : tenant = tenant' := congrArg ObjectKey.tenant hkey
  obtain rfl : p = p' := congrArg ObjectKey.partition hkey
  have hlow := congrArg ObjectKey.minOffset hkey
  have high := congrArg ObjectKey.maxOffset hkey
  simp only [writeBlock, head?_eq_some_head hne, head?_eq_some_head hne',
    getLast?_eq_some_getLast hne, getLast?_eq_some_getLast hne', Option.map_some,
    Option.getD_some] at hlow high
  have sorted := pairwise_tenantLog logs tenant p
  have hentries := eq_filter_section sorted hsec
    (congrArg (Option.map _) (head?_eq_some_head hne))
    (congrArg (Option.map _) (getLast?_eq_some_getLast hne))
  have hentries' := eq_filter_section sorted hsec'
    (congrArg (Option.map _) (head?_eq_some_head hne'))
    (congrArg (Option.map _) (getLast?_eq_some_getLast hne'))
  rw [hlow, high, ← hentries'] at hentries
  rw [hentries]

/-- A block has no sample twice. -/
theorem Cut.nodup (h : Cut config logs block) :
    (block.rows.map Row.identity).Nodup := by
  obtain ⟨tenant, p, entries, -, hsec, rfl⟩ := h
  exact nodup_flatMap_rowsOf ((pairwise_tenantLog logs tenant p).sublist hsec.sublist)

/-- A cut of a log is one of every longer log. -/
theorem Cut.mono (hlogs : ∀ p, positioned logs p <+: positioned logs' p)
    (h : Cut config logs block) :
    Cut config logs' block := by
  obtain ⟨tenant, p, entries, hne, hsec, rfl⟩ := h
  exact ⟨tenant, p, entries, hne, hsec.trans ((hlogs p).filter _).isInfix, rfl⟩

variable {index blocks : List (Block n α)}

/-- Adding blocks adds exactly them: a block that is replaced is replaced by itself. -/
theorem addBlocks_spec
    (hnodup : (index.map Block.objectKey).Nodup)
    (hcut : ∀ block ∈ index ++ blocks, Cut config logs block) :
    ((addBlocks index blocks).map Block.objectKey).Nodup ∧
      ∀ block, block ∈ addBlocks index blocks ↔ block ∈ index ++ blocks := by
  have absorbs : Absorbs Block.objectKey Block.replace (fun _ : Block n α => True)
      (fun blocks block => block ∈ blocks) := by
    refine ⟨fun _ _ => rfl, fun {blocks block new} _ _ hkey => ?_, fun _ _ => by simp,
      fun hmem _ => mem_append_left _ hmem⟩
    have hnew : block.replace new = new := by
      cases new
      exact congrArg (Block.mk · _) hkey
    rw [hnew]
    exact mem_append_right _ mem_cons_self
  have hi : Gathered Block.objectKey (fun blocks block => block ∈ blocks) index index :=
    ⟨hnodup, fun _ => Iff.rfl, fun _ hb => hb⟩
  have gathered : Gathered Block.objectKey (fun blocks block => block ∈ blocks) (index ++ blocks)
      (addBlocks index blocks) := hi.upsertAll absorbs fun _ _ => trivial
  refine ⟨gathered.nodup, fun block => ⟨gathered.each block, fun hb => ?_⟩⟩
  obtain ⟨other, ho, hkey⟩ :=
    mem_map.mp ((gathered.keys _).mpr (mem_map_of_mem hb))
  have heq := (hcut other (gathered.each other ho)).ext (hcut block hb) hkey
  exact heq ▸ ho

/-! ### What a flush cuts -/

/-- The polled records of each partition are those between two positions. -/
def Polled (logs : Fin n → List (Record α)) (low high : Fin n → Nat)
    (records : List (PositionedRecord n α)) : Prop :=
  ∀ p, records.filter (fun entry => entry.partition = p) =
    ((positioned logs p).take (high p)).drop (low p)

variable {records : List (PositionedRecord n α)}

theorem mem_tenantRecords {tenant : String} :
    entry ∈ tenantRecords records tenant p ↔
      entry ∈ records ∧ entry.partition = p ∧ entry.record.tenant = tenant := by
  rw [tenantRecords, mem_insertionSort, mem_filter, decide_eq_true_eq]

/-- A block of a flush is a part of the records of its tenant and partition. -/
theorem mem_flushBlocks (hb : block ∈ flushBlocks config records) :
    ∃ tenant p part, part ∈ chunks (max config.flushRecords 1) (tenantRecords records tenant p) ∧
      block = writeBlock config tenant p part := by
  obtain ⟨key, -, hmem⟩ := mem_flatMap.mp hb
  obtain ⟨part, hp, rfl⟩ := mem_map.mp hmem
  exact ⟨key.1, key.2, part, hp, rfl⟩

/-- Every row of the records is in a block. -/
theorem mem_rows_flushBlocks (he : entry ∈ records) (hrow : row ∈ rowsOf entry) :
    ∃ block ∈ flushBlocks config records, row ∈ block.rows := by
  have hmem : entry ∈ tenantRecords records entry.record.tenant entry.partition :=
    mem_tenantRecords.mpr ⟨he, rfl, rfl⟩
  rw [← (chunks_spec config.pos_flushRecords (tenantRecords records _ _)).1] at hmem
  obtain ⟨part, hp, hin⟩ := mem_flatten.mp hmem
  refine ⟨writeBlock config entry.record.tenant entry.partition part, ?_,
    mem_flatMap.mpr ⟨entry, hin, hrow⟩⟩
  exact mem_flatMap.mpr ⟨(entry.record.tenant, entry.partition),
    mem_dedup.mpr (mem_map.mpr ⟨entry, he, rfl⟩), mem_map_of_mem hp⟩

section Polled

variable {low high : Fin n → Nat} (h : Polled logs low high records)
include h

theorem Polled.mem_positioned {entry : PositionedRecord n α} (he : entry ∈ records) :
    entry ∈ positioned logs entry.partition := by
  have hfil : entry ∈ records.filter fun other => other.partition = entry.partition :=
    mem_filter.mpr ⟨he, decide_eq_true rfl⟩
  rw [h] at hfil
  exact mem_of_mem_take (mem_of_mem_drop hfil)

/-- The buffered records of a tenant are a section of its log. -/
theorem Polled.tenantRecords_section (tenant : String) (p : Fin n) :
    tenantRecords records tenant p <:+: tenantLog logs tenant p := by
  have hfil : (records.filter fun entry =>
      entry.partition = p ∧ entry.record.tenant = tenant) <:+: tenantLog logs tenant p := by
    have hand : (records.filter fun entry => entry.partition = p ∧ entry.record.tenant = tenant) =
        (records.filter fun entry => entry.partition = p).filter fun entry =>
          entry.partition = p ∧ entry.record.tenant = tenant := by
      rw [filter_filter]
      refine filter_congr fun entry _ => ?_
      simp only [Bool.decide_and]
      cases decide (entry.partition = p) <;> simp
    rw [hand, h]
    exact ((drop_suffix _ _).isInfix.trans ( take_prefix _ _).isInfix).filter _
  have sorted := ((pairwise_tenantLog logs tenant p).sublist hfil.sublist).imp Nat.le_of_lt
  rw [tenantRecords, sorted.insertionSort_eq]
  exact hfil

/-- What a flush writes are cuts of the logs. -/
theorem Polled.cut {block : Block n α} (hb : block ∈ flushBlocks config records) :
    Cut config logs block := by
  obtain ⟨tenant, p, part, hp, rfl⟩ := mem_flushBlocks hb
  obtain ⟨flatten, hparts⟩ := chunks_spec config.pos_flushRecords (tenantRecords records tenant p)
  refine ⟨tenant, p, part, (hparts part hp).1, ?_, rfl⟩
  have hsec := infix_of_mem_flatten hp
  rw [flatten] at hsec
  exact hsec.trans (h.tenantRecords_section tenant p)

end Polled

/-- No two of the blocks hold one sample. -/
def SamplesApart (blocks : List (Block n α)) : Prop :=
  ∀ block ∈ blocks, ∀ block' ∈ blocks, ∀ row ∈ block.rows, ∀ row' ∈ block'.rows,
    row.identity = row'.identity → block = block'

/-- One flush puts each sample in one block. -/
theorem Polled.samplesApart {low high : Fin n → Nat} (h : Polled logs low high records) :
    SamplesApart (flushBlocks config records) := by
  intro block hb block' hb' row hrow row' hrow' heq
  obtain ⟨tenant, p, part, hpar, rfl⟩ := mem_flushBlocks hb
  obtain ⟨tenant', p', part', hpar', rfl⟩ := mem_flushBlocks hb'
  obtain ⟨entry, he, hin⟩ := mem_flatMap.mp hrow
  obtain ⟨entry', he', hin'⟩ := mem_flatMap.mp hrow'
  have hflatten := (chunks_spec config.pos_flushRecords (tenantRecords records tenant p)).1
  have flatten' := (chunks_spec config.pos_flushRecords (tenantRecords records tenant' p')).1
  have hmem := mem_flatten_of_mem hpar he
  have hmem' := mem_flatten_of_mem hpar' he'
  rw [hflatten] at hmem
  rw [flatten'] at hmem'
  obtain ⟨hrec, hp, ht⟩ := mem_tenantRecords.mp hmem
  obtain ⟨hrec', hp', ht'⟩ := mem_tenantRecords.mp hmem'
  -- The common sample has one record, hence one tenant and partition, and one part.
  obtain rfl := eq_of_identity (h.mem_positioned hrec) (h.mem_positioned hrec') hin hin' heq
  obtain rfl : p = p' := hp.symm.trans hp'
  obtain rfl : tenant = tenant' := ht.symm.trans ht'
  have nodup : (chunks (max config.flushRecords 1)
      (tenantRecords records tenant p)).flatten.Nodup := by
    rw [hflatten]
    exact ((pairwise_tenantLog logs tenant p).sublist
      (h.tenantRecords_section tenant p).sublist).imp fun hlt same => by
        rw [same] at hlt
        exact lt_irrefl _ hlt
  by_contra hne
  have parts : part ≠ part' := fun parts => hne (by rw [parts])
  have : Std.Symm (@List.Disjoint (PositionedRecord n α)) := ⟨fun _ _ disjoint => disjoint.symm⟩
  exact (nodup_flatten.mp nodup).2.forall hpar hpar' parts he he'

/-! ### Invariants -/

structure ValidBuilder (config : Config α) (s : State n α) (builder : Builder n α) : Prop where
  cut : ∀ block ∈ builder.index, Cut config s.logs block
  nodup : (builder.index.map Block.objectKey).Nodup
  kept : ∀ block ∈ s.saved, block ∈ builder.index
  ahead : ∀ p, s.committed p ≤ builder.position p ∧ builder.position p ≤ (s.logs p).length
  polled : Polled s.logs s.committed builder.position builder.records
  flushed : builder.phase ≠ .polling → ∀ entry ∈ builder.records, ∀ row ∈ rowsOf entry,
    ∃ block ∈ builder.index, row ∈ block.rows
  saved : builder.phase = .saved → s.saved = builder.index

/-- Saved blocks are parts of the logs, and hold everything that is committed. -/
structure Valid (config : Config α) (s : State n α) : Prop where
  cut : ∀ block ∈ s.saved, Cut config s.logs block
  nodup : (s.saved.map Block.objectKey).Nodup
  bounded : ∀ p, s.committed p ≤ (s.logs p).length
  covered : ∀ p, ∀ entry ∈ (positioned s.logs p).take (s.committed p), ∀ row ∈ rowsOf entry,
    ∃ block ∈ s.saved, row ∈ block.rows
  builder : ∀ builder, s.builder = some builder → ValidBuilder config s builder

theorem positioned_append (logs : Fin n → List (Record α)) (p : Fin n) (record : Record α)
    (q : Fin n) : positioned logs q <+:
      positioned (update logs p (logs p ++ [record])) q := by
  by_cases hq : q = p
  · subst hq
    rw [positioned, positioned, update_self, zipIdx_append, map_append]
    exact prefix_append _ _
  · rw [positioned, positioned, update_of_ne hq]

/-- A longer log has the same records at the start. -/
theorem take_positioned_append {record : Record α} {q : Fin n} {k : Nat}
    (hk : k ≤ (logs q).length) : (positioned (update logs p (logs p ++ [record])) q).take k =
      (positioned logs q).take k := by
  obtain ⟨rest, hr⟩ := positioned_append logs p record q
  rw [← hr, take_append_of_le_length (by rwa [length_positioned])]

variable {s : State n α}

theorem Valid.append (h : Valid config s) (p : Fin n) (record : Record α) :
    Valid config { s with logs := update s.logs p (s.logs p ++ [record]) } := by
  have initial := positioned_append s.logs p record
  have hlen (q : Fin n) : (s.logs q).length ≤
      (update s.logs p (s.logs p ++ [record]) q).length := by
    rw [← length_positioned, ← length_positioned]
    exact (initial q).length_le
  refine ⟨fun block hb => (h.cut block hb).mono initial, h.nodup,
    fun q => (h.bounded q).trans (hlen q), fun q => ?_, fun builder hbld => ?_⟩
  · dsimp only
    rw [take_positioned_append (h.bounded q)]
    exact h.covered q
  · have hv := h.builder builder hbld
    refine { hv with
      cut := fun block hb => (hv.cut block hb).mono initial
      ahead := fun q => ⟨(hv.ahead q).1, (hv.ahead q).2.trans (hlen q)⟩
      polled := fun q => ?_ }
    rw [take_positioned_append (hv.ahead q).2]
    exact hv.polled q

variable {builder : Builder n α} {s' : State n α}

/-- A poll goes on where the last one ended. -/
theorem ValidBuilder.poll (h : ValidBuilder config s builder) (hphase : builder.phase = .polling)
    (p : Fin n) (count : Nat) : ValidBuilder config s (builder.poll s.logs p count) := by
  set polled := ((positioned s.logs p).drop (builder.position p)).take count with hpol
  have hlen : builder.position p + polled.length ≤ (s.logs p).length := by
    have := (h.ahead p).2
    rw [hpol, length_take, length_drop, length_positioned]
    omega
  refine ⟨h.cut, h.nodup, h.kept, fun q => ?_, fun q => ?_, fun hne => absurd hphase hne,
    fun saved => absurd (hphase.symm.trans saved) nofun⟩
  · by_cases hq : q = p
    · subst hq
      have := h.ahead q
      simp only [Builder.poll, update_self, ← hpol]
      omega
    · simp only [Builder.poll, update_of_ne hq]
      exact h.ahead q
  · have hp : ∀ entry ∈ polled, entry.partition = p := fun entry he =>
      partition_of_mem (mem_of_mem_drop (mem_of_mem_take he))
    simp only [Builder.poll, ← hpol]
    rw [filter_append, h.polled q]
    by_cases hq : q = p
    · subst hq
      rw [update_self, filter_eq_self.mpr fun entry he =>
        decide_eq_true (hp entry he), take_add, drop_append_of_le_length]
      · congr 1
        have hle : polled.length ≤ count := length_take_le _ _
        rw [hpol, length_take, take_eq_take_iff]
        omega
      · have := h.ahead q
        rw [length_take, length_positioned]
        omega
    · rw [update_of_ne hq, filter_eq_nil_iff.mpr, append_nil]
      intro entry he
      rw [hp entry he, decide_eq_true_eq]
      exact fun heq => hq heq.symm

/-- What a flush adds to the index are cuts, and no key is there twice. -/
theorem ValidBuilder.flush (h : ValidBuilder config s builder) :
    ValidBuilder config s { builder with
      index := addBlocks builder.index (flushBlocks config builder.records)
      phase := .flushed } := by
  have hcut : ∀ block ∈ builder.index ++ flushBlocks config builder.records,
      Cut config s.logs block := fun block hb =>
    (mem_append.mp hb).elim (h.cut block) h.polled.cut
  obtain ⟨hnodup, hmem⟩ := addBlocks_spec h.nodup hcut
  refine ⟨fun block hb => hcut block ((hmem block).mp hb), hnodup,
    fun block hb => (hmem block).mpr (mem_append_left _ (h.kept block hb)), h.ahead,
    h.polled, fun _ entry he row hrow => ?_, nofun⟩
  obtain ⟨block, hb, hin⟩ : ∃ block ∈ flushBlocks config builder.records, row ∈ block.rows :=
    mem_rows_flushBlocks he hrow
  exact ⟨block, (hmem block).mpr (mem_append_right _ hb), hin⟩

/-- A step that changes only the builder. -/
theorem Valid.setBuilder (h : Valid config s) (hbld : ValidBuilder config s builder) :
    Valid config { s with builder := some builder } := by
  refine { h with builder := fun builder' hbld' => ?_ }
  cases hbld'
  exact { hbld with }

/-- Nothing has been polled since the commit. -/
theorem polled_nil (logs : Fin n → List (Record α)) (position : Fin n → Nat) :
    Polled logs position position [] := by
  intro p
  rw [drop_eq_nil_of_le (length_take_le _ _)]
  rfl

/-- A builder starts from the saved index at the committed positions. -/
theorem Valid.newBuilder (h : Valid config s) :
    ValidBuilder config s ⟨s.saved, [], s.committed, .polling⟩ :=
  ⟨h.cut, h.nodup, fun _ hb => hb, fun p => ⟨le_rfl, h.bounded p⟩, polled_nil _ _,
    fun hne => absurd rfl hne, nofun⟩

/-- A saved index has what the last one had. -/
theorem Valid.saveIndex (h : Valid config s) (hv : ValidBuilder config s builder)
    (hphase : builder.phase = .flushed) :
    Valid config { s with
      saved := builder.index
      builder := some { builder with phase := .saved } } := by
  refine ⟨hv.cut, hv.nodup, h.bounded, fun p entry he row hrow => ?_,
    fun builder' hbld' => ?_⟩
  · obtain ⟨block, hb, hin⟩ := h.covered p entry he row hrow
    exact ⟨block, hv.kept block hb, hin⟩
  · cases hbld'
    exact { hv with
      kept := fun _ hb => hb
      flushed := fun _ => hv.flushed (by rw [hphase]; exact nofun)
      saved := fun _ => rfl }

/-- What a commit covers is in the saved index. -/
theorem Valid.commit (h : Valid config s) (hv : ValidBuilder config s builder)
    (hphase : builder.phase = .saved) :
    Valid config { s with
      committed := builder.position
      builder := some { builder with records := [], phase := .polling } } := by
  refine ⟨h.cut, h.nodup, fun p => (hv.ahead p).2, fun p entry he row hrow => ?_,
    fun builder' hbld' => ?_⟩
  · -- A newly committed record was committed before, or is one of those flushed.
    rw [← take_append_drop (s.committed p) ((positioned s.logs p).take _),
      take_take, min_eq_left (hv.ahead p).1, ← hv.polled p] at he
    rcases mem_append.mp he with hold | hnew
    · exact h.covered p entry hold row hrow
    · dsimp only
      rw [hv.saved hphase]
      exact hv.flushed (by rw [hphase]; exact nofun) entry (mem_of_mem_filter hnew)
        row hrow
  · cases hbld'
    exact ⟨hv.cut, hv.nodup, hv.kept, fun p => ⟨le_rfl, (hv.ahead p).2⟩, polled_nil _ _,
      fun hne => absurd rfl hne, nofun⟩

theorem Valid.step {event : Event n α} (h : Valid config s) (hs : step config s event = some s') :
    Valid config s' := by
  cases event with
  | append p record =>
    cases hs
    exact h.append p record
  | tail p upto =>
    cases hs
    exact { h with builder := fun builder hbld => { h.builder builder hbld with } }
  | start =>
    simp only [Replay.step] at hs
    split at hs <;> cases hs
    exact h.setBuilder h.newBuilder
  | poll p count =>
    obtain ⟨builder, hbld, phase, rfl⟩ := guarded_eq_some hs
    exact h.setBuilder ((h.builder builder hbld).poll phase p count)
  | flush =>
    obtain ⟨builder, hbld, -, rfl⟩ := guarded_eq_some hs
    exact h.setBuilder (h.builder builder hbld).flush
  | saveIndex =>
    obtain ⟨builder, hbld, phase, rfl⟩ := guarded_eq_some hs
    exact h.saveIndex (h.builder builder hbld) phase
  | commit =>
    obtain ⟨builder, hbld, phase, rfl⟩ := guarded_eq_some hs
    exact h.commit (h.builder builder hbld) phase
  | crash =>
    cases hs
    exact { h with builder := nofun }

theorem valid_of_initial (h : initial s) : Valid config s := by
  obtain ⟨logs, committed, saved, builder, applied⟩ := s
  obtain ⟨rfl, rfl, rfl⟩ := h
  exact ⟨nofun, nodup_nil, fun _ => Nat.zero_le _, nofun,
    nofun⟩

/-! ### Counting once -/

/-- A sample that is committed or applied is found, however often. -/
theorem Valid.found (h : Valid config s) (query : Query α) (he : entry ∈ positioned s.logs p)
    (below : entry.offset < s.committed p ∨ entry.offset < s.applied p)
    (hrow : row ∈ query.rows (rowsOf entry)) :
    row.identity ∈ (select s query).map Row.identity := by
  obtain ⟨hmem, selected⟩ := mem_filter.mp hrow
  rw [select, union, map_append, mem_append]
  rcases below with hcom | happlied
  · obtain ⟨block, hb, hin⟩ :=
      h.covered p entry ((mem_take_positioned he).mpr hcom) row hmem
    exact .inr (mem_map_of_mem (mem_filter.mpr
      ⟨mem_flatMap.mpr ⟨block, hb, hin⟩, selected⟩))
  · by_cases cold : row.identity ∈ (query.rows (coldRows s)).map Row.identity
    · exact .inr cold
    · refine .inl (mem_map_of_mem (mem_filter.mpr
        ⟨mem_filter.mpr ⟨?_, selected⟩, by simpa using cold⟩))
      exact mem_flatMap.mpr ⟨p, mem_finRange p, mem_flatMap.mpr
        ⟨entry, (mem_take_positioned he).mpr happlied, hmem⟩⟩

/-- Blocks that share no sample have none twice. -/
theorem Valid.nodup_coldRows (h : Valid config s) (apart : SamplesApart s.saved) :
    ((coldRows s).map Row.identity).Nodup := by
  rw [coldRows, map_flatMap, nodup_flatMap]
  refine ⟨fun block hb => (h.cut block hb).nodup,
    h.nodup.of_map.pairwise_of_forall_ne fun block hb block' hb' hne => ?_⟩
  intro identity hleft hr
  obtain ⟨row, hrow, rfl⟩ := mem_map.mp hleft
  obtain ⟨row', hrow', heq⟩ := mem_map.mp hr
  exact hne (apart block hb block' hb' row hrow row' hrow' heq.symm)

/-- Where saved blocks share no sample, the union counts each once. -/
theorem Valid.countedOnce (h : Valid config s) (apart : SamplesApart s.saved) :
    CountedOnce s := by
  refine ⟨fun query => ?_, fun query p entry he below row hrow =>
    h.found query he below hrow⟩
  have hrows (rows : List (Row n α)) (hrows : (rows.map Row.identity).Nodup) :
      ((query.rows rows).map Row.identity).Nodup :=
    hrows.sublist (filter_sublist.map _)
  rw [select, union, map_append]
  refine List.Nodup.append ((hrows _ (nodup_hotRows s)).sublist (filter_sublist.map _))
    (hrows _ (h.nodup_coldRows apart)) fun identity hhot cold => ?_
  obtain ⟨row, hrow, rfl⟩ := mem_map.mp hhot
  exact of_decide_eq_true (mem_filter.mp hrow).2 cold

/-- The buffered offsets of the tenant and partition of a block. -/
def Builder.offsetsOf (builder : Builder n α) (key : ObjectKey n) : List Nat :=
  (tenantRecords builder.records key.tenant key.partition).map PositionedRecord.offset

/-- A block starts and ends where one of the parts does that offsets are cut into. -/
def ObjectKey.CutFrom (key : ObjectKey n) (size : Nat) (offsets : List Nat) : Prop :=
  ∃ i ∈ range offsets.length, ((offsets.drop (i * size)).take size).head? = some key.minOffset ∧
    ((offsets.drop (i * size)).take size).getLast? = some key.maxOffset
deriving Decidable

/-- Of every indexed block, either no buffered offset of its tenant and partition lies between
its ends, or the buffered offsets are cut at its ends. -/
def Builder.CutsAlike (config : Config α) (builder : Builder n α) : Prop :=
  ∀ block ∈ builder.index,
    (∀ offset ∈ builder.offsetsOf block.objectKey,
      offset < block.objectKey.minOffset ∨ block.objectKey.maxOffset < offset) ∨
    block.objectKey.CutFrom (max config.flushRecords 1) (builder.offsetsOf block.objectKey)
deriving Decidable

/-- A builder that is about to flush cuts alike. -/
def CutAlike (config : Config α) (s : State n α) : Event n α → Prop
  | .flush => ∀ builder ∈ s.builder, builder.CutsAlike config
  | _ => True

instance decidableCutAlike (config : Config α) (s : State n α) (event : Event n α) :
    Decidable (CutAlike config s event) :=
  match event with
  | .flush => inferInstanceAs (Decidable (∀ builder ∈ s.builder, builder.CutsAlike config))
  | .append .. | .tail .. | .start | .poll .. | .saveIndex | .commit | .crash => isTrue trivial

/-- The part that a flush cuts at two offsets is what the log has between them. -/
theorem ValidBuilder.mem_chunks_of_ends {builder : Builder n α} {s : State n α}
    (hv : ValidBuilder config s builder) {tenant : String} {p : Fin n} {i low high : Nat}
    (hfirst : (((tenantRecords builder.records tenant p).drop (i * max config.flushRecords 1)).take
      (max config.flushRecords 1)).head?.map PositionedRecord.offset = some low)
    (hlast : (((tenantRecords builder.records tenant p).drop (i * max config.flushRecords 1)).take
      (max config.flushRecords 1)).getLast?.map PositionedRecord.offset = some high) :
    (tenantLog s.logs tenant p).filter (fun entry => low ≤ entry.offset ∧ entry.offset ≤ high) ∈
      chunks (max config.flushRecords 1) (tenantRecords builder.records tenant p) := by
  have hlt : i * max config.flushRecords 1 < (tenantRecords builder.records tenant p).length := by
    by_contra hge
    rw [drop_eq_nil_of_le (by omega)] at hfirst
    simp at hfirst
  have hcut := take_drop_mem_chunks config.pos_flushRecords hlt
  have hsection := infix_of_mem_flatten hcut
  rw [(chunks_spec config.pos_flushRecords _).1] at hsection
  rw [← eq_filter_section (pairwise_tenantLog s.logs tenant p)
    (hsection.trans (hv.polled.tenantRecords_section _ _)) hfirst hlast]
  exact hcut

/-- An indexed block that shares a sample with a flush that cuts alike is one of its blocks. -/
theorem ValidBuilder.mem_flushBlocks_of_shared {builder : Builder n α} {s : State n α}
    (hv : ValidBuilder config s builder) (halike : builder.CutsAlike config)
    {block' : Block n α} {row' : Row n α} (hblock : block ∈ flushBlocks config builder.records)
    (hindexed : block' ∈ builder.index) (hrow : row ∈ block.rows) (hrow' : row' ∈ block'.rows)
    (heq : row.identity = row'.identity) : block' ∈ flushBlocks config builder.records := by
  obtain ⟨tenant, p, part, hpart, rfl⟩ := mem_flushBlocks hblock
  obtain ⟨entry, hentry, hin⟩ := mem_flatMap.mp hrow
  have hbuffered : entry ∈ builder.records := by
    have hmem := mem_flatten_of_mem hpart hentry
    rw [(chunks_spec config.pos_flushRecords _).1] at hmem
    exact (mem_tenantRecords.mp hmem).1
  have halike' := halike block' hindexed
  obtain ⟨tenant', p', entries, hne, hsection, rfl⟩ := hv.cut block' hindexed
  obtain ⟨entry', hentry', hin'⟩ := mem_flatMap.mp hrow'
  obtain ⟨hlogged, hof⟩ := mem_filter.mp (hsection.subset hentry')
  obtain ⟨rfl, rfl⟩ := of_decide_eq_true hof
  obtain rfl := eq_of_identity (hv.polled.mem_positioned hbuffered) hlogged hin hin' heq
  have hends := eq_filter_section (pairwise_tenantLog s.logs _ _) hsection
    (congrArg (Option.map PositionedRecord.offset) (head?_eq_some_head hne))
    (congrArg (Option.map PositionedRecord.offset) (getLast?_eq_some_getLast hne))
  have hmem : entry ∈ tenantRecords builder.records entry.record.tenant entry.partition :=
    mem_tenantRecords.mpr ⟨hbuffered, rfl, rfl⟩
  simp only [Builder.offsetsOf, ObjectKey.CutFrom, writeBlock, head?_eq_some_head hne,
    getLast?_eq_some_getLast hne, Option.map_some, Option.getD_some, ← map_drop, ← map_take,
    head?_map, getLast?_map] at halike'
  rcases halike' with hnone | ⟨i, -, hfirst, hlast⟩
  · -- the shared record lies between the ends of the indexed block
    rw [hends] at hentry'
    have hbetween := of_decide_eq_true (mem_filter.mp hentry').2
    have := hnone entry.offset (mem_map_of_mem hmem)
    omega
  · -- the part cut at its ends is the block
    have hcut := hv.mem_chunks_of_ends hfirst hlast
    rw [← hends] at hcut
    exact mem_flatMap.mpr ⟨(entry.record.tenant, entry.partition),
      mem_dedup.mpr (mem_map.mpr ⟨entry, hbuffered, rfl⟩), mem_map_of_mem hcut⟩

/-- The saved index, and the builder's, hold no sample twice. -/
structure IndexesApart (s : State n α) : Prop where
  saved : SamplesApart s.saved
  builder : ∀ builder, s.builder = some builder → SamplesApart builder.index

theorem IndexesApart.setBuilder (hsaved : SamplesApart s'.saved) (hbld : s'.builder = some builder)
    (h : SamplesApart builder.index) : IndexesApart s' := by
  refine ⟨hsaved, fun builder' hbld' => ?_⟩
  obtain rfl := Option.some.inj (hbld.symm.trans hbld')
  exact h

/-- A flush that cuts alike puts no sample in the index twice. -/
theorem samplesApart_flush (hv : ValidBuilder config s builder) (h : SamplesApart builder.index)
    (halike : builder.CutsAlike config) :
    SamplesApart (addBlocks builder.index (flushBlocks config builder.records)) := by
  have hmem := (addBlocks_spec hv.nodup fun block hblock =>
    (mem_append.mp hblock).elim (hv.cut block) hv.polled.cut).2
  have hflushed : SamplesApart (flushBlocks config builder.records) := hv.polled.samplesApart
  intro block hblock block' hblock' row hrow row' hrow' heq
  rcases mem_append.mp ((hmem block).mp hblock) with hold | hnew <;>
    rcases mem_append.mp ((hmem block').mp hblock') with hold' | hnew'
  · exact h block hold block' hold' row hrow row' hrow' heq
  · exact hflushed block (hv.mem_flushBlocks_of_shared halike hnew' hold hrow' hrow heq.symm)
      block' hnew' row hrow row' hrow' heq
  · exact hflushed block hnew block' (hv.mem_flushBlocks_of_shared halike hnew hold' hrow hrow' heq)
      row hrow row' hrow' heq
  · exact hflushed block hnew block' hnew' row hrow row' hrow' heq

theorem IndexesApart.step {event : Event n α} (hv : Valid config s) (h : IndexesApart s)
    (alike : CutAlike config s event) (hs : step config s event = some s') :
    IndexesApart s' := by
  cases event with
  | append p record | tail p upto =>
    cases hs
    exact ⟨h.saved, h.builder⟩
  | start =>
    simp only [Replay.step] at hs
    split at hs <;> cases hs
    exact .setBuilder h.saved rfl h.saved
  | poll p count | commit =>
    obtain ⟨builder, hbld, -, rfl⟩ := guarded_eq_some hs
    exact .setBuilder h.saved rfl (h.builder builder hbld)
  | flush =>
    obtain ⟨builder, hbld, -, rfl⟩ := guarded_eq_some hs
    exact .setBuilder h.saved rfl (samplesApart_flush (hv.builder builder hbld)
      (h.builder builder hbld) (alike builder hbld))
  | saveIndex =>
    obtain ⟨builder, hbld, -, rfl⟩ := guarded_eq_some hs
    exact .setBuilder (h.builder builder hbld) rfl (h.builder builder hbld)
  | crash =>
    cases hs
    exact ⟨h.saved, nofun⟩

/-- In every run whose flushes cut alike, every query counts a sample once. -/
theorem samples_counted_once {s : State n α}
    (h : Reachable (step config) initial (CutAlike config) s) : CountedOnce s := by
  have hboth : Valid config s ∧ IndexesApart s := by
    refine h.invariant (P := fun s => Valid config s ∧ IndexesApart s)
      (fun s hinitial => ⟨valid_of_initial hinitial, ?_, ?_⟩)
      fun s event s' hs halike hstep => ⟨hs.1.step hstep, hs.2.step hs.1 halike hstep⟩
    · rw [hinitial.2.1]
      exact nofun
    · exact fun builder hbuilder => absurd (hinitial.2.2.symm.trans hbuilder) nofun
  exact hboth.1.countedOnce hboth.2.saved

/-- Saved blocks stay as they are, and committed positions do not go back. -/
def Keeps (s s' : State n α) : Prop :=
  (∀ block ∈ s.saved, block ∈ s'.saved) ∧ ∀ p, s.committed p ≤ s'.committed p

theorem Keeps.refl (s : State n α) : Keeps s s := ⟨fun _ => id, fun _ => le_rfl⟩

/-- No step takes a saved block or a committed position back. -/
theorem keeps_step {event : Event n α} (h : Valid config s) (hs : step config s event = some s') :
    Keeps s s' := by
  cases event with
  | append | tail | crash =>
    cases hs
    exact .refl s
  | start =>
    simp only [Replay.step] at hs
    split at hs <;> cases hs
    exact .refl s
  | poll | flush =>
    obtain ⟨_, -, -, rfl⟩ := guarded_eq_some hs
    exact .refl s
  | saveIndex =>
    obtain ⟨builder, hbld, -, rfl⟩ := guarded_eq_some hs
    exact ⟨(h.builder builder hbld).kept, fun _ => le_rfl⟩
  | commit =>
    obtain ⟨builder, hbld, -, rfl⟩ := guarded_eq_some hs
    exact ⟨fun _ => id, fun p => ((h.builder builder hbld).ahead p).1⟩

/-- In every run, with any crashes and replays, the builder drops or changes no saved block. -/
theorem saved_blocks_stay {s s' : State n α}
    (h : Reachable (step config) initial (fun _ _ => True) s) {events : List (Event n α)}
    (hrun : run (step config) s events = some s') : Keeps s s' :=
  run_related (P := Valid config) .refl
    (fun h h' => ⟨fun block hb => h'.1 block (h.1 block hb), fun p => (h.2 p).trans (h'.2 p)⟩)
    (fun _ _ _ hs _ => hs.step) (fun _ _ _ hs _ => keeps_step hs)
    (h.invariant (fun _ => valid_of_initial) fun _ _ _ hs _ => hs.step)
    (meets_of_forall fun _ _ => trivial) hrun

/-- A builder that writes blocks of up to ten records, with samples that are their times. -/
def sampleConfig : Config Int := ⟨10, id⟩

def emptyState : State 1 Int := ⟨fun _ => [], fun _ => 0, [], none, fun _ => 0⟩

/-- The builder stops between saving the index and committing, and then flushes one record
more. -/
def replayedRun : List (Event 1 Int) :=
  [.append (Fin.last 0) ⟨"t", [5]⟩, .start, .poll (Fin.last 0) 1, .flush, .saveIndex, .crash,
    .append (Fin.last 0) ⟨"t", [6]⟩, .start, .poll (Fin.last 0) 2, .flush, .saveIndex, .commit]

/-- The same with nothing more to flush. -/
def alikeRun : List (Event 1 Int) :=
  [.append (Fin.last 0) ⟨"t", [5]⟩, .start, .poll (Fin.last 0) 1, .flush, .saveIndex, .crash,
    .start, .poll (Fin.last 0) 2, .flush, .saveIndex, .commit]

/-- The crash falls between the save and the commit. -/
theorem saved_blocks_stay_after_crash :
    ∃ s s', run (step sampleConfig) emptyState (replayedRun.take 5) = some s ∧
      run (step sampleConfig) s (replayedRun.drop 5) = some s' ∧ Keeps s s' := by
  obtain ⟨s, hs⟩ : ∃ s, run (step sampleConfig) emptyState (replayedRun.take 5) = some s :=
    ⟨_, rfl⟩
  obtain ⟨s', hs'⟩ : ∃ s', run (step sampleConfig) s (replayedRun.drop 5) = some s' := by
    cases hs
    exact ⟨_, rfl⟩
  exact ⟨s, s', hs, hs', saved_blocks_stay (Reachable.run (.initial ⟨rfl, rfl, rfl⟩)
    (meets_of_forall fun _ _ => trivial) hs) hs'⟩

/-- The replay cuts at the offsets of the saved block. -/
theorem samples_counted_once_replayed :
    ∃ s, run (step sampleConfig) emptyState alikeRun = some s ∧ CountedOnce s := by
  have hmeets : Meets (step sampleConfig) (CutAlike sampleConfig) emptyState alikeRun := by
    decide +kernel
  obtain ⟨s, hrun⟩ : ∃ s, run (step sampleConfig) emptyState alikeRun = some s := ⟨_, rfl⟩
  exact ⟨s, hrun, samples_counted_once
    (Reachable.run (.initial ⟨rfl, rfl, rfl⟩) hmeets hrun)⟩

/-- After the replay the first sample is in two blocks, and every query of it counts it twice. -/
theorem sample_counted_twice_after_replay :
    ∃ s : State 1 Int, Reachable (step sampleConfig) initial (fun _ _ => True) s ∧
      (select s ⟨"t", fun _ => true⟩).map Row.identity = [⟨0, 0, 0⟩, ⟨0, 0, 0⟩, ⟨0, 1, 0⟩] ∧
      ¬ CountedOnce s := by
  obtain ⟨s, hrun⟩ : ∃ s, run (step sampleConfig) emptyState replayedRun = some s := ⟨_, rfl⟩
  have hselect : (select s ⟨"t", fun _ => true⟩).map Row.identity =
      [⟨0, 0, 0⟩, ⟨0, 0, 0⟩, ⟨0, 1, 0⟩] := by
    have hmap : (run (step sampleConfig) emptyState replayedRun).map
        (fun s => (select s ⟨"t", fun _ => true⟩).map Row.identity) =
          some [⟨0, 0, 0⟩, ⟨0, 0, 0⟩, ⟨0, 1, 0⟩] := by decide +kernel
    rw [hrun] at hmap
    exact Option.some.inj hmap
  refine ⟨s, Reachable.run (.initial ⟨rfl, rfl, rfl⟩) (meets_of_forall fun _ _ => trivial) hrun,
    hselect, fun h => ?_⟩
  have honce := h.once ⟨"t", fun _ => true⟩
  rw [hselect] at honce
  exact absurd honce (by decide)

end KrabkaO11y.Profiles.Replay
