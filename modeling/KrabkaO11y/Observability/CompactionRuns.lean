import KrabkaO11y.Observability.Compaction

/-!
What every run of the compactors keeps: an offset that a process, the group or the
frontier object holds for a partition has every record at or below it in a published
block, or in the batch that the process still works on (`Reachable.valid`).
-/

namespace KrabkaO11y.Observability

open Concurrent.System List WalLogRecord

/-! ### Order in the WAL -/

/-- Records stand in the WAL in the order of their offsets. -/
def Ordered (records : List WalLogRecord) : Prop :=
  records.Pairwise fun earlier later => ∀ position, later.position = some position →
    earlier.precedes position = true

variable {record : WalLogRecord} {records : List WalLogRecord} {partition : Nat} {offset : Int}
  {position : WalPosition}

theorem WalLogRecord.precedes_iff
    (h : record.position = some ⟨position.partition, offset⟩) :
    record.precedes position = true ↔ offset < position.offset := by
  simp [precedes, h]

theorem Ordered.sublist {sub : List WalLogRecord} (h : Ordered records) (hsub : sub.Sublist records)
    : Ordered sub :=
  List.Pairwise.sublist hsub h

/-- Of two records of one partition the earlier has the smaller offset. -/
theorem Ordered.lt {front back : List WalLogRecord} (h : Ordered (front ++ back))
    {earlier later : WalLogRecord} {offset' : Int} (hear : earlier ∈ front) (hl : later ∈ back)
    (hpos : earlier.position = some ⟨partition, offset⟩)
    (hpos' : later.position = some ⟨partition, offset'⟩) : offset < offset' := by
  have hpr : earlier.precedes ⟨partition, offset'⟩ = true :=
    (pairwise_append.mp h).2.2 _ hear _ hl _ hpos'
  exact (precedes_iff hpos).mp hpr

/-- No record with a position occurs twice. -/
theorem Ordered.nodup (h : Ordered records) (positioned : ∀ record ∈ records,
    record.position.isSome) :
    records.Nodup := by
  refine List.Pairwise.imp_of_mem ?_ h
  rintro earlier later hear - hpr rfl
  obtain ⟨position, hpos⟩ := Option.isSome_iff_exists.mp (positioned _ hear)
  have := (precedes_iff hpos).mp (hpr position hpos)
  exact lt_irrefl _ this

variable {wal : List WalLogRecord}

theorem mem_unread {consumed : Option Int} :
    record ∈ unread wal partition consumed ↔
      record ∈ wal ∧ ∃ offset, record.position = some ⟨partition, offset⟩ ∧
        ∀ last, consumed = some last → last < offset := by
  rw [unread, mem_filter, Option.any_eq_true]
  refine and_congr_right fun _ => ?_
  constructor
  · rintro ⟨⟨_, offset⟩, hpos, ha⟩
    rw [Bool.and_eq_true, beq_iff_eq] at ha
    obtain ⟨rfl, ha⟩ := ha
    refine ⟨offset, hpos, fun last hl => ?_⟩
    simpa [hl] using ha
  · rintro ⟨offset, hpos, ha⟩
    refine ⟨⟨partition, offset⟩, hpos, ?_⟩
    cases consumed with
    | none => simp
    | some last => simp [ha last rfl]

variable {consumed : Nat → Option (Option Int)}

/-- The records of a batch on a partition, as the poll that returned it found them. -/
theorem exists_of_polled
    {batch : List WalLogRecord} (h : polled wal consumed batch = true) (hrec : record ∈ batch)
    (hpos : record.position = some ⟨partition, offset⟩) :
    ∃ last after, consumed partition = some last ∧ unread wal partition last =
      batch.filter (onPartition partition) ++ after := by
  have hone := all_eq_true.mp h record hrec
  rw [hpos, Option.any_some, Option.any_eq_true] at hone
  obtain ⟨last, hl, hpr⟩ := hone
  obtain ⟨after, ha⟩ := isPrefixOf_iff_prefix.mp hpr
  exact ⟨last, after, hl, ha.symm⟩

theorem mem_filter_onPartition :
    record ∈ records.filter (onPartition partition) ↔
      record ∈ records ∧ ∃ offset, record.position = some ⟨partition, offset⟩ := by
  rw [mem_filter, onPartition, Option.any_eq_true]
  refine and_congr_right fun _ => ?_
  constructor
  · rintro ⟨⟨_, offset⟩, hpos, hp⟩
    obtain rfl := beq_iff_eq.mp hp
    exact ⟨offset, hpos⟩
  · rintro ⟨offset, hpos⟩
    exact ⟨⟨partition, offset⟩, hpos, beq_iff_eq.mpr rfl⟩

/-- What a consumer has read last is what it had before the batch or is in the batch. -/
theorem consume_eq {batch : List WalLogRecord} :
    ∀ {consumed : Nat → Option (Option Int)},
      consume consumed batch partition = some (some offset) →
        consumed partition = some (some offset) ∨ AttainedBy batch partition offset := by
  induction batch with
  | nil => exact fun h => .inl h
  | cons record rest ih =>
    intro consumed h
    rcases ih h with hbef | ⟨other, hmem, ho⟩
    · cases hpos : record.position with
      | none =>
        simp only [consumeRecord, hpos] at hbef
        exact .inl hbef
      | some position =>
        simp only [consumeRecord, hpos, Function.update_apply] at hbef
        split at hbef
        · rename_i heq
          cases hbef
          exact .inr ⟨record, mem_cons_self, by rw [hpos, heq]⟩
        · exact .inl hbef
    · exact .inr ⟨other, mem_cons_of_mem _ hmem, ho⟩

/-! ### What is settled -/

namespace Compaction

variable {s s' : Compaction} {pending : List WalLogRecord} {partition : Nat} {offset : Int}

/-- A published block holds the record. -/
def Stored (s : Compaction) (record : WalLogRecord) : Prop :=
  ∃ key ∈ s.published, record ∈ s.objects key ∧ key.Describes record

/-- The offset is a record's, and every record of the partition up to it is stored or one
of those pending. -/
structure Settled (s : Compaction) (pending : List WalLogRecord) (partition : Nat)
    (offset : Int) : Prop where
  reached : AttainedBy s.wal partition offset
  below : ∀ record ∈ s.wal, ∀ earlier, record.position = some ⟨partition, earlier⟩ →
    earlier ≤ offset → s.Stored record ∨ record ∈ pending

/-- A chunk has every record of the WAL in the offsets of its block. -/
def Exact (s : Compaction) (chunk : List WalLogRecord) : Prop :=
  ∀ key, compactionKey chunk = .ok key →
    (∀ record ∈ chunk, record ∈ s.wal) ∧ chunk.Nodup ∧
      ∀ record ∈ s.wal, key.Spans record → record ∈ chunk

/-- A frontier of offsets that are settled. -/
structure Covered (s : Compaction) (frontier : CompactionFrontier) : Prop where
  through : frontier.compactedThroughNs = i64Min
  settled : ∀ (partition : Nat) (offset : Int),
    frontier.partitionOffsets[partition]? = some offset → s.Settled [] partition offset

variable {record : WalLogRecord} {earlier : Int}

theorem Settled.stored (h : s.Settled [] partition offset) (hrec : record ∈ s.wal)
    (hpos : record.position = some ⟨partition, earlier⟩) (hle : earlier ≤ offset) :
    s.Stored record :=
  (h.below record hrec earlier hpos hle).resolve_right not_mem_nil

/-- Settled records may leave the pending ones. -/
theorem Settled.drop {pending' : List WalLogRecord} (h : s.Settled pending partition offset)
    (hpending : ∀ record ∈ pending, s.Stored record ∨ record ∈ pending') :
    s.Settled pending' partition offset :=
  ⟨h.reached, fun record hrec earlier hpos hle =>
    (h.below record hrec earlier hpos hle).elim .inl (hpending record)⟩

theorem Settled.weaken (h : s.Settled [] partition offset) : s.Settled pending partition offset :=
  h.drop nofun

/-! ### What a process may rely on while others step -/

/-- The WAL gains a record at its end at most, and blocks lose no row and stay
published. -/
structure Grows (s s' : Compaction) : Prop where
  wal : s'.wal = s.wal ∨ ∃ record position, record.position = some position ∧
    (∀ other ∈ s.wal, other.precedes position = true) ∧ s'.wal = s.wal ++ [record]
  rows : ∀ key, ∀ record ∈ s.objects key, record ∈ s'.objects key
  published : ∀ key ∈ s.published, key ∈ s'.published

theorem Grows.stored (h : Grows s s') (hsto : s.Stored record) :
    s'.Stored record := by
  obtain ⟨key, hkey, hrow, hd⟩ := hsto
  exact ⟨key, h.published key hkey, h.rows key record hrow, hd⟩

theorem Grows.mem_wal (h : Grows s s') (hrec : record ∈ s.wal) :
    record ∈ s'.wal := by
  rcases h.wal with hwal | ⟨_, _, _, _, hwal⟩ <;> rw [hwal]
  · exact hrec
  · exact mem_append_left _ hrec

/-- A new record is past every offset that a record has. -/
theorem Grows.mem_of_le (h : Grows s s') (hrch : AttainedBy s.wal partition offset)
    (hrec : record ∈ s'.wal) (hpos : record.position = some ⟨partition, earlier⟩)
    (hle : earlier ≤ offset) :
    record ∈ s.wal := by
  rcases h.wal with hwal | ⟨added, position, had, hpr, hwal⟩
  · rwa [hwal] at hrec
  · rw [hwal, mem_append, mem_singleton] at hrec
    rcases hrec with hrec | rfl
    · exact hrec
    · obtain ⟨other, ho, hrch⟩ := hrch
      have heq : position = ⟨partition, earlier⟩ := Option.some.inj (had.symm.trans hpos)
      subst heq
      have := (precedes_iff hrch).mp (hpr other ho)
      exact absurd hle (not_le.mpr this)

theorem Settled.grow (h : s.Settled pending partition offset) (hg : Grows s s') :
    s'.Settled pending partition offset := by
  obtain ⟨witness, hwi, hpos⟩ := h.reached
  constructor
  · exact ⟨witness, hg.mem_wal hwi, hpos⟩
  · intro record hrec earlier hear hle
    have hold := hg.mem_of_le h.reached hrec hear hle
    exact (h.below record hold earlier hear hle).imp hg.stored id

theorem Covered.grow {frontier : CompactionFrontier} (h : s.Covered frontier)
    (hg : Grows s s') : s'.Covered frontier :=
  ⟨h.through, fun partition offset hoff => (h.settled partition offset hoff).grow hg⟩

theorem Exact.grow {chunk : List WalLogRecord} (h : s.Exact chunk) (hg : Grows s s') :
    s'.Exact chunk := by
  intro key hkey
  obtain ⟨hwal, hnd, hsn⟩ := h key hkey
  obtain ⟨-, -, last, hl, hpos⟩ := compactionKey_spec hkey
  refine ⟨fun record hrec => hg.mem_wal (hwal record hrec), hnd, ?_⟩
  intro record hrec hre
  have ⟨earlier, hear, _, hle⟩ := hre
  have hold := hg.mem_of_le ⟨last, hwal last hl, hpos⟩ hrec hear hle
  exact hsn record hold hre

/-- Steps that touch neither the WAL nor the blocks. -/
theorem Grows.of_eq (hwal : s'.wal = s.wal) (hobjects : s'.objects = s.objects)
    (hpub : s'.published = s.published) : Grows s s' := by
  refine ⟨.inl hwal, fun key record hrow => ?_, fun key hkey => ?_⟩
  · rwa [hobjects]
  · rwa [hpub]

end Compaction

/-! ### What each process keeps -/

namespace Stage

/-- The chunks of a batch that have no published block. -/
def chunks : Stage → List (List WalLogRecord)
  | .compacting _ chunks _ _ => chunks
  | _ => []

def batch : Stage → List WalLogRecord
  | .compacting batch _ _ _ => batch
  | _ => []

/-- The blocks that the frontier is still to be advanced to. -/
def descriptors : Stage → List BlockKey
  | .polling => []
  | .compacting _ _ _ descriptors | .committing descriptors => descriptors
  | .persisting descriptor descriptors _ => descriptor :: descriptors

def written : Stage → Bool
  | .compacting _ _ written _ => written
  | _ => false

end Stage

/-- What the state of a process relies on. -/
structure Compactor.Valid (s : Compaction) (compactor : Compactor) : Prop where
  frontier : s.Covered compactor.frontier.frontier
  consumed : ∀ partition offset, compactor.consumed partition = some (some offset) →
    s.Settled compactor.stage.chunks.flatten partition offset
  descriptors : ∀ key ∈ compactor.stage.descriptors,
    s.Settled compactor.stage.chunks.flatten key.partition key.lastOffset
  batch : ∀ record ∈ compactor.stage.batch, ∀ partition offset,
    record.position = some ⟨partition, offset⟩ →
      s.Settled compactor.stage.chunks.flatten partition offset
  exact : ∀ chunk ∈ walCompactionChunks compactor.stage.batch, s.Exact chunk
  suffix : ∀ chunk ∈ compactor.stage.chunks, chunk ∈ walCompactionChunks compactor.stage.batch
  written : compactor.stage.written = true → ∀ chunk ∈ compactor.stage.chunks.head?, ∀ key,
    compactionKey chunk = .ok key → ∀ record ∈ chunk, record ∈ s.objects key

theorem Compactor.Valid.grow {s s' : Compaction} {compactor : Compactor} (h : compactor.Valid s)
    (hg : s.Grows s') : compactor.Valid s' where
  frontier := h.frontier.grow hg
  consumed partition offset hcn := (h.consumed partition offset hcn).grow hg
  descriptors key hkey := (h.descriptors key hkey).grow hg
  batch record hrec partition offset hpos :=
    (h.batch record hrec partition offset hpos).grow hg
  exact chunk hch := (h.exact chunk hch).grow hg
  suffix := h.suffix
  written hwr chunk hch key hkey record hrec :=
    hg.rows key record (h.written hwr chunk hch key hkey record hrec)

namespace Compaction

variable {s s' : Compaction}

structure Valid (s : Compaction) : Prop where
  ordered : Ordered s.wal
  positioned : ∀ record ∈ s.wal, record.position.isSome
  rows : ∀ key, ∀ record ∈ s.objects key, record ∈ s.wal ∧ key.Describes record
  rowsNodup : ∀ key, (s.objects key).Nodup
  publishedNodup : s.published.Nodup
  committed : ∀ partition offset, s.committed partition = some offset →
    s.Settled [] partition offset
  frontier : ∀ frontier, s.frontier = some frontier → s.Covered frontier
  compactors : ∀ id compactor, s.compactors id = some compactor → compactor.Valid s

theorem covered_initial (s : Compaction) : s.Covered SharedFrontierState.initial.frontier := by
  refine ⟨rfl, fun partition offset h => ?_⟩
  simp [SharedFrontierState.initial, SharedFrontierState.new, CompactionFrontier.new] at h

theorem valid_new : new.Valid := by
  constructor <;> simp [new, Ordered]

variable {id : Nat} {compactor : Option Compactor}

/-- A step of a process that leaves the WAL and keeps what others rely on. -/
theorem Valid.replace (h : s.Valid) (hg : Grows s s') (hwal : s'.wal = s.wal)
    (hrows : ∀ key, ∀ record ∈ s'.objects key, record ∈ s.wal ∧ key.Describes record)
    (hrowsNodup : ∀ key, (s'.objects key).Nodup) (hpublishedNodup : s'.published.Nodup)
    (hcom : ∀ partition offset, s'.committed partition = some offset →
      s.Settled [] partition offset)
    (hfrontier : ∀ frontier, s'.frontier = some frontier → s.Covered frontier)
    (hcompactors : s'.compactors = Function.update s.compactors id compactor)
    (hcompactor : ∀ next, compactor = some next → next.Valid s') : s'.Valid where
  ordered := hwal ▸ h.ordered
  positioned := hwal ▸ h.positioned
  rows := hwal ▸ hrows
  rowsNodup := hrowsNodup
  publishedNodup := hpublishedNodup
  committed partition offset hoff := (hcom partition offset hoff).grow hg
  frontier frontier hsto := (hfrontier frontier hsto).grow hg
  compactors other next hn := by
    rw [hcompactors, Function.update_apply] at hn
    split at hn
    · exact hcompactor next hn
    · exact (h.compactors other next hn).grow hg

section Update

variable {next : Compactor}

/-- `Valid.replace` where the blocks stay as well. -/
theorem Valid.update (h : s.Valid) (hwal : s'.wal = s.wal) (hobjects : s'.objects = s.objects)
    (hpub : s'.published = s.published)
    (hcom : ∀ partition offset, s'.committed partition = some offset →
      s.Settled [] partition offset)
    (hfrontier : ∀ frontier, s'.frontier = some frontier → s.Covered frontier)
    (hcompactors : s'.compactors = Function.update s.compactors id (some next))
      (hcp : next.Valid s) :
    s'.Valid := by
  have hg : Grows s s' := .of_eq hwal hobjects hpub
  refine h.replace hg hwal (hobjects ▸ h.rows) (hobjects ▸ h.rowsNodup) (hpub ▸ h.publishedNodup)
    hcom hfrontier
    hcompactors fun _ hn => ?_
  cases hn
  exact hcp.grow hg

/-- `Valid.update` where only the process moves. -/
theorem Valid.setCompactor (h : s.Valid) (compactor : next.Valid s) :
    (s.setCompactor id (some next)).Valid :=
  h.update rfl rfl rfl h.committed h.frontier rfl compactor

end Update

/-! ### What a step does -/

variable {chunk : List WalLogRecord} {key : BlockKey}

/-- A block may be written over by the same rows only. -/
theorem grows_write (h : s.Valid)
    (hkey : compactionKey chunk = .ok key) (hexact : s.Exact chunk)
    {compactors : Nat → Option Compactor} :
    Grows s { s with objects := Function.update s.objects key chunk, compactors } := by
  refine ⟨.inl rfl, fun other record hrow => ?_, fun _ ho => ho⟩
  dsimp only
  rw [Function.update_apply]
  split
  · rename_i heq
    subst heq
    obtain ⟨hmem, hd⟩ := h.rows other record hrow
    exact (hexact other hkey).2.2 record hmem hd.spans
  · exact hrow

theorem mem_publish {key other : BlockKey} :
    other ∈ (if key ∈ s.published then s.published else s.published ++ [key]) ↔
      other ∈ s.published ∨ other = key := by
  split
  · rename_i hmem
    exact ⟨.inl, fun h => h.elim id fun heq => heq ▸ hmem⟩
  · simp

/-- The step leaves the object, and a process that is not behind was not or has loaded. -/
structure Keeps (s s' : Compaction) : Prop where
  frontier : s'.frontier = s.frontier
  compactors : ∀ id compactor, s'.compactors id = some compactor → s'.behind id = false →
    (s.behind id = false ∧ ∃ before, s.compactors id = some before ∧
      before.frontier.frontier.Le compactor.frontier.frontier) ∨
    compactor.frontier = loadExistingCompactionFrontier s.frontier

variable {compactor next : Compactor} {id : Nat}

/-- A step of one process that moves neither the object nor its own frontier back. -/
theorem Keeps.of_update
    (hcompactor : s.compactors id = some compactor)
    (hcompactors : s'.compactors = Function.update s.compactors id (some next))
    (hfrontier : s'.frontier = s.frontier) (hbeh : s'.behind = s.behind)
    (hle : compactor.frontier.frontier.Le next.frontier.frontier) : Keeps s s' := by
  refine ⟨hfrontier, fun other after ha hcur => .inl ?_⟩
  rw [hbeh] at hcur
  refine ⟨hcur, ?_⟩
  rw [hcompactors, Function.update_apply] at ha
  split at ha
  · rename_i heq
    subst heq
    cases ha
    exact ⟨compactor, hcompactor, hle⟩
  · exact ⟨after, ha, .refl _⟩

/-- A put of the process lands. -/
structure Puts (s s' : Compaction) (id : Nat) (compactor : Compactor) : Prop where
  running : s.compactors id = some compactor
  frontier : s'.frontier = some compactor.frontier.frontier
  behind : ∀ other, s'.behind other = decide (other ≠ id)
  compactors : ∃ next, s'.compactors = Function.update s.compactors id (some next) ∧
    next.frontier = compactor.frontier

/-- What a step does: it keeps the records and the blocks there are, publishes a block only
where that is its event, and keeps the frontier object or is a put that lands. -/
structure Effect (s : Compaction) (event : Event) (s' : Compaction) : Prop where
  grows : Grows s s'
  published : (∀ id reported, event ≠ .publishBlock id reported) → s'.published = s.published
  frontiers : Keeps s s' ∨ ∃ id outcome compactor, event = .putFrontier id outcome ∧
    outcome ≠ .refused ∧ Puts s s' id compactor

variable {event : Event}

theorem Effect.of_update
    (hcp : s.compactors id = some compactor)
    (hco : s'.compactors = Function.update s.compactors id (some next))
    (hfr : s'.frontier = s.frontier) (hbeh : s'.behind = s.behind) (hg : Grows s s')
    (hpub : (∀ id reported, event ≠ .publishBlock id reported) → s'.published = s.published)
    (hle : compactor.frontier.frontier.Le next.frontier.frontier) : Effect s event s' :=
  ⟨hg, hpub, .inl (.of_update hcp hco hfr hbeh hle)⟩

theorem effect_step (h : s.Valid) (hs : s.step event = some s') :
    Effect s event s' := by
  cases event with
  | produce record =>
    obtain ⟨position, hpos, hn⟩ := Option.bind_eq_some_iff.mp hs
    obtain ⟨hpr, heq⟩ := Option.ite_none_right_eq_some.mp hn
    cases heq
    exact ⟨⟨.inr ⟨record, position, hpos, all_eq_true.mp hpr, rfl⟩,
        fun _ _ hrow => hrow, fun _ hkey => hkey⟩, fun _ => rfl,
      .inl ⟨rfl, fun _ compactor hcp hcur => .inl ⟨hcur, compactor, hcp, .refl _⟩⟩⟩
  | start id =>
    rw [step, start] at hs
    split at hs <;> cases hs
    refine ⟨.of_eq rfl rfl rfl, fun _ => rfl, .inl ⟨rfl, fun other compactor hcp hcur => ?_⟩⟩
    simp only [setCompactor, Function.update_apply] at hcp hcur
    split at hcp
    · cases hcp
      exact .inr rfl
    · rename_i hne
      rw [if_neg hne] at hcur
      exact .inl ⟨hcur, compactor, hcp, .refl _⟩
  | assign id partition | revoke id partition =>
    obtain ⟨compactor, hcp, rfl⟩ := Option.map_eq_some_iff.mp hs
    exact .of_update hcp rfl rfl rfl (.of_eq rfl rfl rfl) (fun _ => rfl) (.refl _)
  | poll id batch =>
    obtain ⟨compactor, hcp, hs⟩ := Option.bind_eq_some_iff.mp hs
    rw [poll] at hs
    split at hs
    · obtain ⟨-, heq⟩ := Option.ite_none_right_eq_some.mp hs
      cases heq
      exact .of_update hcp rfl rfl rfl (.of_eq rfl rfl rfl) (fun _ => rfl) (.refl _)
    · cases hs
  | writeBlock id =>
    obtain ⟨compactor, hcp, hs⟩ := Option.bind_eq_some_iff.mp hs
    have hv := h.compactors id compactor hcp
    rw [writeBlock] at hs
    split at hs
    · rename_i batch chunk chunks descriptors hstg
      split at hs <;> cases hs
      rename_i key hkey
      refine .of_update hcp rfl rfl rfl
        (grows_write h hkey (hv.exact chunk (hv.suffix chunk ?_))) (fun _ => rfl) (.refl _)
      rw [hstg]
      exact mem_cons_self
    · cases hs
  | publishBlock id reported =>
    obtain ⟨compactor, hcp, hs⟩ := Option.bind_eq_some_iff.mp hs
    rw [publishBlock] at hs
    split at hs
    · split at hs <;> cases hs
      exact .of_update hcp rfl rfl rfl ⟨.inl rfl, fun _ _ hrow => hrow,
        fun _ hkey => mem_publish.mpr (.inl hkey)⟩ (fun hev => absurd rfl (hev id reported))
          (.refl _)
    · cases hs
  | retry id =>
    obtain ⟨compactor, hcp, hs⟩ := Option.bind_eq_some_iff.mp hs
    rw [retry] at hs
    split at hs <;> cases hs
    exact .of_update hcp rfl rfl rfl (.of_eq rfl rfl rfl) (fun _ => rfl) (.refl _)
  | commit id =>
    obtain ⟨compactor, hcp, hs⟩ := Option.bind_eq_some_iff.mp hs
    rw [commit] at hs
    split at hs <;> cases hs
    exact .of_update hcp rfl rfl rfl (.of_eq rfl rfl rfl) (fun _ => rfl) (.refl _)
  | advance id =>
    obtain ⟨compactor, hcp, hs⟩ := Option.bind_eq_some_iff.mp hs
    rw [advance] at hs
    split at hs <;> cases hs
    refine .of_update hcp rfl rfl rfl (.of_eq rfl rfl rfl) (fun _ => rfl) ?_
    rcases compactor.frontier.frontier_advance _ with heq | heq <;> rw [heq]
    · exact .refl _
    · exact CompactionFrontier.le_advancePartitionOffset _ _
  | putFrontier id outcome =>
    obtain ⟨compactor, hcp, hs⟩ := Option.bind_eq_some_iff.mp hs
    rw [putFrontier] at hs
    split at hs
    · split at hs <;> cases hs
      · exact ⟨.of_eq rfl rfl rfl, fun _ => rfl, .inr ⟨id, _, compactor, rfl, by decide, hcp, rfl,
          fun _ => rfl, _, rfl, rfl⟩⟩
      · exact ⟨.of_eq rfl rfl rfl, fun _ => rfl, .inr ⟨id, _, compactor, rfl, by decide, hcp, rfl,
          fun _ => rfl, _, rfl, rfl⟩⟩
      · exact .of_update hcp rfl rfl rfl (.of_eq rfl rfl rfl) (fun _ => rfl) (.refl _)
    · cases hs
  | crash id =>
    cases hs
    refine ⟨.of_eq rfl rfl rfl, fun _ => rfl, .inl ⟨rfl, fun other compactor hcp hcur => ?_⟩⟩
    simp only [setCompactor, Function.update_apply] at hcp
    split at hcp
    · cases hcp
    · exact .inl ⟨hcur, compactor, hcp, .refl _⟩

/-! ### One step -/

variable {record : WalLogRecord}

/-- The WAL takes a record past all of its partition. -/
theorem Valid.produce (h : s.Valid) (hg : Grows s s')
    (hs : s.produce record = some s') : s'.Valid := by
  obtain ⟨position, hpos, hn⟩ := Option.bind_eq_some_iff.mp hs
  obtain ⟨hpr, heq⟩ := Option.ite_none_right_eq_some.mp hn
  cases heq
  exact { h with
    ordered := by
      refine pairwise_append.mpr ⟨h.ordered, pairwise_singleton _ _, ?_⟩
      intro earlier hear later hl position' hpos'
      obtain rfl := mem_singleton.mp hl
      obtain rfl : position = position' := Option.some.inj (hpos.symm.trans hpos')
      exact all_eq_true.mp hpr earlier hear
    positioned := by
      intro other ho
      rcases mem_append.mp ho with ho | ho
      · exact h.positioned other ho
      · rw [mem_singleton.mp ho, hpos]
        rfl
    rows key row hrow := ⟨mem_append_left _ (h.rows key row hrow).1, (h.rows key row hrow).2⟩
    committed partition offset hoff := (h.committed partition offset hoff).grow hg
    frontier frontier hfr := (h.frontier frontier hfr).grow hg
    compactors id compactor hcp := (h.compactors id compactor hcp).grow hg }

/-- A process that starts has the stored frontier or none. -/
theorem covered_loadExisting (h : s.Valid) :
    s.Covered (loadExistingCompactionFrontier s.frontier).frontier := by
  rw [loadExistingCompactionFrontier]
  cases hsto : s.frontier with
  | none => exact covered_initial s
  | some frontier =>
    rw [Option.elim_some, SharedFrontierState.frontier_replace]
    exact h.frontier frontier hsto

theorem Valid.start (h : s.Valid) (hs : s.start id = some s') : s'.Valid := by
  rw [Compaction.start] at hs
  split at hs <;> cases hs
  exact h.update rfl rfl rfl h.committed h.frontier rfl ⟨covered_loadExisting h,
    nofun, nofun, nofun, nofun, nofun, nofun⟩

section Poll

variable {consumed : Nat → Option (Option Int)} {batch : List WalLogRecord}

theorem mem_wal_of_polled (hpol : polled s.wal consumed batch = true)
    (hrec : record ∈ batch) : record ∈ s.wal := by
  have hone := all_eq_true.mp hpol record hrec
  obtain ⟨⟨partition, offset⟩, hpos, -⟩ := Option.any_eq_true _ _ |>.mp hone
  obtain ⟨last, after, -, hun⟩ := exists_of_polled hpol hrec hpos
  have hmem : record ∈ unread s.wal partition last := by
    rw [hun]
    exact mem_append_left _ (mem_filter_onPartition.mpr ⟨hrec, offset, hpos⟩)
  exact (mem_unread.mp hmem).1

/-- Up to a record of a polled batch, every record of its partition is stored or in the
batch. -/
theorem settled_of_polled (h : s.Valid) (hpol : polled s.wal consumed batch = true)
    (hconsumed : ∀ partition offset, consumed partition = some (some offset) →
      s.Settled [] partition offset) (hrec : record ∈ batch) {partition : Nat} {offset : Int}
    (hpos : record.position = some ⟨partition, offset⟩) :
    s.Settled batch partition offset := by
  obtain ⟨last, after, hl, hun⟩ := exists_of_polled hpol hrec hpos
  constructor
  · exact ⟨record, mem_wal_of_polled hpol hrec, hpos⟩
  · intro other ho earlier hear hle
    by_cases ha : ∀ bound, last = some bound → bound < earlier
    · -- the other one is unread, and not past the batch
      have hmem : other ∈ unread s.wal partition last :=
        mem_unread.mpr ⟨ho, earlier, hear, ha⟩
      have hor : Ordered (unread s.wal partition last) :=
        h.ordered.sublist filter_sublist
      rw [hun] at hmem hor
      rcases mem_append.mp hmem with hba | hpa
      · exact .inr (mem_filter_onPartition.mp hba).1
      · have hmi := mem_filter_onPartition.mpr ⟨hrec, offset, hpos⟩
        have := hor.lt hmi hpa hpos hear
        exact absurd hle (not_le.mpr this)
    · push Not at ha
      obtain ⟨bound, rfl, hbd⟩ := ha
      exact .inl ((hconsumed partition bound hl).stored ho hear hbd)

/-- The chunks of a polled batch leave out no record between their ends. -/
theorem exact_of_polled (h : s.Valid) (hpol : polled s.wal consumed batch = true)
    (hchunk : chunk ∈ walCompactionChunks batch) : s.Exact chunk := by
  intro key hkey
  obtain ⟨hd, ⟨first, hf, hfi⟩, last, hl, hla⟩ := compactionKey_spec hkey
  obtain ⟨before, after, hba⟩ := exists_of_mem_walCompactionChunks hchunk
  have hmem : ∀ record ∈ chunk, record ∈ batch := by
    intro record hrec
    rw [hba]
    exact mem_append_right _ (mem_append_left _ hrec)
  have hall : chunk.filter (onPartition key.partition) = chunk := by
    refine filter_eq_self.mpr fun record hrec => ?_
    obtain ⟨offset, hpos, -, -⟩ := (hd record hrec).spans
    exact (mem_filter.mp (mem_filter_onPartition.mpr ⟨hrec, offset, hpos⟩)).2
  obtain ⟨consumed', rest, -, hun⟩ := exists_of_polled hpol (hmem first hf) hfi
  have hor : Ordered (unread s.wal key.partition consumed') :=
    h.ordered.sublist filter_sublist
  have hpo : ∀ record ∈ unread s.wal key.partition consumed', record.position.isSome :=
    fun record hrec => h.positioned record (mem_unread.mp hrec).1
  have hfirstU : first ∈ unread s.wal key.partition consumed' := by
    rw [hun]
    exact mem_append_left _ (mem_filter_onPartition.mpr ⟨hmem first hf, _, hfi⟩)
  -- the partition's unread records: those before the chunk, the chunk, those after it
  have hsp : unread s.wal key.partition consumed' =
      before.filter (onPartition key.partition) ++
        (chunk ++ (after.filter (onPartition key.partition) ++ rest)) := by
    rw [hun, hba, filter_append, filter_append, hall, append_assoc,
      append_assoc]
  refine ⟨fun record hrec => mem_wal_of_polled hpol (hmem record hrec), ?_, ?_⟩
  · have hnd := hor.nodup hpo
    rw [hsp] at hnd
    exact (nodup_append.mp (nodup_append.mp hnd).2.1).1
  · rintro record hrec ⟨offset, hpos, hge, hle⟩
    have hunr : record ∈ unread s.wal key.partition consumed' := by
      refine mem_unread.mpr ⟨hrec, offset, hpos, fun bound hbd => ?_⟩
      obtain ⟨-, offset', hoff', hlt⟩ := mem_unread.mp hfirstU
      obtain rfl : key.firstOffset = offset' := by
        simpa using Option.some.inj (hfi.symm.trans hoff')
      exact (hlt bound hbd).trans_le hge
    rw [hsp] at hunr hor
    rcases mem_append.mp hunr with hbef | hr
    · have := hor.lt hbef (mem_append_left _ hf) hpos hfi
      exact absurd hge (not_le.mpr this)
    · rcases mem_append.mp hr with hin | ha
      · exact hin
      · have hor' := hor.sublist (sublist_append_right _ _)
        have := hor'.lt hl ha hla hpos
        exact absurd hle (not_le.mpr this)

end Poll

section Process

variable {compactor : Compactor} {id : Nat} {batch : List WalLogRecord}
  {frontier : SharedFrontierState}

/-- A process enters the loop over the chunks of its batch, or the part of it that is
left. -/
theorem valid_compact
    {keys : List BlockKey} {rest : List (List WalLogRecord)} (hfr : s.Covered frontier.frontier)
    (hcn : ∀ partition offset, consumed partition = some (some offset) →
      s.Settled rest.flatten partition offset)
    (hks : ∀ key ∈ keys, s.Settled rest.flatten key.partition key.lastOffset)
    (hba : ∀ record ∈ batch, ∀ partition offset, record.position = some ⟨partition, offset⟩ →
      s.Settled rest.flatten partition offset)
    (hex : ∀ chunk ∈ walCompactionChunks batch, s.Exact chunk)
    (hr : ∀ chunk ∈ rest, chunk ∈ walCompactionChunks batch) :
    Compactor.Valid s ⟨frontier, consumed, .compact batch keys rest⟩ := by
  cases rest with
  | nil => exact ⟨hfr, hcn, hks, nofun, nofun, nofun, nofun⟩
  | cons _ _ => exact ⟨hfr, hcn, hks, hba, hex, hr, nofun⟩

theorem Valid.poll (h : s.Valid) (hcompactor : s.compactors id = some compactor)
    (hs : s.poll id compactor batch = some s') : s'.Valid := by
  obtain ⟨frontier, consumed, stage⟩ := compactor
  have hv := h.compactors id _ hcompactor
  rw [Compaction.poll] at hs
  split at hs
  · rename_i hstg
    cases hstg
    obtain ⟨hpol, heq⟩ := Option.ite_none_right_eq_some.mp hs
    cases heq
    have hset := fun record (hrec : record ∈ batch) partition offset
      (hpos : record.position = some ⟨partition, offset⟩) =>
        settled_of_polled h hpol hv.consumed hrec hpos
    refine h.setCompactor (valid_compact hv.frontier ?_ ?_ ?_
      (fun chunk hch => exact_of_polled h hpol hch) fun chunk hch => hch)
    all_goals rw [flatten_walCompactionChunks]
    · intro partition offset hoff
      rcases consume_eq hoff with hbef | ⟨record, hrec, hpos⟩
      · exact (hv.consumed partition offset hbef).weaken
      · exact hset record hrec partition offset hpos
    · exact nofun
    · exact hset
  · cases hs

theorem Valid.writeBlock (h : s.Valid) (hg : Grows s s') (hcompactor : s.compactors id =
    some compactor)
    (hs : s.writeBlock id compactor = some s') : s'.Valid := by
  obtain ⟨frontier, consumed, stage⟩ := compactor
  have hv := h.compactors id _ hcompactor
  rw [Compaction.writeBlock] at hs
  split at hs
  · rename_i batch chunk chunks descriptors hstg
    cases hstg
    split at hs <;> cases hs
    rename_i key hkey
    have hex := hv.exact chunk (hv.suffix chunk mem_cons_self) key hkey
    refine h.replace hg rfl ?_ ?_ h.publishedNodup h.committed h.frontier rfl ?_
    · intro other record hrow
      dsimp only at hrow
      rw [Function.update_apply] at hrow
      split at hrow
      · rename_i heq
        subst heq
        exact ⟨hex.1 record hrow, (compactionKey_spec hkey).1 record hrow⟩
      · exact h.rows other record hrow
    · intro other
      dsimp only
      rw [Function.update_apply]
      split
      · exact hex.2.1
      · exact h.rowsNodup other
    · intro next hn
      cases hn
      refine { hv.grow hg with written := fun _ other ho key' hkey' record hrec => ?_ }
      cases ho
      cases hkey.symm.trans hkey'
      dsimp only
      rwa [Function.update_self]
  · cases hs

/-- The records of the chunks left are of the batch. -/
theorem mem_batch_of_mem_chunks (hv : compactor.Valid s)
    (hrec : record ∈ compactor.stage.chunks.flatten) :
    record ∈ (walCompactionChunks compactor.stage.batch).flatten := by
  obtain ⟨chunk, hch, hmem⟩ := mem_flatten.mp hrec
  exact mem_flatten.mpr ⟨chunk, hv.suffix chunk hch, hmem⟩

/-- A process may start its batch again. -/
theorem valid_retry (hv : compactor.Valid s) (hbatch : compactor.stage.batch = batch) :
    Compactor.Valid s ⟨compactor.frontier, compactor.consumed,
      .compact batch [] (walCompactionChunks batch)⟩ := by
  subst hbatch
  have hdr := fun record (hrec : record ∈ compactor.stage.chunks.flatten) =>
    Or.inr (a := s.Stored record) (mem_batch_of_mem_chunks hv hrec)
  refine valid_compact hv.frontier ?_ ?_ ?_ hv.exact fun chunk hch => hch
  · exact fun partition offset hoff => (hv.consumed partition offset hoff).drop hdr
  · exact nofun
  · exact fun record hrec partition offset hpos =>
      (hv.batch record hrec partition offset hpos).drop hdr

theorem Valid.retry (h : s.Valid) (hcp : s.compactors id = some compactor)
    (hs : s.retry id compactor = some s') : s'.Valid := by
  rw [Compaction.retry] at hs
  split at hs <;> cases hs
  rename_i hstg
  exact h.setCompactor (valid_retry (h.compactors id compactor hcp) (by rw [hstg]; rfl))

theorem nodup_publish (h : s.Valid) (key : BlockKey) :
    (if key ∈ s.published then s.published else s.published ++ [key]).Nodup := by
  split
  · exact h.publishedNodup
  · rename_i hmem
    refine nodup_append.mpr ⟨h.publishedNodup, nodup_singleton key, ?_⟩
    rintro other ho _ hsi rfl
    exact hmem (mem_singleton.mp hsi ▸ ho)

variable {descriptors : List BlockKey}

/-- A process whose chunk is published goes on to the next. -/
theorem valid_next {chunks : List (List WalLogRecord)}
    (hv : Compactor.Valid s
      ⟨frontier, consumed, .compacting batch (chunk :: chunks) true descriptors⟩)
    (hkey : compactionKey chunk = .ok key) (hpub : key ∈ s.published) :
    Compactor.Valid s ⟨frontier, consumed, .compact batch (descriptors ++ [key]) chunks⟩ := by
  obtain ⟨hde, -, last, hl, hpos⟩ := compactionKey_spec hkey
  -- the records of the chunk are stored now
  have hdr : ∀ record ∈ (chunk :: chunks).flatten,
      s.Stored record ∨ record ∈ chunks.flatten := by
    intro record hrec
    rcases mem_append.mp hrec with hrec | hrec
    · exact .inl ⟨key, hpub, hv.written rfl chunk rfl key hkey record hrec, hde record hrec⟩
    · exact .inr hrec
  have hbat : last ∈ batch := by
    rw [← flatten_walCompactionChunks batch]
    exact mem_flatten.mpr ⟨chunk, hv.suffix chunk mem_cons_self, hl⟩
  refine valid_compact hv.frontier ?_ ?_ ?_ hv.exact ?_
  · exact fun partition offset hoff => (hv.consumed partition offset hoff).drop hdr
  · intro other ho
    rcases mem_append.mp ho with ho | ho
    · exact (hv.descriptors other ho).drop hdr
    · obtain rfl := mem_singleton.mp ho
      exact (hv.batch last hbat _ _ hpos).drop hdr
  · exact fun record hrec partition offset hpos =>
      (hv.batch record hrec partition offset hpos).drop hdr
  · exact fun other ho => hv.suffix other (mem_cons_of_mem _ ho)

theorem Valid.publishBlock (h : s.Valid) (hg : Grows s s') (hcp : s.compactors id = some compactor)
    {reported : Bool} (hs : s.publishBlock id compactor reported = some s') : s'.Valid := by
  obtain ⟨frontier, consumed, stage⟩ := compactor
  have hv := (h.compactors id _ hcp).grow hg
  rw [Compaction.publishBlock] at hs
  split at hs
  · rename_i batch chunk chunks descriptors hstg
    cases hstg
    split at hs <;> cases hs
    rename_i key hkey
    refine h.replace hg rfl h.rows h.rowsNodup (nodup_publish h key) h.committed h.frontier rfl ?_
    intro next hn
    cases hn
    cases reported with
    | false => exact valid_retry hv rfl
    | true => exact valid_next hv hkey (mem_publish.mpr (.inr rfl))
  · cases hs

/-- A process between the blocks of a batch. -/
theorem valid_persist (hv : compactor.Valid s)
    (hno : compactor.stage.chunks = [])
    (hd : ∀ key ∈ descriptors, key ∈ compactor.stage.descriptors) :
    { compactor with stage := .persist descriptors }.Valid s := by
  have hcn := hv.consumed
  have hset := fun key hkey => hv.descriptors key (hd key hkey)
  rw [hno] at hcn hset
  cases descriptors <;> exact ⟨hv.frontier, hcn, hset, nofun, nofun, nofun, nofun⟩

theorem Valid.commit (h : s.Valid) (hcompactor : s.compactors id = some compactor)
    (hs : s.commit id compactor = some s') : s'.Valid := by
  obtain ⟨frontier, consumed, stage⟩ := compactor
  have hv := h.compactors id _ hcompactor
  rw [Compaction.commit] at hs
  split at hs <;> cases hs
  rename_i descriptors hstg
  cases hstg
  refine h.update rfl rfl rfl ?_ h.frontier rfl (valid_persist hv rfl fun _ hkey => hkey)
  intro partition offset hoff
  rcases Option.or_eq_some_iff.mp hoff with hcom | ⟨-, hbef⟩
  · obtain ⟨last, hl, rfl⟩ := Option.bind_eq_some_iff.mp hcom
    exact hv.consumed partition offset hl
  · exact h.committed partition offset hbef

/-- An advance goes to an offset that is settled. -/
theorem Covered.advance {shared : SharedFrontierState} (h : s.Covered shared.frontier)
    (hset : s.Settled [] position.partition position.offset) :
    s.Covered (shared.advancePartitionOffset position).frontier := by
  rcases shared.frontier_advance position with heq | heq
  · rw [heq]
    exact h
  · rw [heq]
    refine ⟨h.through, fun partition offset hoff => ?_⟩
    rcases CompactionFrontier.of_advancePartitionOffset hoff with hbef | ⟨rfl, rfl⟩
    · exact h.settled partition offset hbef
    · exact hset

theorem Valid.advance (h : s.Valid) (hcompactor : s.compactors id = some compactor)
    (hs : s.advance id compactor = some s') : s'.Valid := by
  obtain ⟨frontier, consumed, stage⟩ := compactor
  have hv := h.compactors id _ hcompactor
  rw [Compaction.advance] at hs
  split at hs <;> cases hs
  rename_i descriptor descriptors hstg
  cases hstg
  exact h.setCompactor { hv with
    frontier := hv.frontier.advance (hv.descriptors descriptor mem_cons_self), written := nofun }

theorem Valid.putFrontier (h : s.Valid) (hcompactor : s.compactors id = some compactor)
    {outcome : ObjectStore.Outcome} (hs : s.putFrontier id compactor outcome = some s') :
    s'.Valid := by
  obtain ⟨shared, consumed, stage⟩ := compactor
  have hv := h.compactors id _ hcompactor
  rw [Compaction.putFrontier] at hs
  split at hs
  · rename_i descriptor descriptors hstg
    cases hstg
    have hsto : ∀ frontier, some shared.frontier = some frontier → s.Covered frontier := by
      intro frontier hfr
      cases hfr
      exact hv.frontier
    have hagain : Compactor.Valid s ⟨shared, consumed, .persisting descriptor descriptors false⟩ :=
      { hv with written := nofun }
    split at hs <;> cases hs
    · exact h.update rfl rfl rfl h.committed hsto rfl
        (valid_persist hv rfl fun _ hkey => mem_cons_of_mem _ hkey)
    · exact h.update rfl rfl rfl h.committed hsto rfl hagain
    · exact h.setCompactor hagain
  · cases hs

/-- A process whose consumer's positions change to settled ones. -/
theorem Valid.reassign (h : s.Valid) (hcompactor : s.compactors id = some compactor)
    {partition : Nat} {position : Option (Option Int)}
    (hpos : ∀ offset, position = some (some offset) → s.Settled [] partition offset) :
    (s.setCompactor id (some { compactor with
      consumed := Function.update compactor.consumed partition position })).Valid := by
  have hv := h.compactors id compactor hcompactor
  refine h.setCompactor { hv with consumed := fun other offset hoff => ?_ }
  dsimp only at hoff
  rw [Function.update_apply] at hoff
  split at hoff
  · rename_i heq
    subst heq
    exact (hpos offset hoff).weaken
  · exact hv.consumed other offset hoff

end Process

/-- Every step keeps what the compactors rely on. -/
theorem Valid.step (h : s.Valid) (hs : s.step event = some s') : s'.Valid := by
  have hg := (effect_step h hs).grows
  cases event with
  | produce record => exact h.produce hg hs
  | start id => exact h.start hs
  | assign id partition =>
    obtain ⟨compactor, hcp, rfl⟩ := Option.map_eq_some_iff.mp hs
    exact h.reassign hcp fun offset hoff =>
      h.committed partition offset (Option.some.inj hoff)
  | revoke id partition =>
    obtain ⟨compactor, hcp, rfl⟩ := Option.map_eq_some_iff.mp hs
    refine h.reassign hcp fun offset hoff => ?_
    cases hoff
  | poll id batch => exact of_part h.poll hs
  | writeBlock id => exact of_part (h.writeBlock hg) hs
  | publishBlock id reported => exact of_part (h.publishBlock hg · ·) hs
  | retry id => exact of_part h.retry hs
  | commit id => exact of_part h.commit hs
  | advance id => exact of_part h.advance hs
  | putFrontier id outcome => exact of_part (h.putFrontier · ·) hs
  | crash id =>
    cases hs
    exact h.replace hg rfl h.rows h.rowsNodup h.publishedNodup h.committed h.frontier rfl nofun

end Compaction

end KrabkaO11y.Observability
