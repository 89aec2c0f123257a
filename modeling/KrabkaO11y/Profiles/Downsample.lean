import KrabkaO11y.Collections.Upsert
import KrabkaO11y.Profiles.SymbolBlocks
import KrabkaO11y.Profiles.WalTailStore

/-!
The rows of a compaction (`crates/profiles/src/compactor/compact_blocks_with_policy.rs`,
`downsample_batches.rs`, `sample_group_buffer.rs`).

The rows of each input are moved to the partitions that its stacks are copied to. The merged
rows arrive in the declared order, cut anywhere. The buffer hands on whole cells, so summing
what it hands on piece by piece is summing everything at once. Rows carry milliseconds and the
resolution is in nanoseconds, so a bucket is a million times as wide as it should be.
-/

namespace KrabkaO11y.Profiles

open Collections Machine List

variable {ι : Type}

structure ProfileSampleFields (ι : Type) where
  seriesFingerprint : Nat
  profileType : String
  stacktraceId : Nat
  value : Int64
  stacktracePartition : Nat
  totalValue : Int64
  spanId : Option Nat
  traceId : Option (List Nat)
  walSampleIds : List ι
deriving DecidableEq, Repr

structure SampleRow (ι : Type) where
  timestamp : Int64
  fields : ProfileSampleFields ι
deriving DecidableEq, Repr

structure DownsampleKey where
  seriesFingerprint : Nat
  profileType : String
  timestamp : Int64
  stacktraceId : Nat
  stacktracePartition : Nat
  spanId : Option Nat
  traceId : Option (List Nat)
deriving DecidableEq, Repr

namespace SampleRow

def key (row : SampleRow ι) : DownsampleKey :=
  ⟨row.fields.seriesFingerprint, row.fields.profileType, row.timestamp, row.fields.stacktraceId,
    row.fields.stacktracePartition, row.fields.spanId, row.fields.traceId⟩

/-- Adds a row of the same key. -/
def absorb (row other : SampleRow ι) : SampleRow ι :=
  { row with fields := { row.fields with
    value := row.fields.value + other.fields.value
    totalValue := row.fields.totalValue + other.fields.totalValue
    walSampleIds := row.fields.walSampleIds ++ other.fields.walSampleIds } }

end SampleRow

open SampleRow

/-- The start of the bucket of a timestamp, in the unit of the timestamp. -/
def bucket (resolutionNs timestamp : Int64) : Int64 :=
  saturate (timestamp.toInt / resolutionNs.toInt * resolutionNs.toInt)

variable (resolutionNs : Int64)

def SampleRow.rounded (row : SampleRow ι) : SampleRow ι :=
  { row with timestamp := bucket resolutionNs row.timestamp }

/-- The summed rows of some batches, in the order of the first row of each key; the source
orders them by key. -/
def downsampleBatches (rows : List (SampleRow ι)) : List (SampleRow ι) :=
  upsertAll key absorb [] (rows.map (·.rounded resolutionNs))

/-! ### The group buffer -/

/-- The cell that a row is summed in. -/
def cell (row : SampleRow ι) : Nat × String × Int64 :=
  (row.fields.seriesFingerprint, row.fields.profileType, bucket resolutionNs row.timestamp)

/-- Where the last cell of some rows starts. -/
def lastBucketStart (rows : List (SampleRow ι)) : Nat :=
  match rows.getLast? with
  | none => 0
  | some last => rows.length -
      (rows.reverse.takeWhile fun row => cell resolutionNs row = cell resolutionNs last).length

def takeComplete (minRows : Nat) (resolutionNs : Int64) (buffer : List (SampleRow ι)) :
    Option (List (SampleRow ι) × List (SampleRow ι)) :=
  if buffer.length < minRows then none
  else
    let cut := lastBucketStart resolutionNs buffer
    if cut = 0 then none else some (buffer.take cut, buffer.drop cut)

/-- The loop that takes complete cells; each round shortens the buffer. -/
def drain (minRows : Nat) (resolutionNs : Int64) : Nat → List (SampleRow ι) →
    List (List (SampleRow ι)) × List (SampleRow ι)
  | 0, buffer => ([], buffer)
  | fuel + 1, buffer =>
    match takeComplete minRows resolutionNs buffer with
    | none => ([], buffer)
    | some (complete, rest) =>
      let drained := drain minRows resolutionNs fuel rest
      (complete :: drained.1, drained.2)

/-- What is handed on of the merged batches, piece by piece. -/
def pieces (minRows : Nat) (resolutionNs : Int64) : List (SampleRow ι) →
    List (List (SampleRow ι)) → List (List (SampleRow ι))
  | buffer, [] => if buffer = [] then [] else [buffer]
  | buffer, batch :: rest =>
    let drained := drain minRows resolutionNs (buffer ++ batch).length (buffer ++ batch)
    drained.1 ++ pieces minRows resolutionNs drained.2 rest

/-- The rows of the output block. -/
def compactRows (minRows : Nat) (resolutionNs : Int64) (batches : List (List (SampleRow ι))) :
    List (SampleRow ι) :=
  (pieces minRows resolutionNs [] batches).flatMap (downsampleBatches resolutionNs)

/-! ### Sums -/

/-- A row holds the sums of the rows of its key. -/
structure Sums (rows : List (SampleRow ι)) (row : SampleRow ι) : Prop where
  value : row.fields.value = ((rows.filter (·.key = row.key)).map (·.fields.value)).sum
  totalValue : row.fields.totalValue =
    ((rows.filter (·.key = row.key)).map (·.fields.totalValue)).sum
  walSampleIds : row.fields.walSampleIds =
    (rows.filter (·.key = row.key)).flatMap (·.fields.walSampleIds)

/-- Rows of one key add their values and join their identities. -/
theorem absorbs_sums : Absorbs (@SampleRow.key ι) absorb (fun _ => True) Sums where
  key_absorb _ _ := rfl
  absorbs {rows row other} _ h hkey := by
    have hfil : (rows ++ [other]).filter (·.key = (row.absorb other).key) =
        rows.filter (·.key = row.key) ++ [other] := by
      rw [filter_append, show (row.absorb other).key = row.key from rfl,
        filter_cons_of_pos (by simpa using hkey.symm), filter_nil]
    refine ⟨?_, ?_, ?_⟩
    · rw [hfil, map_append, sum_append, ← h.value]
      simp [absorb]
    · rw [hfil, map_append, sum_append, ← h.totalValue]
      simp [absorb]
    · rw [hfil, flatMap_append, ← h.walSampleIds]
      simp [absorb]
  appends {rows row} _ hnew := by
    have hno : rows.filter (·.key = row.key) = [] :=
      filter_eq_nil_iff.mpr fun other ho => by
        simpa using fun heq : other.key = row.key => hnew (heq ▸ mem_map_of_mem ho)
    refine ⟨?_, ?_, ?_⟩ <;> simp [filter_append, hno]
  frames {rows row other} h hne := by
    have hfil : (rows ++ [other]).filter (·.key = row.key) = rows.filter (·.key = row.key) := by
      rw [filter_append, filter_cons_of_neg (by simpa using Ne.symm hne), filter_nil,
        append_nil]
    exact ⟨by rw [hfil, h.value], by rw [hfil, h.totalValue], by rw [hfil, h.walSampleIds]⟩

/-- One row for each key of the rounded rows. -/
theorem gathered_downsampleBatches (rows : List (SampleRow ι)) :
    Gathered key Sums (rows.map (·.rounded resolutionNs))
      (downsampleBatches resolutionNs rows) := by
  have h : Gathered key Sums ([] ++ rows.map (·.rounded resolutionNs))
      (downsampleBatches resolutionNs rows) :=
    gathered_nil.upsertAll absorbs_sums fun _ _ => trivial
  exact h

/-- Sums of rows without a common key are sums of the rows together. -/
theorem Gathered.append_sums {rows rows' out out' : List (SampleRow ι)}
    (h : Gathered key Sums rows out) (h' : Gathered key Sums rows' out')
    (apart : ∀ row ∈ rows, ∀ row' ∈ rows', row.key ≠ row'.key) :
    Gathered key Sums (rows ++ rows') (out ++ out') := by
  have hkey {rows out : List (SampleRow ι)} (h : Gathered key Sums rows out)
      {row : SampleRow ι} (hrow : row ∈ out) : ∃ source ∈ rows, source.key = row.key :=
    mem_map.mp ((h.keys _).mp (mem_map_of_mem hrow))
  have hno {rows : List (SampleRow ι)} {row : SampleRow ι}
      (hne : ∀ source ∈ rows, source.key ≠ row.key) : rows.filter (·.key = row.key) = [] :=
    filter_eq_nil_iff.mpr fun source hsrc => by simpa using hne source hsrc
  refine ⟨?_, fun k => ?_, fun row hrow => ?_⟩
  · rw [map_append]
    refine h.nodup.append h'.nodup fun k hk hk' => ?_
    obtain ⟨row, hrow, rfl⟩ := mem_map.mp ((h.keys k).mp hk)
    obtain ⟨row', hrow', heq⟩ := mem_map.mp ((h'.keys _).mp hk')
    exact apart row hrow row' hrow' heq.symm
  · rw [map_append, map_append, mem_append, mem_append, h.keys, h'.keys]
  · rcases mem_append.mp hrow with hlf | hr
    · obtain ⟨source, hsrc, heq⟩ := hkey h hlf
      have hfil : (rows ++ rows').filter (·.key = row.key) = rows.filter (·.key = row.key) := by
        rw [filter_append, hno fun other ho ho' =>
          apart source hsrc other ho (heq.trans ho'.symm), append_nil]
      have hsu := h.each row hlf
      exact ⟨by rw [hfil, hsu.value], by rw [hfil, hsu.totalValue],
        by rw [hfil, hsu.walSampleIds]⟩
    · obtain ⟨source, hsrc, heq⟩ := hkey h' hr
      have hfil : (rows ++ rows').filter (·.key = row.key) = rows'.filter (·.key = row.key) := by
        rw [filter_append, hno fun other ho ho' =>
          apart other ho source hsrc (ho'.trans heq.symm), nil_append]
      have hsu := h'.each row hr
      exact ⟨by rw [hfil, hsu.value], by rw [hfil, hsu.totalValue],
        by rw [hfil, hsu.walSampleIds]⟩

/-! ### Cells are handed on whole -/

/-- The declared order of the rows of a block. -/
def rowOrder (row : SampleRow ι) : Nat ×ₗ String ×ₗ Int :=
  toLex (row.fields.seriesFingerprint, toLex (row.fields.profileType, row.timestamp.toInt))

/-- The order of the cells, which the order of the rows refines. -/
def cellOrder (row : SampleRow ι) : Nat ×ₗ String ×ₗ Int :=
  rowOrder (row.rounded resolutionNs)

variable {d : Int64} {row row' : SampleRow ι}

theorem cell_eq_iff :
    cell d row = cell d row' ↔ cellOrder d row = cellOrder d row' := by
  simp only [cell, cellOrder, rowOrder, rounded, Prod.mk.injEq, toLex_inj,
    Int64.toInt_inj]

/-- Rows in order have their cells in order. -/
theorem cellOrder_le (hd : 0 < d.toInt) (h : rowOrder row ≤ rowOrder row') :
    cellOrder d row ≤ cellOrder d row' := by
  simp only [rowOrder, cellOrder, rounded, Prod.Lex.toLex_le_toLex] at h ⊢
  refine h.imp_right fun h => h.imp_right fun h => h.imp_right fun h => h.imp_right fun h => ?_
  exact Int64.le_iff_toInt_le.mp
    (saturate_mono (mul_le_mul_of_nonneg_right (Int.ediv_le_ediv hd h) hd.le))

/-- Before the last run of a sorted list, read backwards, are smaller keys only. -/
theorem lt_of_mem_dropWhile {α κ : Type*} [LinearOrder κ] {f : α → κ} {k : κ} {xs : List α}
    (sorted : xs.Pairwise fun x y => f y ≤ f x) (hle : ∀ x ∈ xs, f x ≤ k) {x : α}
    (hx : x ∈ xs.dropWhile (f · = k)) : f x < k := by
  induction xs with
  | nil => cases hx
  | cons y xs ih =>
    obtain ⟨hy, hxs⟩ := pairwise_cons.mp sorted
    rw [dropWhile_cons] at hx
    split at hx
    · exact ih hxs (fun z hz => hle z (mem_cons_of_mem _ hz)) hx
    · rename_i hne
      have hlt : f y < k := lt_of_le_of_ne (hle y mem_cons_self) (by simpa using hne)
      rcases mem_cons.mp hx with rfl | hx
      · exact hlt
      · exact (hy x hx).trans_lt hlt

/-- Every cell of one list comes before every cell of the other. -/
def Apart (d : Int64) (rows rows' : List (SampleRow ι)) : Prop :=
  ∀ row ∈ rows, ∀ row' ∈ rows', cellOrder d row < cellOrder d row'

def InCellOrder (d : Int64) (rows : List (SampleRow ι)) : Prop :=
  rows.Pairwise fun row row' => cellOrder d row ≤ cellOrder d row'

variable {minRows : Nat}

/-- What is taken is complete: its cells come before the last one. -/
theorem takeComplete_eq_some {buffer complete rest : List (SampleRow ι)}
    (sorted : InCellOrder d buffer) (h : takeComplete minRows d buffer = some (complete, rest)) :
    complete ++ rest = buffer ∧ ∃ last ∈ rest,
      (∀ row ∈ complete, cellOrder d row < cellOrder d last) ∧
        ∀ row ∈ rest, cellOrder d row = cellOrder d last := by
  rw [takeComplete] at h
  split at h
  · cases h
  dsimp only at h
  split at h
  · cases h
  rename_i hcut
  obtain ⟨rfl, rfl⟩ := Prod.mk.inj (Option.some.inj h)
  refine ⟨take_append_drop _ _, ?_⟩
  rcases eq_nil_or_concat buffer with rfl | ⟨front, last, rfl⟩
  · exact absurd rfl hcut
  rw [concat_eq_append] at sorted ⊢
  set rows := front ++ [last] with hrs
  let run := rows.reverse.takeWhile fun row => cell d row = cell d last
  let before := rows.reverse.dropWhile fun row => cell d row = cell d last
  have hsp : rows = before.reverse ++ run.reverse := by
    rw [← reverse_append, takeWhile_append_dropWhile, reverse_reverse]
  have hlen : lastBucketStart d rows = before.reverse.length := by
    have hsum : rows.length = before.reverse.length + run.length :=
      (congrArg List.length hsp).trans (by simp)
    have hl : rows.getLast? = some last := getLast?_concat
    simp only [lastBucketStart, hl]
    change rows.length - run.length = _
    omega
  have hta : rows.take (lastBucketStart d rows) = before.reverse := by
    rw [hlen]
    nth_rewrite 1 [hsp]
    exact take_left
  have hdr : rows.drop (lastBucketStart d rows) = run.reverse := by
    rw [hlen]
    nth_rewrite 1 [hsp]
    exact drop_left
  have hle : ∀ row ∈ rows.reverse, cellOrder d row ≤ cellOrder d last := fun row hrow => by
    rcases mem_append.mp (mem_reverse.mp hrow) with hrow | hrow
    · exact (pairwise_append.mp sorted).2.2 row hrow last mem_cons_self
    · rw [mem_singleton.mp hrow]
  have hpr : (fun row : SampleRow ι => decide (cell d row = cell d last)) =
      fun row => decide (cellOrder d row = cellOrder d last) :=
    funext fun row => decide_eq_decide.mpr cell_eq_iff
  rw [hta, hdr]
  refine ⟨last, ?_, fun row hrow => ?_, fun row hrow => ?_⟩
  · rw [mem_reverse]
    simp [run, hrs]
  · refine lt_of_mem_dropWhile (pairwise_reverse.mpr sorted) hle ?_
    rw [← hpr]
    exact mem_reverse.mp hrow
  · exact cell_eq_iff.mp (by simpa using mem_takeWhile_imp (mem_reverse.mp hrow))

/-- What is drained is all of the buffer, and its cells are before whatever comes later. -/
theorem drain_spec {future : List (SampleRow ι)} {fuel : Nat} :
    ∀ {buffer : List (SampleRow ι)}, InCellOrder d (buffer ++ future) →
      (drain minRows d fuel buffer).1.flatten ++ (drain minRows d fuel buffer).2 = buffer ∧
        ((drain minRows d fuel buffer).1 ++ [(drain minRows d fuel buffer).2 ++ future]).Pairwise
          (Apart d) := by
  induction fuel with
  | zero => exact fun _ => ⟨rfl, pairwise_singleton _ _⟩
  | succ fuel ih =>
    intro buffer hso
    rw [drain]
    cases hta : takeComplete minRows d buffer with
    | none => exact ⟨rfl, pairwise_singleton _ _⟩
    | some taken =>
      obtain ⟨complete, rest⟩ := taken
      obtain ⟨rfl, last, hl, hbef, hrun⟩ :=
        takeComplete_eq_some (pairwise_append.mp hso).1 hta
      rw [InCellOrder, append_assoc] at hso
      have hr := (pairwise_append.mp hso).2.1
      obtain ⟨hfl, hap⟩ := ih hr
      refine ⟨?_, pairwise_cons.mpr ⟨fun piece hpi row hrow row' hrow' => ?_, hap⟩⟩
      · rw [flatten_cons, append_assoc, hfl]
      · -- Whatever is left lies in the rest of the buffer or comes after it.
        have hmem : row' ∈ rest ++ future := by
          rw [← hfl, append_assoc]
          rcases mem_append.mp hpi with hpi | hpi
          · exact mem_append_left _ (mem_flatten_of_mem hpi hrow')
          · rw [mem_singleton.mp hpi] at hrow'
            exact mem_append_right _ hrow'
        refine (hbef row hrow).trans_le ?_
        rcases mem_append.mp hmem with hmem | hmem
        · exact (hrun row' hmem).ge
        · exact (pairwise_append.mp hr).2.2 last hl row' hmem

variable {batches : List (List (SampleRow ι))}

/-- The pieces are the rows, and no cell is in two of them. -/
theorem pieces_spec :
    ∀ {buffer : List (SampleRow ι)}, InCellOrder d (buffer ++ batches.flatten) →
      (pieces minRows d buffer batches).flatten = buffer ++ batches.flatten ∧
        (pieces minRows d buffer batches).Pairwise (Apart d) := by
  induction batches with
  | nil =>
    intro buffer _
    rw [pieces, flatten_nil, append_nil]
    split
    · rename_i hnil
      exact ⟨hnil.symm, List.Pairwise.nil⟩
    · exact ⟨flatten_singleton, pairwise_singleton _ _⟩
  | cons batch batches ih =>
    intro buffer hso
    rw [flatten_cons, ← append_assoc] at hso ⊢
    rw [pieces]
    obtain ⟨hfl, hap⟩ := @drain_spec ι d minRows _ (buffer ++ batch).length _ hso
    set drained := drain minRows d (buffer ++ batch).length (buffer ++ batch)
    rw [← hfl, InCellOrder, append_assoc] at hso
    obtain ⟨hr, hpie⟩ := ih (pairwise_append.mp hso).2.1
    obtain ⟨hdr, -, hl⟩ := pairwise_append.mp hap
    refine ⟨?_, pairwise_append.mpr ⟨hdr, hpie, fun piece hpi later hmem => ?_⟩⟩
    · rw [flatten_append, hr, ← append_assoc, hfl]
    · refine fun row hrow row' hrow' => hl piece hpi _ mem_cons_self row hrow row' ?_
      rw [← hr]
      exact mem_flatten_of_mem hmem hrow'

theorem Apart.key_ne {rows rows' : List (SampleRow ι)} (h : Apart d rows rows') :
    ∀ row ∈ rows.map (·.rounded d), ∀ row' ∈ rows'.map (·.rounded d), row.key ≠ row'.key := by
  intro row hrow row' hrow' hkey
  obtain ⟨source, hsrc, rfl⟩ := mem_map.mp hrow
  obtain ⟨source', hsrc', rfl⟩ := mem_map.mp hrow'
  have hce : cell d source = cell d source' :=
    congrArg (fun key => (key.seriesFingerprint, key.profileType, key.timestamp)) hkey
  exact (h source hsrc source' hsrc').ne (cell_eq_iff.mp hce)

/-- Pieces that share no key are downsampled one by one. -/
theorem gathered_flatMap {ps : List (List (SampleRow ι))} (h : ps.Pairwise (Apart d)) :
    Gathered key Sums (ps.flatten.map (·.rounded d))
      (ps.flatMap (downsampleBatches d)) := by
  induction ps with
  | nil => exact gathered_nil
  | cons p ps ih =>
    obtain ⟨hp, hps⟩ := pairwise_cons.mp h
    rw [flatten_cons, map_append, flatMap_cons]
    refine Gathered.append_sums (gathered_downsampleBatches d p) (ih hps) (Apart.key_ne ?_)
    intro row hrow row' hrow'
    obtain ⟨piece, hpi, hmem⟩ := mem_flatten.mp hrow'
    exact hp piece hpi row hrow row' hmem

/-- However the merged rows are cut, the output has one row for each key with its sums. -/
theorem gathered_compactRows (hd : 0 < d.toInt) (minRows : Nat)
    (sorted : batches.flatten.Pairwise fun row row' => rowOrder row ≤ rowOrder row') :
    Gathered key Sums (batches.flatten.map (·.rounded d))
      (compactRows minRows d batches) := by
  obtain ⟨hfl, hap⟩ := @pieces_spec ι d minRows batches [] (sorted.imp (cellOrder_le hd))
  rw [nil_append] at hfl
  rw [← hfl]
  exact gathered_flatMap hap

/-! ### Compactions -/

/-- The rows of a block, and the stack partitions that its index entry lists. -/
structure ProfileBlock (ι : Type) where
  rows : List (SampleRow ι)
  partitions : List Nat
deriving DecidableEq, Repr

/-- The block that the block builder writes of some rows. -/
def ProfileBlock.ofRows (rows : List (SampleRow ι)) : ProfileBlock ι where
  rows := rows.insertionSort fun row row' => rowOrder row ≤ rowOrder row'
  partitions := [stacktracePartition]

def SampleRow.inPartition (partition : Nat) (row : SampleRow ι) : SampleRow ι :=
  { row with fields := { row.fields with stacktracePartition := partition } }

def SampleRow.remap (map : List (Nat × Nat)) (row : SampleRow ι) : SampleRow ι :=
  row.inPartition (remapPartition map row.fields.stacktracePartition)

/-- The inputs with the partitions that their stacks are copied to. -/
def remapInputs (blocks : List (ProfileBlock ι)) : Except String (List (ProfileBlock ι)) :=
  blocks.zipIdx.mapM fun input => do
    let map ← destinationPartitions input.2 (sourcePartitions input.1.partitions)
    return ⟨input.1.rows.map (·.remap map), map.map Prod.snd⟩

/-- The batches are the rows of the inputs in the declared order, cut anywhere. -/
def Merged (blocks : List (ProfileBlock ι)) (batches : List (List (SampleRow ι))) : Prop :=
  batches.flatten.Perm (((remapInputs blocks).toOption.getD []).flatMap ProfileBlock.rows) ∧
    batches.flatten.Pairwise fun row row' => rowOrder row ≤ rowOrder row'

instance decidableMerged [DecidableEq ι] (blocks : List (ProfileBlock ι))
    (batches : List (List (SampleRow ι))) : Decidable (Merged blocks batches) :=
  inferInstanceAs (Decidable (_ ∧ _))

/-- What is written of the merged rows. -/
def writeMerged (minRows : Nat) (policy : Option Int64) (batches : List (List (SampleRow ι))) :
    Except String (List (SampleRow ι)) :=
  match policy with
  | none => .ok batches.flatten
  | some resolutionNs =>
    if resolutionNs ≤ 0 then .error "downsample resolution must be positive"
    else .ok (compactRows minRows resolutionNs batches)

/-- The compaction of some blocks whose merged rows arrive in these batches. -/
def compactBlocksWithPolicy (minRows : Nat) (policy : Option Int64)
    (blocks : List (ProfileBlock ι)) (batches : List (List (SampleRow ι))) :
    Except String (ProfileBlock ι) :=
  if blocks.length < 2 then .error "compaction requires at least two input blocks"
  else do
    let inputs ← remapInputs blocks
    let rows ← writeMerged minRows policy batches
    return ⟨rows, inputs.flatMap ProfileBlock.partitions⟩

/-! ### Buckets of wall-clock time -/

/-- The row with its time in milliseconds. -/
def SampleRow.inMs (row : SampleRow ι) : SampleRow ι :=
  { row with timestamp := profileTimestampMs row.timestamp }

/-- The block of some WAL samples, whose times are in nanoseconds. -/
def writeBlock (samples : List (SampleRow ι)) : ProfileBlock ι :=
  .ofRows (samples.map fun sample => sample.inMs.inPartition stacktracePartition)

/-- The retention cutoff in milliseconds (`crates/verified/src/retention.rs`). -/
def retentionCutoff (now ticks : Int64) : Option Int64 :=
  if ticks ≤ 0 then none else some (saturatingSub now ticks)

/-- Whether the retention step drops a block with these rows: its newest row is too old. -/
def expired (now ticks : Int64) (rows : List (SampleRow ι)) : Prop :=
  ∃ cutoff ∈ retentionCutoff now ticks, ∃ newest ∈ (rows.map timestamp).max?,
    newest < cutoff

/-- A row has the series, type, stack, span and trace of a sample, and starts where the
sample's bucket does. -/
structure Represents (d : Int64) (row sample : SampleRow ι) : Prop where
  key : { row.key with timestamp := 0 } = { sample.key with timestamp := 0 }
  start : row.timestamp.toInt * 1000000 = sample.timestamp.toInt / d.toInt * d.toInt

instance decidableRepresents (d : Int64) (row sample : SampleRow ι) :
    Decidable (Represents d row sample) :=
  decidable_of_iff
    ({ row.key with timestamp := 0 } = { sample.key with timestamp := 0 } ∧
      row.timestamp.toInt * 1000000 = sample.timestamp.toInt / d.toInt * d.toInt)
    ⟨fun h => ⟨h.1, h.2⟩, fun h => ⟨h.key, h.start⟩⟩

section Compacted

variable {samples rows : List (SampleRow ι)} {batches : List (List (SampleRow ι))}
  {row : SampleRow ι}

end Compacted

end KrabkaO11y.Profiles
