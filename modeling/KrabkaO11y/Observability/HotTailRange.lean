import KrabkaO11y.Collections.Fallible
import KrabkaO11y.Observability.HotTailBuffer

/-!
Reads of a time window from the hot tail, through its buckets
(`HotTailBuffer::records_shared_in_range`), are a scan of its records.

The buckets that a window touches hold every position that the window can want, since the
bucket of a time grows with the time, also before the epoch. A position stands in one bucket,
once.
-/

namespace KrabkaO11y.Observability.HotTailBuffer

open Collections List

def inRange (startNs endNs : Int) (record : Shared WalLogRecord) : Bool :=
  startNs ≤ record.value.timestampNs && record.value.timestampNs ≤ endNs

/-- `none` is a panic: a range of buckets that ends before it starts, or a position past the
records. -/
def recordsSharedInRange (buffer : HotTailBuffer) (startNs endNs : Int) :
    Option (List (Shared WalLogRecord)) :=
  let startBucket := hotTailBucketKey startNs buffer.bucketWidthNs
  let endBucket := hotTailBucketKey endNs buffer.bucketWidthNs
  if startNs > endNs then some []
  else if startBucket > endBucket then none
  else do
    let window := buffer.buckets.toList.filter fun bucket =>
      startBucket ≤ bucket.1 ∧ bucket.1 ≤ endBucket
    let found ← filterChecked (fun index => (buffer.records[index]?).map (inRange startNs endNs))
      (window.flatMap Prod.snd)
    (found.insertionSort (· ≤ ·)).mapM (buffer.records[·]?)

/-! ### What the buckets hold -/

section Buckets

variable {buffer : HotTailBuffer} {bucket : Int} {indexes : List Nat} {index : Nat}

theorem getD_indexFrom (bucketWidthNs bucket : Int) (records : List (Shared WalLogRecord)) :
    ∀ (index : Nat) (buckets : Std.ExtTreeMap Int (List Nat)),
      ((indexFrom bucketWidthNs index records buckets)[bucket]?).getD [] =
        (buckets[bucket]?).getD [] ++ ((records.zipIdx index).filter fun entry =>
          bucketOf bucketWidthNs entry.1 = bucket).map Prod.snd := by
  induction records with
  | nil =>
    intro index buckets
    exact (append_nil _).symm
  | cons record rest ih =>
    intro index buckets
    rw [indexFrom, ih, pushIndex, Std.ExtTreeMap.getElem?_insert, zipIdx_cons,
      filter_cons]
    by_cases heq : bucketOf bucketWidthNs record = bucket
    · simp [heq]
    · simp [heq]

theorem Indexed.bucket_eq (h : buffer.Indexed) (hb : buffer.buckets[bucket]? = some indexes) :
    indexes = (buffer.records.zipIdx.filter fun entry =>
      bucketOf buffer.bucketWidthNs entry.1 = bucket).map Prod.snd := by
  have hget := getD_indexFrom buffer.bucketWidthNs bucket buffer.records 0 ∅
  rw [← indexed_iff.mp h, hb] at hget
  exact hget

/-- Any positions of some records, picked by what stands there, ascend. -/
theorem ascending_positions (records : List (Shared WalLogRecord))
    (p : Shared WalLogRecord × Nat → Bool) :
    ((records.zipIdx.filter p).map Prod.snd).Pairwise (· < ·) := by
  refine List.Pairwise.sublist (filter_sublist.map _) ?_
  rw [zipIdx_map_snd]
  exact pairwise_lt_range' 1

theorem Indexed.mem_bucket (h : buffer.Indexed) (hb : buffer.buckets[bucket]? = some indexes)
    (hi : index ∈ indexes) : ∃ record, buffer.records[index]? = some record ∧
      bucketOf buffer.bucketWidthNs record = bucket := by
  rw [h.bucket_eq hb] at hi
  obtain ⟨⟨record, _⟩, hmem, rfl⟩ := mem_map.mp hi
  obtain ⟨hmem, heq⟩ := mem_filter.mp hmem
  exact ⟨record, mk_mem_zipIdx_iff_getElem?.mp hmem, of_decide_eq_true heq⟩

/-- Every position stands in the bucket of its record. -/
theorem Indexed.exists_bucket (h : buffer.Indexed) {record : Shared WalLogRecord}
    (hr : buffer.records[index]? = some record) :
    ∃ indexes, buffer.buckets[bucketOf buffer.bucketWidthNs record]? = some indexes ∧
      index ∈ indexes := by
  have hget := getD_indexFrom buffer.bucketWidthNs (bucketOf buffer.bucketWidthNs record)
    buffer.records 0 ∅
  have hin : index ∈ (buffer.buckets[bucketOf buffer.bucketWidthNs record]?).getD [] := by
    rw [indexed_iff.mp h, hget]
    refine mem_append_right _ (mem_map.mpr ⟨(record, index), ?_, rfl⟩)
    exact mem_filter.mpr ⟨mk_mem_zipIdx_iff_getElem?.mpr hr, decide_eq_true rfl⟩
  cases hb : buffer.buckets[bucketOf buffer.bucketWidthNs record]? with
  | none =>
    rw [hb] at hin
    cases hin
  | some indexes =>
    rw [hb] at hin
    exact ⟨indexes, rfl, hin⟩

/-- No position stands twice in some buckets. -/
theorem Indexed.nodup_positions (h : buffer.Indexed) (p : Int × List Nat → Bool) :
    ((buffer.buckets.toList.filter p).flatMap Prod.snd).Nodup := by
  have hget : ∀ entry ∈ buffer.buckets.toList.filter p,
      buffer.buckets[entry.1]? = some entry.2 := fun entry he =>
    Std.ExtTreeMap.mem_toList_iff_getElem?_eq_some.mp (mem_of_mem_filter he)
  rw [nodup_flatMap]
  refine ⟨fun entry he => ?_, ?_⟩
  · rw [h.bucket_eq (hget entry he)]
    exact (ascending_positions _ _).imp Nat.ne_of_lt
  · refine (buffer.buckets.distinct_keys_toList.filter p).imp_of_mem ?_
    intro entry entry' he he' hne index hi hi'
    obtain ⟨record, hr, heq⟩ := h.mem_bucket (hget entry he) hi
    obtain ⟨record', hr', heq'⟩ := h.mem_bucket (hget entry' he') hi'
    cases hr.symm.trans hr'
    rw [← heq, ← heq'] at hne
    exact hne Std.compare_self

end Buckets

/-! ### Reading a window -/

variable {buffer : HotTailBuffer} {startNs endNs : Int}

theorem hotTailBucketKey_mono {bucketWidthNs time time' : Int} (hw : 0 < bucketWidthNs)
    (h : time ≤ time') : hotTailBucketKey time bucketWidthNs ≤
      hotTailBucketKey time' bucketWidthNs :=
  Int.ediv_le_ediv hw h

/-- The buckets of a window hold the positions of all records in it. -/
theorem Indexed.mem_positions (h : buffer.Indexed) (hw : 0 < buffer.bucketWidthNs) {index : Nat}
    {record : Shared WalLogRecord} (hr : buffer.records[index]? = some record)
    (hin : inRange startNs endNs record = true) :
    index ∈ (buffer.buckets.toList.filter fun bucket =>
      hotTailBucketKey startNs buffer.bucketWidthNs ≤ bucket.1 ∧
        bucket.1 ≤ hotTailBucketKey endNs buffer.bucketWidthNs).flatMap Prod.snd := by
  obtain ⟨indexes, hb, hi⟩ := h.exists_bucket hr
  obtain ⟨hlow, hhi⟩ := (Bool.and_eq_true _ _).mp hin
  refine mem_flatMap.mpr ⟨(_, indexes), mem_filter.mpr
    ⟨Std.ExtTreeMap.mem_toList_iff_getElem?_eq_some.mpr hb, decide_eq_true ⟨?_, ?_⟩⟩, hi⟩
  · exact hotTailBucketKey_mono hw (of_decide_eq_true hlow)
  · exact hotTailBucketKey_mono hw (of_decide_eq_true hhi)

theorem Indexed.recordsSharedInRange_eq (h : buffer.Indexed) (hw : 0 < buffer.bucketWidthNs)
    (startNs endNs : Int) : buffer.recordsSharedInRange startNs endNs =
      some (buffer.records.filter (inRange startNs endNs)) := by
  rw [recordsSharedInRange]
  split
  · rename_i hgt
    refine congrArg some (filter_eq_nil_iff.mpr fun record _ => ?_).symm
    simp only [inRange, Bool.and_eq_true, decide_eq_true_eq]
    omega
  rename_i hle
  rw [if_neg (Int.not_lt.mpr (hotTailBucketKey_mono hw (Int.not_lt.mp hle)))]
  set window := buffer.buckets.toList.filter fun bucket =>
    hotTailBucketKey startNs buffer.bucketWidthNs ≤ bucket.1 ∧
      bucket.1 ≤ hotTailBucketKey endNs buffer.bucketWidthNs
  have hchecked : ∀ index ∈ window.flatMap Prod.snd,
      (buffer.records[index]?).map (inRange startNs endNs) =
        some ((buffer.records[index]?).any (inRange startNs endNs)) := by
    intro index hi
    obtain ⟨entry, he, hi⟩ := mem_flatMap.mp hi
    obtain ⟨record, hr, -⟩ := h.mem_bucket
      (Std.ExtTreeMap.mem_toList_iff_getElem?_eq_some.mp (mem_of_mem_filter he)) hi
    rw [hr]
    rfl
  -- sorted, what was found are the positions of the records in the window
  have hsorted : ((window.flatMap Prod.snd).filter fun index =>
      (buffer.records[index]?).any (inRange startNs endNs)).insertionSort (· ≤ ·) =
        (buffer.records.zipIdx.filter fun entry => inRange startNs endNs entry.1).map Prod.snd := by
    have hasc := ascending_positions buffer.records fun entry => inRange startNs endNs entry.1
    refine List.Perm.eq_of_pairwise (fun _ _ _ _ => le_antisymm)
      (pairwise_insertionSort _ _) (hasc.imp Nat.le_of_lt) ((perm_insertionSort _ _).trans
        ((perm_ext_iff_of_nodup ((h.nodup_positions _).filter _)
          (hasc.imp Nat.ne_of_lt)).mpr fun index => ?_))
    rw [mem_filter, mem_map]
    constructor
    · rintro ⟨-, hany⟩
      obtain ⟨record, hr, hin⟩ := (Option.any_eq_true _ _).mp hany
      exact ⟨(record, index), mem_filter.mpr
        ⟨mk_mem_zipIdx_iff_getElem?.mpr hr, hin⟩, rfl⟩
    · rintro ⟨⟨record, _⟩, hmem, rfl⟩
      obtain ⟨hmem, hin⟩ := mem_filter.mp hmem
      have hr := mk_mem_zipIdx_iff_getElem?.mp hmem
      exact ⟨h.mem_positions hw hr hin, (Option.any_eq_true _ _).mpr ⟨record, hr, hin⟩⟩
  have hread : ∀ entry ∈ buffer.records.zipIdx.filter fun entry => inRange startNs endNs entry.1,
      (buffer.records[·]?) entry.2 = some entry.1 := fun entry he =>
    mk_mem_zipIdx_iff_getElem?.mp (mem_of_mem_filter he)
  simp only [filterChecked_eq hchecked, Option.bind_eq_bind, Option.bind_some, hsorted]
  rw [mapM_map]
  refine (mapM_eq_some_map hread).trans (congrArg some ?_)
  nth_rewrite 2 [← zipIdx_map_fst 0 buffer.records]
  rw [filter_map]
  rfl

theorem pruned_eq (buffer : HotTailBuffer) (frontier : CompactionFrontier) :
    (buffer.pruneCompacted frontier).2 =
      buffer.records.countP fun record => frontier.isCompacted record.value := by
  have hpr : (buffer.pruneCompacted frontier).2 = buffer.records.length -
      (buffer.records.filter fun record => !frontier.isCompacted record.value).length := by
    rw [pruneCompacted]
    split <;> rfl
  rw [hpr, ← countP_eq_length_filter, length_eq_countP_add_countP
    (fun record : Shared WalLogRecord => frontier.isCompacted record.value)]
  simp

/-! ### Runs -/

inductive Edit where
  | push (record : Shared WalLogRecord)
  | pruneCompacted (frontier : CompactionFrontier)

def edit (buffer : HotTailBuffer) : Edit → HotTailBuffer
  | .push record => buffer.push record
  | .pruneCompacted frontier => (buffer.pruneCompacted frontier).1

/-- What an edit leaves of the records appended so far. -/
def retain (records : List (Shared WalLogRecord)) : Edit → List (Shared WalLogRecord)
  | .push record => records ++ [record]
  | .pruneCompacted frontier => records.filter fun record => !frontier.isCompacted record.value

theorem edited (edits : List Edit) : ∀ {buffer : HotTailBuffer}, buffer.Indexed →
    (edits.foldl edit buffer).Indexed ∧
      (edits.foldl edit buffer).bucketWidthNs = buffer.bucketWidthNs ∧
      (edits.foldl edit buffer).records = edits.foldl retain buffer.records := by
  induction edits with
  | nil => exact fun h => ⟨h, rfl, rfl⟩
  | cons e rest ih =>
    intro buffer h
    have hstep : (buffer.edit e).Indexed ∧ (buffer.edit e).bucketWidthNs = buffer.bucketWidthNs ∧
        (buffer.edit e).records = retain buffer.records e := by
      cases e with
      | push record => exact ⟨h.push record, rfl, rfl⟩
      | pruneCompacted frontier =>
        refine ⟨h.pruneCompacted frontier, ?_, records_pruneCompacted buffer frontier⟩
        rw [edit, HotTailBuffer.pruneCompacted]
        split <;> rfl
    obtain ⟨hin, hwd, hrs⟩ := ih hstep.1
    rw [foldl_cons, foldl_cons, ← hstep.2.2]
    exact ⟨hin, hwd.trans hstep.2.1, hrs⟩

/-- After any appends and prunes, with buckets of any width and records of any times in any
order, a window reads the retained records in it in the order of their arrival, and a prune
drops the compacted records and counts them. -/
theorem range_read_is_scan {bucketWidthNs : Int} (positive : 0 < bucketWidthNs)
    (edits : List Edit) :
    (edits.foldl edit (withBucketWidth bucketWidthNs)).records = edits.foldl retain [] ∧
    (∀ startNs endNs,
      (edits.foldl edit (withBucketWidth bucketWidthNs)).recordsSharedInRange startNs endNs =
        some ((edits.foldl retain []).filter (inRange startNs endNs))) ∧
    ∀ frontier : CompactionFrontier,
      ((edits.foldl edit (withBucketWidth bucketWidthNs)).pruneCompacted frontier).1.records =
        (edits.foldl retain []).filter (fun record => !frontier.isCompacted record.value) ∧
      ((edits.foldl edit (withBucketWidth bucketWidthNs)).pruneCompacted frontier).2 =
        (edits.foldl retain []).countP fun record => frontier.isCompacted record.value := by
  obtain ⟨indexed, width, records⟩ := edited edits (indexed_withBucketWidth bucketWidthNs)
  set buffer := edits.foldl edit (withBucketWidth bucketWidthNs)
  have records : buffer.records = edits.foldl retain [] := records
  have positive : 0 < buffer.bucketWidthNs := width ▸ positive
  refine ⟨records, fun startNs endNs => ?_, fun frontier => ⟨?_, ?_⟩⟩
  · rw [← records]
    exact indexed.recordsSharedInRange_eq positive startNs endNs
  · rw [records_pruneCompacted, records]
  · rw [pruned_eq, records]

/-- Two records, the later one first. -/
def sampleEdits : List Edit :=
  [.push ⟨0, "t", [], 700, "late", [], some ⟨0, 0⟩⟩,
    .push ⟨1, "t", [], -300, "early", [], some ⟨0, 1⟩⟩]

theorem range_read_is_scan_out_of_order :
    (sampleEdits.foldl edit (withBucketWidth 500)).recordsSharedInRange (-300) 0 =
      some ((sampleEdits.foldl retain []).filter (inRange (-300) 0)) ∧
    ((sampleEdits.foldl retain []).filter (inRange (-300) 0)).length = 1 :=
  ⟨(range_read_is_scan (by decide) sampleEdits).2.1 (-300) 0, by decide⟩

end KrabkaO11y.Observability.HotTailBuffer
