import KrabkaO11y.Machine.Saturating
import KrabkaO11y.Blockstore.Block

/-!
Compaction planning (`crates/blockstore/src/compaction.rs`,
`compaction/compaction_policy.rs`, `crates/verified/src/compaction.rs`).

`planned_runs` says what a plan is made of, and `Rounds` is the loop of the compactor with
no new ingest: plan, replace the inputs of each job by one block, plan again. After `n`
rounds no group below level `n` has two blocks to merge (`settled_rounds`).
-/

namespace KrabkaO11y.Blockstore

open List

open Machine (saturate)

/-! ### Policies -/

/-- What a compaction planner is allowed to do. The caps are what `CompactionPolicy::new`
clamps them to. `levelTicks` is the level-zero window in ticks of the block timestamps. -/
structure CompactionPolicy where
  maxBlocksPerJob : ℕ
  targetRowsPerBlock : UInt64
  maxLevel : BlockLevel
  levelTicks : Int64
  two_le : 2 ≤ maxBlocksPerJob
  target_pos : 0 < targetRowsPerBlock.toNat
  level_pos : 0 < maxLevel.get.toNat

namespace CompactionPolicy

def new (maxBlocksPerJob : ℕ) (targetRowsPerBlock : UInt64) (maxLevel : BlockLevel)
    (levelTicks : Int64) : CompactionPolicy where
  maxBlocksPerJob := max maxBlocksPerJob 2
  targetRowsPerBlock := if targetRowsPerBlock = 0 then 1 else targetRowsPerBlock
  maxLevel := if maxLevel.get = 0 then ⟨1⟩ else maxLevel
  levelTicks := levelTicks
  two_le := le_max_right _ _
  target_pos := by
    split
    · decide
    · rename_i h
      exact Nat.pos_of_ne_zero fun hzero => h (UInt64.toNat_inj.mp hzero)
  level_pos := by
    split
    · decide
    · rename_i h
      exact Nat.pos_of_ne_zero fun hzero => h (UInt32.toNat_inj.mp hzero)

/-- The window blocks at `level` are bucketed into. It doubles with each level, and it is
at least one tick. -/
def windowTicksFor (policy : CompactionPolicy) (level : BlockLevel) : Int64 :=
  let factor : Int := if level.get.toNat < 63 then 2 ^ level.get.toNat else 2 ^ 63 - 1
  saturate (max policy.levelTicks.toInt 1 * factor)

end CompactionPolicy

/-- One block, as the planner sees it. -/
structure CompactionCandidate where
  tenant : String
  objectKey : String
  minTs : Int64
  maxTs : Int64
  rowCount : UInt64
  level : BlockLevel
deriving DecidableEq, Repr

/-- One merge the planner asks for. -/
structure CompactionJob where
  tenant : String
  inputKeys : List String
  outputLevel : BlockLevel
  minTs : Int64
  maxTs : Int64
  rowCount : UInt64
deriving DecidableEq, Repr

structure CompactionGroupKey where
  tenant : String
  level : BlockLevel
  bucket : Int
deriving DecidableEq, Repr

/-- The order of the groups. -/
def CompactionGroupKey.order (key : CompactionGroupKey) : String ×ₗ ℕ ×ₗ ℤ :=
  toLex (key.tenant, toLex (key.level.get.toNat, key.bucket))

namespace CompactionCandidate

def groupKey (policy : CompactionPolicy) (candidate : CompactionCandidate) : CompactionGroupKey :=
  ⟨candidate.tenant, candidate.level,
    candidate.minTs.toInt / (policy.windowTicksFor candidate.level).toInt⟩

/-- Below the top of the ladder and short of the row target. -/
def eligible (policy : CompactionPolicy) (candidate : CompactionCandidate) : Bool :=
  decide (candidate.level.get.toNat < policy.maxLevel.get.toNat) &&
    decide (candidate.rowCount.toNat < policy.targetRowsPerBlock.toNat)

def orderKey (candidate : CompactionCandidate) : BlockOrderKey :=
  blockOrderKey candidate.minTs candidate.maxTs candidate.objectKey

end CompactionCandidate

/-! ### Plans -/

def saturatingRows (sum rows : UInt64) : UInt64 :=
  UInt64.ofNat (min (sum.toNat + rows.toNat) (2 ^ 64 - 1))

/-- The loop of `compaction_run_ends` over the row counts that are left. -/
def runEndsFrom (maxBlocks : ℕ) (targetRows : UInt64) :
    List UInt64 → ℕ → UInt64 → ℕ → List ℕ
  | [], start, _, index => if 2 ≤ index - start then [index] else []
  | count :: rest, start, rows, index =>
    let rows := saturatingRows rows count
    if maxBlocks ≤ index + 1 - start ∨ targetRows.toNat ≤ rows.toNat then
      (index + 1) :: runEndsFrom maxBlocks targetRows rest (index + 1) 0 (index + 1)
    else runEndsFrom maxBlocks targetRows rest start rows (index + 1)

/-- The exclusive end of every compaction run. -/
def compactionRunEnds (rowCounts : List UInt64) (maxBlocks : ℕ) (targetRows : UInt64) : List ℕ :=
  runEndsFrom maxBlocks targetRows rowCounts 0 0 0

/-- The runs of `blocks` between `start` and the ends. -/
def cutRuns {α : Type} (blocks : List α) : ℕ → List ℕ → List (List α)
  | _, [] => []
  | start, stop :: ends => (blocks.take stop).drop start :: cutRuns blocks stop ends

/-- Turns a run of blocks into a job. A run of one is none. -/
def jobFromRun (tenant : String) (level : BlockLevel) (run : List CompactionCandidate) :
    Option CompactionJob :=
  if run.length < 2 then none
  else some {
    tenant := tenant
    inputKeys := run.map (·.objectKey)
    outputLevel := level.next
    minTs := (run.map (·.minTs)).min?.getD 0
    maxTs := (run.map (·.maxTs)).max?.getD 0
    rowCount := (run.map (·.rowCount)).foldl saturatingRows 0 }

section

variable (candidates : List CompactionCandidate)

/-- The candidates of one group, in time order. -/
def groupBlocks (policy : CompactionPolicy)
    (key : CompactionGroupKey) : List CompactionCandidate :=
  (candidates.filter fun candidate =>
    candidate.eligible policy && decide (candidate.groupKey policy = key)).insertionSort
      fun a b => a.orderKey ≤ b.orderKey

/-- The keys of the map that the planner groups candidates in, in order. -/
def groupKeys (policy : CompactionPolicy) :
    List CompactionGroupKey :=
  ((candidates.filter (·.eligible policy)).map (·.groupKey policy)).dedup.insertionSort
    fun a b => a.order ≤ b.order

def groupRuns (policy : CompactionPolicy)
    (key : CompactionGroupKey) : List (List CompactionCandidate) :=
  let blocks := groupBlocks candidates policy key
  cutRuns blocks 0 (compactionRunEnds (blocks.map (·.rowCount)) policy.maxBlocksPerJob
    policy.targetRowsPerBlock)

/-- Groups compactable blocks into merge jobs. -/
def planCompactions (policy : CompactionPolicy) :
    List CompactionJob :=
  (groupKeys candidates policy).flatMap fun key =>
    (groupRuns candidates policy key).filterMap (jobFromRun key.tenant key.level)

end

/-! ### Runs -/

theorem toNat_saturatingRows (sum rows : UInt64) :
    (saturatingRows sum rows).toNat = min (sum.toNat + rows.toNat) (2 ^ 64 - 1) := by
  rw [saturatingRows, UInt64.toNat_ofNat']
  exact Nat.mod_eq_of_lt (by omega)

theorem toNat_foldl_saturatingRows (rows : List UInt64) : ∀ sum : UInt64,
    (rows.foldl saturatingRows sum).toNat =
      min (sum.toNat + (rows.map UInt64.toNat).sum) (2 ^ 64 - 1) := by
  induction rows with
  | nil =>
    intro sum
    have := sum.toNat_lt
    simp only [foldl_nil, map_nil, sum_nil]
    omega
  | cons count rows ih =>
    intro sum
    rw [foldl_cons, ih, toNat_saturatingRows, map_cons, sum_cons]
    omega

/-- Ends that cut `total` blocks from `start` on into runs of two or more, with one block
left over at most. -/
def Cuts (maxBlocks total : ℕ) : ℕ → List ℕ → Prop
  | start, [] => start ≤ total ∧ total ≤ start + 1
  | start, stop :: ends => start + 2 ≤ stop ∧ stop ≤ start + maxBlocks ∧ stop ≤ total ∧
      Cuts maxBlocks total stop ends

variable {maxBlocks : ℕ} {targetRows : UInt64}

theorem cuts_runEndsFrom (hmax : 2 ≤ maxBlocks) :
    ∀ (counts : List UInt64) (start : ℕ) (rows : UInt64) (index : ℕ),
      (∀ count ∈ counts, count.toNat < targetRows.toNat) → start ≤ index →
      index < start + maxBlocks → (index = start → rows = 0) →
      Cuts maxBlocks (index + counts.length) start
        (runEndsFrom maxBlocks targetRows counts start rows index) := by
  intro counts
  induction counts with
  | nil =>
    intro start rows index _ hst hi _
    rw [runEndsFrom]
    split
    · exact ⟨by omega, by omega, by simp, by simp, by simp⟩
    · exact ⟨by simpa using hst, by simp only [length_nil]; omega⟩
  | cons count counts ih =>
    intro start rows index hcts hst hi hrs
    have hr : ∀ count ∈ counts, count.toNat < targetRows.toNat := fun c hc =>
      hcts c (mem_cons_of_mem _ hc)
    rw [runEndsFrom, length_cons, ← Nat.add_assoc, Nat.add_right_comm]
    split
    · rename_i hcl
      -- one block alone neither reaches the fan-in cap nor the row target
      have htwo : index ≠ start := by
        rintro rfl
        rw [hrs rfl, toNat_saturatingRows] at hcl
        have := hcts count mem_cons_self
        simp only [UInt64.toNat_zero] at hcl
        omega
      exact ⟨by omega, by omega, by omega,
        ih (index + 1) 0 (index + 1) hr le_rfl (by omega) fun _ => rfl⟩
    · exact ih start _ (index + 1) hr (by omega) (by omega) fun h => absurd h (by omega)

theorem cuts_compactionRunEnds {counts : List UInt64} (hmax : 2 ≤ maxBlocks)
    (hcts : ∀ count ∈ counts, count.toNat < targetRows.toNat) :
    Cuts maxBlocks counts.length 0 (compactionRunEnds counts maxBlocks targetRows) := by
  have := cuts_runEndsFrom hmax counts 0 0 0 hcts le_rfl (by omega) fun _ => rfl
  rwa [Nat.zero_add] at this

/-- Cut runs are consecutive, and each has between two and `maxBlocks` blocks. -/
theorem cutRuns_spec {α : Type} {blocks : List α} :
    ∀ (ends : List ℕ) (start : ℕ), Cuts maxBlocks blocks.length start ends →
      (∀ run ∈ cutRuns blocks start ends, 2 ≤ run.length ∧ run.length ≤ maxBlocks) ∧
      ∃ left : List α, left.length ≤ 1 ∧
        (cutRuns blocks start ends).flatten ++ left = blocks.drop start := by
  intro ends
  induction ends with
  | nil =>
    rintro start ⟨hst, htot⟩
    exact ⟨nofun, blocks.drop start, by rw [length_drop]; omega, rfl⟩
  | cons stop ends ih =>
    rintro start ⟨hmin, hmax, hsto, hen⟩
    obtain ⟨hru, left, hlf, heq⟩ := ih stop hen
    have hlen : ((blocks.take stop).drop start).length = stop - start := by
      rw [length_drop, length_take, Nat.min_eq_left hsto]
    refine ⟨fun run hrun => ?_, left, hlf, ?_⟩
    · rcases mem_cons.mp hrun with rfl | hrun
      · omega
      · exact hru run hrun
    · rw [cutRuns, flatten_cons, append_assoc, heq, drop_take,
        show stop = start + (stop - start) by omega, ← drop_drop, Nat.add_sub_cancel_left,
        take_append_drop]

/-! ### What a plan is made of -/

section Plan

variable {candidates : List CompactionCandidate} {policy : CompactionPolicy}
  {key : CompactionGroupKey}

variable {candidate : CompactionCandidate}

theorem eligible_iff : candidate.eligible policy ↔
    candidate.level.get.toNat < policy.maxLevel.get.toNat ∧
      candidate.rowCount.toNat < policy.targetRowsPerBlock.toNat := by
  simp [CompactionCandidate.eligible]

theorem mem_groupBlocks :
    candidate ∈ groupBlocks candidates policy key ↔ candidate ∈ candidates ∧
      candidate.eligible policy ∧ candidate.groupKey policy = key := by
  simp [groupBlocks, mem_insertionSort]

theorem mem_groupKeys : key ∈ groupKeys candidates policy ↔
    ∃ candidate ∈ candidates, candidate.eligible policy ∧ candidate.groupKey policy = key := by
  simp [groupKeys, mem_insertionSort, and_assoc]

theorem nodup_groupKeys : (groupKeys candidates policy).Nodup :=
  (perm_insertionSort _ _).nodup_iff.mpr (nodup_dedup _)

theorem nodup_groupBlocks (h : candidates.Nodup) : (groupBlocks candidates policy key).Nodup :=
  (perm_insertionSort _ _).nodup_iff.mpr (h.filter _)

/-- The runs of a group leave out one block at most. -/
theorem groupRuns_spec (candidates : List CompactionCandidate) (policy : CompactionPolicy)
    (key : CompactionGroupKey) :
    (∀ run ∈ groupRuns candidates policy key,
      2 ≤ run.length ∧ run.length ≤ policy.maxBlocksPerJob) ∧
    ∃ left : List CompactionCandidate, left.length ≤ 1 ∧
      (groupRuns candidates policy key).flatten ++ left = groupBlocks candidates policy key := by
  have hcu := @cuts_compactionRunEnds _ policy.targetRowsPerBlock
    ((groupBlocks candidates policy key).map (·.rowCount)) policy.two_le (by
      intro count hct
      obtain ⟨candidate, hmem, rfl⟩ := mem_map.mp hct
      exact (eligible_iff.mp (mem_groupBlocks.mp hmem).2.1).2)
  rw [length_map] at hcu
  exact cutRuns_spec _ _ hcu

theorem mem_of_mem_groupRuns {run : List CompactionCandidate}
    (hrun : run ∈ groupRuns candidates policy key) (hmem : candidate ∈ run) :
    candidate ∈ candidates ∧ candidate.eligible policy ∧ candidate.groupKey policy = key := by
  obtain ⟨-, left, -, heq⟩ := groupRuns_spec candidates policy key
  rw [← mem_groupBlocks, ← heq]
  exact mem_append_left _ (mem_flatten.mpr ⟨run, hrun, hmem⟩)

/-- The inputs of all jobs. -/
def plannedInputs (candidates : List CompactionCandidate) (policy : CompactionPolicy) :
    List CompactionCandidate :=
  (groupKeys candidates policy).flatMap fun key => (groupRuns candidates policy key).flatten

theorem inputKeys_planCompactions :
    (planCompactions candidates policy).flatMap (·.inputKeys) =
      (plannedInputs candidates policy).map (·.objectKey) := by
  rw [planCompactions, plannedInputs, flatMap_assoc, map_flatMap]
  refine flatMap_congr fun key _ => ?_
  have hru := (groupRuns_spec candidates policy key).1
  generalize groupRuns candidates policy key = runs at hru
  induction runs with
  | nil => rfl
  | cons run runs ih =>
    have hlen : ¬ run.length < 2 := not_lt.mpr (hru run mem_cons_self).1
    have hr := ih fun other ho => hru other (mem_cons_of_mem _ ho)
    simp [jobFromRun, hlen] at hr ⊢
    exact hr

theorem nodup_plannedInputs (h : candidates.Nodup) : (plannedInputs candidates policy).Nodup := by
  have hsub : ∀ key, ((groupRuns candidates policy key).flatten).Nodup := by
    intro key
    obtain ⟨-, left, -, heq⟩ := groupRuns_spec candidates policy key
    have hnd := @nodup_groupBlocks candidates policy key h
    rw [← heq] at hnd
    exact (nodup_append.mp hnd).1
  refine nodup_flatMap.mpr ⟨fun key _ => hsub key, nodup_groupKeys.imp fun {a b} hne => ?_⟩
  intro candidate ha hb
  obtain ⟨run, hrun, hmem⟩ := mem_flatten.mp ha
  obtain ⟨run', hrun', hmem'⟩ := mem_flatten.mp hb
  exact hne ((mem_of_mem_groupRuns hrun hmem).2.2.symm.trans (mem_of_mem_groupRuns hrun' hmem').2.2)

/-- No block is an input twice. -/
theorem nodup_inputKeys (h : (candidates.map (·.objectKey)).Nodup) :
    ((planCompactions candidates policy).flatMap (·.inputKeys)).Nodup := by
  have hmem : ∀ input ∈ plannedInputs candidates policy, input ∈ candidates := by
    intro input hinp
    obtain ⟨key, -, hfl⟩ := mem_flatMap.mp hinp
    obtain ⟨run, hrun, hin⟩ := mem_flatten.mp hfl
    exact (mem_of_mem_groupRuns hrun hin).1
  rw [inputKeys_planCompactions]
  exact (nodup_plannedInputs (List.Nodup.of_map _ h)).map_on fun a ha b hb heq =>
    inj_on_of_nodup_map h (hmem a ha) (hmem b hb) heq

/-- What a job takes from the candidates and says about them. -/
structure Planned (candidates : List CompactionCandidate) (policy : CompactionPolicy)
    (job : CompactionJob) (inputs : List CompactionCandidate) : Prop where
  inputKeys : job.inputKeys = inputs.map (·.objectKey)
  mem : ∀ input ∈ inputs, input ∈ candidates
  two_le : 2 ≤ inputs.length
  le_max : inputs.length ≤ policy.maxBlocksPerJob
  tenant : ∀ input ∈ inputs, input.tenant = job.tenant
  group : ∀ input ∈ inputs, ∀ other ∈ inputs, input.groupKey policy = other.groupKey policy
  below : ∀ input ∈ inputs, input.level.get.toNat < policy.maxLevel.get.toNat
  unsealed : ∀ input ∈ inputs, input.rowCount.toNat < policy.targetRowsPerBlock.toNat
  level : ∀ input ∈ inputs, job.outputLevel.get.toNat = input.level.get.toNat + 1
  bounds : ∀ input ∈ inputs, job.minTs ≤ input.minTs ∧ input.maxTs ≤ job.maxTs
  rows : job.rowCount.toNat = min (inputs.map (·.rowCount.toNat)).sum (2 ^ 64 - 1)

theorem toNat_next {level top : BlockLevel} (h : level.get.toNat < top.get.toNat) :
    level.next.get.toNat = level.get.toNat + 1 := by
  have htop := top.get.toNat_lt
  have hne : level.get ≠ 0xFFFFFFFF := by
    intro heq
    rw [heq] at h
    have : (0xFFFFFFFF : UInt32).toNat = 2 ^ 32 - 1 := rfl
    omega
  rw [BlockLevel.next, if_neg hne, UInt32.toNat_add]
  have : (1 : UInt32).toNat = 1 := rfl
  omega

theorem min_le_of_mem {x : Int64} {xs : List Int64} (h : x ∈ xs) : xs.min?.getD 0 ≤ x := by
  cases hmin : xs.min? with
  | none => rw [min?_eq_none_iff.mp hmin] at h; cases h
  | some least => exact (min?_eq_some_iff.mp hmin).2 x h

theorem le_max_of_mem {x : Int64} {xs : List Int64} (h : x ∈ xs) : x ≤ xs.max?.getD 0 := by
  cases hmax : xs.max? with
  | none => rw [max?_eq_none_iff.mp hmax] at h; cases h
  | some greatest => exact (max?_eq_some_iff.mp hmax).2 x h

theorem exists_planned {job : CompactionJob} (h : job ∈ planCompactions candidates policy) :
    ∃ inputs, Planned candidates policy job inputs := by
  obtain ⟨key, hkey, hjob⟩ := mem_flatMap.mp h
  obtain ⟨run, hrun, hjob⟩ := mem_filterMap.mp hjob
  obtain ⟨hmin, hmax⟩ := (groupRuns_spec candidates policy key).1 run hrun
  rw [jobFromRun, if_neg (by omega), Option.some.injEq] at hjob
  subst hjob
  have hmem : ∀ input ∈ run, input ∈ candidates ∧ input.eligible policy ∧
      input.groupKey policy = key := fun input hin => mem_of_mem_groupRuns hrun hin
  refine ⟨run, rfl, fun input hi => (hmem input hi).1, hmin, hmax, fun input hi => ?_,
    fun input hi other ho => ?_, fun input hi => ?_, fun input hi => ?_, fun input hi => ?_,
    fun input hi => ?_, ?_⟩
  · rw [← (hmem input hi).2.2]
    rfl
  · rw [(hmem input hi).2.2, (hmem other ho).2.2]
  · exact (eligible_iff.mp (hmem input hi).2.1).1
  · exact (eligible_iff.mp (hmem input hi).2.1).2
  · rw [← (hmem input hi).2.2]
    exact toNat_next (eligible_iff.mp (hmem input hi).2.1).1
  · exact ⟨min_le_of_mem (mem_map_of_mem hi), le_max_of_mem (mem_map_of_mem hi)⟩
  · rw [toNat_foldl_saturatingRows, UInt64.toNat_zero, Nat.zero_add, map_map]
    rfl

/-- Two blocks of one group that no job takes are one block. -/
theorem left_out_unique {other : CompactionCandidate} (hmem : candidate ∈ candidates)
    (hother : other ∈ candidates) (heli : candidate.eligible policy) (heli' : other.eligible policy)
    (group : candidate.groupKey policy = other.groupKey policy)
    (hleft : candidate.objectKey ∉ (planCompactions candidates policy).flatMap (·.inputKeys))
    (left' : other.objectKey ∉ (planCompactions candidates policy).flatMap (·.inputKeys)) :
    candidate = other := by
  rw [inputKeys_planCompactions] at hleft left'
  obtain ⟨-, left, hone, heq⟩ := groupRuns_spec candidates policy (other.groupKey policy)
  have hkey : other.groupKey policy ∈ groupKeys candidates policy :=
    mem_groupKeys.mpr ⟨other, hother, heli', rfl⟩
  -- a block of the group is in one of its runs or is the one left over
  have hin : ∀ {c : CompactionCandidate}, c ∈ candidates → c.eligible policy →
      c.groupKey policy = other.groupKey policy →
      c.objectKey ∉ (plannedInputs candidates policy).map (·.objectKey) → c ∈ left := by
    intro c hc hel hg hnot
    have hb : c ∈ groupBlocks candidates policy (other.groupKey policy) :=
      mem_groupBlocks.mpr ⟨hc, hel, hg⟩
    rw [← heq] at hb
    refine (mem_append.mp hb).resolve_left fun hpl => hnot ?_
    exact mem_map_of_mem (mem_flatMap.mpr ⟨_, hkey, hpl⟩)
  have hc := hin hmem heli group hleft
  have ho := hin hother heli' rfl left'
  match left, hone, hc, ho with
  | [only], _, hc, ho => rw [mem_singleton.mp hc, mem_singleton.mp ho]

end Plan

/-! ### Rounds -/

/-- The block that a job's output is, under a key of its own. -/
def CompactionJob.output (job : CompactionJob) (objectKey : String) : CompactionCandidate :=
  ⟨job.tenant, objectKey, job.minTs, job.maxTs, job.rowCount, job.outputLevel⟩

/-- Replaces the inputs of each job by its output. -/
def applyJobs (live : List CompactionCandidate) (jobs : List CompactionJob) (keys : List String) :
    List CompactionCandidate :=
  (live.filter fun block => decide (block.objectKey ∉ jobs.flatMap (·.inputKeys))) ++
    List.zipWith CompactionJob.output jobs keys

/-- One new key for each job. -/
def FreshKeys (live : List CompactionCandidate) (jobs : List CompactionJob) (keys : List String) :
    Prop :=
  keys.length = jobs.length ∧ (live.map (·.objectKey) ++ keys).Nodup

/-- The blocks after `n` rounds of planning and replacing, with no new ingest. -/
inductive Rounds (policy : CompactionPolicy) (start : List CompactionCandidate) :
    ℕ → List CompactionCandidate → Prop
  | start : Rounds policy start 0 start
  | round {n : ℕ} {live : List CompactionCandidate} {keys : List String} :
      Rounds policy start n live → FreshKeys live (planCompactions live policy) keys →
      Rounds policy start (n + 1) (applyJobs live (planCompactions live policy) keys)

section Rounds

variable {policy : CompactionPolicy} {live : List CompactionCandidate}

/-- No group below level `n` has two blocks to merge. -/
def SettledBelow (policy : CompactionPolicy) (n : ℕ) (live : List CompactionCandidate) : Prop :=
  ∀ block ∈ live, ∀ other ∈ live, block.eligible policy → other.eligible policy →
    block.groupKey policy = other.groupKey policy → block.level.get.toNat < n → block = other

variable {job : CompactionJob}

theorem Planned.nodup {inputs : List CompactionCandidate}
    (planned : Planned live policy job inputs) (hkeys : (live.map (·.objectKey)).Nodup)
    (hjob : job ∈ planCompactions live policy) : inputs.Nodup := by
  have hsub : job.inputKeys.Sublist ((planCompactions live policy).flatMap (·.inputKeys)) :=
    sublist_flatten_of_mem (mem_map_of_mem hjob)
  have hnd := (@nodup_inputKeys live policy hkeys).sublist hsub
  rw [planned.inputKeys] at hnd
  exact List.Nodup.of_map _ hnd

variable {n : ℕ}

/-- A job merges two blocks of one group, so its inputs are at a level that is not
settled. -/
theorem lt_outputLevel (hkeys : (live.map (·.objectKey)).Nodup) (hset : SettledBelow policy n live)
    (hjob : job ∈ planCompactions live policy) :
    n < job.outputLevel.get.toNat := by
  obtain ⟨inputs, hpl⟩ := exists_planned hjob
  have hnd := hpl.nodup hkeys hjob
  obtain ⟨first, second, rest, rfl⟩ : ∃ first second rest, inputs = first :: second :: rest := by
    match inputs, hpl.two_le with
    | first :: second :: rest, _ => exact ⟨first, second, rest, rfl⟩
  have hf : first ∈ first :: second :: rest := mem_cons_self
  have hse : second ∈ first :: second :: rest := by simp
  have hlv := hpl.level first hf
  by_contra hle
  refine (nodup_cons.mp hnd).1 ?_
  rw [hset first (hpl.mem first hf) second (hpl.mem second hse)
    (eligible_iff.mpr ⟨hpl.below first hf, hpl.unsealed first hf⟩)
    (eligible_iff.mpr ⟨hpl.below second hse, hpl.unsealed second hse⟩)
    (hpl.group first hf second hse) (by omega)]
  exact mem_cons_self

variable {keys : List String} {jobs : List CompactionJob}

/-- A block after a round was left out of the plan, or is the output of a job. -/
theorem mem_applyJobs {block : CompactionCandidate}
    (h : block ∈ applyJobs live jobs keys) :
    (block ∈ live ∧ block.objectKey ∉ jobs.flatMap (·.inputKeys)) ∨
      ∃ job ∈ jobs, ∃ key ∈ keys, block = job.output key := by
  rcases mem_append.mp h with h | h
  · exact .inl (by simpa using mem_filter.mp h)
  · rw [← map_uncurry_zip_eq_zipWith] at h
    obtain ⟨⟨job, key⟩, hzip, rfl⟩ := mem_map.mp h
    obtain ⟨hjob, hkey⟩ := of_mem_zip hzip
    exact .inr ⟨job, hjob, key, hkey, rfl⟩

theorem nodup_applyJobs (h : FreshKeys live jobs keys) :
    ((applyJobs live jobs keys).map (·.objectKey)).Nodup := by
  have hou : (List.zipWith CompactionJob.output jobs keys).map (·.objectKey) = keys := by
    rw [← map_uncurry_zip_eq_zipWith, map_map]
    exact map_snd_zip h.1.le
  rw [applyJobs, map_append, hou]
  exact h.2.sublist ((filter_sublist.map _).append (List.Sublist.refl keys))

/-- A round settles one more level. -/
theorem settled_applyJobs (hkeys : (live.map (·.objectKey)).Nodup)
    (hset : SettledBelow policy n live) :
    SettledBelow policy (n + 1) (applyJobs live (planCompactions live policy) keys) := by
  -- at the settled levels and the next one nothing new arrives
  have hold : ∀ block ∈ applyJobs live (planCompactions live policy) keys,
      block.level.get.toNat < n + 1 → block ∈ live ∧
        block.objectKey ∉ (planCompactions live policy).flatMap (·.inputKeys) := by
    intro block hb hlv
    rcases mem_applyJobs hb with h | ⟨job, hjob, key, -, rfl⟩
    · exact h
    · have hlt : job.outputLevel.get.toNat < n + 1 := hlv
      have := lt_outputLevel hkeys hset hjob
      omega
  intro block hb other ho hel hel' hgr hlv
  have hlv' : other.level.get.toNat < n + 1 := by
    have hsm : block.level = other.level := congrArg CompactionGroupKey.level hgr
    rwa [← hsm]
  obtain ⟨hli, hlf⟩ := hold block hb hlv
  obtain ⟨hli', hlf'⟩ := hold other ho hlv'
  exact left_out_unique hli hli' hel hel' hgr hlf hlf'

variable {start : List CompactionCandidate}

/-- After `n` rounds the levels below `n` are settled, and what is above the top of the
ladder was there at the start. -/
theorem Rounds.spec (hkeys : (start.map (·.objectKey)).Nodup)
    (h : Rounds policy start n live) :
    (live.map (·.objectKey)).Nodup ∧ SettledBelow policy n live ∧
      ∀ block ∈ live, policy.maxLevel.get.toNat < block.level.get.toNat → block ∈ start := by
  induction h with
  | start => exact ⟨hkeys, fun _ _ _ _ _ _ _ h => absurd h (Nat.not_lt_zero _), fun _ h _ => h⟩
  | round _ hfs ih =>
    obtain ⟨hnd, hset, hab⟩ := ih
    refine ⟨nodup_applyJobs hfs, settled_applyJobs hnd hset, fun block hb hlt => ?_⟩
    rcases mem_applyJobs hb with ⟨hmem, -⟩ | ⟨job, hjob, key, -, rfl⟩
    · exact hab block hmem hlt
    · obtain ⟨inputs, hpl⟩ := exists_planned hjob
      obtain ⟨input, hin⟩ := exists_mem_of_length_pos
        (Nat.lt_of_lt_of_le Nat.zero_lt_two hpl.two_le)
      have hlv := hpl.level input hin
      have hbl := hpl.below input hin
      have hlt' : policy.maxLevel.get.toNat < job.outputLevel.get.toNat := hlt
      omega

/-- Once every level of the ladder is settled the plan is empty. -/
theorem planCompactions_eq_nil (hkeys : (live.map (·.objectKey)).Nodup)
    (hset : SettledBelow policy n live) (hn : policy.maxLevel.get.toNat ≤ n) :
    planCompactions live policy = [] := by
  refine eq_nil_iff_forall_not_mem.mpr fun job hjob => ?_
  obtain ⟨inputs, hpl⟩ := exists_planned hjob
  obtain ⟨input, hin⟩ := exists_mem_of_length_pos
    (Nat.lt_of_lt_of_le Nat.zero_lt_two hpl.two_le)
  have hlv := hpl.level input hin
  have hbl := hpl.below input hin
  have hlt := lt_outputLevel hkeys hset hjob
  omega

/-- There are always new keys. -/
theorem exists_freshKeys (live : List CompactionCandidate) (jobs : List CompactionJob)
    (hkeys : (live.map (·.objectKey)).Nodup) : ∃ keys, FreshKeys live jobs keys := by
  induction jobs with
  | nil => exact ⟨[], rfl, by simpa using hkeys⟩
  | cons job jobs ih =>
    obtain ⟨keys, hlen, hnd⟩ := ih
    obtain ⟨key, hkey⟩ := Infinite.exists_notMem_finset
      (live.map (·.objectKey) ++ keys).toFinset
    refine ⟨key :: keys, by simp [hlen], ?_⟩
    rw [nodup_middle]
    exact nodup_cons.mpr ⟨by simpa using hkey, hnd⟩

theorem exists_rounds
    (hkeys : (start.map (·.objectKey)).Nodup) (n : ℕ) : ∃ live, Rounds policy start n live := by
  induction n with
  | zero => exact ⟨start, .start⟩
  | succ n ih =>
    obtain ⟨live, hro⟩ := ih
    obtain ⟨keys, hfs⟩ := exists_freshKeys live (planCompactions live policy)
      (hro.spec hkeys).1
    exact ⟨_, .round hro hfs⟩

end Rounds

/-- A plan's jobs take disjoint inputs of one group each and leave out one block of a group
at most. Rounds of planning and replacing can go on, after `maxLevel` of them nothing is
left to plan, and none of them makes a block above the top of the ladder. -/
theorem plan_sound_and_converges (policy : CompactionPolicy)
    (candidates : List CompactionCandidate) (hkeys : (candidates.map (·.objectKey)).Nodup) :
    (∀ job ∈ planCompactions candidates policy, ∃ inputs, Planned candidates policy job inputs) ∧
      ((planCompactions candidates policy).flatMap (·.inputKeys)).Nodup ∧
      (∀ candidate ∈ candidates, ∀ other ∈ candidates, candidate.eligible policy →
        other.eligible policy → candidate.groupKey policy = other.groupKey policy →
        candidate.objectKey ∉ (planCompactions candidates policy).flatMap (·.inputKeys) →
        other.objectKey ∉ (planCompactions candidates policy).flatMap (·.inputKeys) →
        candidate = other) ∧
      (∀ n, ∃ live, Rounds policy candidates n live) ∧
      ∀ n live, Rounds policy candidates n live →
        (policy.maxLevel.get.toNat ≤ n → planCompactions live policy = []) ∧
          ∀ block ∈ live, policy.maxLevel.get.toNat < block.level.get.toNat →
            block ∈ candidates := by
  refine ⟨fun job hjob => exists_planned hjob, nodup_inputKeys hkeys,
    fun candidate hc other ho he he' hg hl hl' => left_out_unique hc ho he he' hg hl hl',
    exists_rounds hkeys, fun n live hrounds => ?_⟩
  obtain ⟨hnodup, hsettled, habove⟩ := hrounds.spec hkeys
  exact ⟨planCompactions_eq_nil hnodup hsettled, habove⟩

/-- Two blocks of one group below the top of the ladder. -/
def twoBlocks : List CompactionCandidate :=
  [⟨"t", "a", 0, 10, 1, ⟨0⟩⟩, ⟨"t", "b", 5, 15, 1, ⟨0⟩⟩]

theorem plan_sound_and_converges_twoBlocks :
    planCompactions twoBlocks (.new 4 100 ⟨1⟩ 1000) = [⟨"t", ["a", "b"], ⟨1⟩, 0, 15, 2⟩] ∧
      ∀ live, Rounds (.new 4 100 ⟨1⟩ 1000) twoBlocks 1 live →
        planCompactions live (.new 4 100 ⟨1⟩ 1000) = [] := by
  refine ⟨by decide +kernel, fun live hrounds => ?_⟩
  have hall := plan_sound_and_converges (.new 4 100 ⟨1⟩ 1000) twoBlocks (by decide +kernel)
  exact (hall.2.2.2.2 1 live hrounds).1 (by decide)

/-- A block that is above the top of the ladder from the start stays there. -/
theorem plan_keeps_block_above_ladder :
    ∃ block : CompactionCandidate,
      planCompactions [block] (.new 4 100 ⟨1⟩ 1000) = [] ∧
        Rounds (.new 4 100 ⟨1⟩ 1000) [block] 0 [block] ∧
        (CompactionPolicy.new 4 100 ⟨1⟩ 1000).maxLevel.get.toNat < block.level.get.toNat :=
  ⟨⟨"t", "a", 0, 10, 1, ⟨2⟩⟩, by decide +kernel, .start, by decide⟩

end KrabkaO11y.Blockstore
