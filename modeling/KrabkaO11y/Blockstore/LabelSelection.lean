import KrabkaO11y.Blockstore.Index.TenantIndex

/-!
Label selection of the log block store (`crates/blockstore/src/log_blockstore/label_index.rs`,
`label_predicate.rs`, `match_op.rs`): a selector is answered from postings, by name and value,
as far as they decide it, and by looking at labels for the rest.

`matched_series_satisfy_predicates` compares the answer with a scan of the inserted series.
A regex is any predicate on values. What `series_fingerprint` computes does not matter, as long
as the label sets that were inserted have different fingerprints.
-/

open Std (ExtTreeMap ExtTreeSet)

namespace KrabkaO11y.Blockstore.LogLabels

open List

inductive MatchOp where
  | equal
  | notEqual
  | regexEqual
  | regexNotEqual
deriving DecidableEq, Repr

/-- `candidate` is `none` for an absent label. -/
def MatchOp.accepts (op : MatchOp) (expected : String) (candidate : Option String)
    (regexMatches : String → Bool) : Bool :=
  match op with
  | .equal => candidate == some expected
  | .notEqual => candidate != some expected
  | .regexEqual => regexMatches (candidate.getD "")
  | .regexNotEqual => candidate.all fun value => !regexMatches value

structure LabelPredicate where
  name : String
  op : MatchOp
  value : String
  regexMatches : String → Bool

namespace LabelPredicate

def «matches» (predicate : LabelPredicate) (labels : Labels) : Bool :=
  predicate.op.accepts predicate.value labels[predicate.name]? predicate.regexMatches

def exactPostingKey (predicate : LabelPredicate) : Option (String × String) :=
  if predicate.op = .equal then some (predicate.name, predicate.value) else none

end LabelPredicate

structure LabelIndex where
  series : ExtTreeMap String (ExtTreeMap SeriesFingerprint Labels) := ∅
  postings : ExtTreeMap String LabelPostings := ∅

/-- The posting of a name and value in which a fingerprint is entered. -/
def enter (fingerprint : SeriesFingerprint) (postings : LabelPostings)
    (label : String × String) : LabelPostings :=
  postings.alter label.1 fun values => some ((values.getD ∅).alter label.2 fun posting =>
    some ((posting.getD ∅).insert fingerprint))

/-- Removes an element and puts the last one in its place, as `Vec::swap_remove`. -/
def swapRemove {α : Type} (xs : List α) (i : Nat) : Option (α × List α) := do
  let x ← xs[i]?
  let last ← xs.getLast?
  some (x, (xs.set i last).dropLast)

namespace LabelIndex

def insertSeries (seriesFingerprint : Labels → SeriesFingerprint) (index : LabelIndex)
    (tenant : String) (labels : Labels) : LabelIndex where
  series := index.series.alter tenant fun series =>
    some ((series.getD ∅).insert (seriesFingerprint labels) labels)
  postings := index.postings.alter tenant fun postings =>
    some (labels.toList.foldl (enter (seriesFingerprint labels)) (postings.getD ∅))

def posting (index : LabelIndex) (tenant name value : String) :
    Option (ExtTreeSet SeriesFingerprint) := do
  let names ← index.postings[tenant]?
  let values ← names[name]?
  values[value]?

/-- One turn of the loop that looks up the postings of the equalities: the first of them, and
all of them once there are two. -/
def lookUp (index : LabelIndex) (tenant : String)
    (found : Option (ExtTreeSet SeriesFingerprint) × List (ExtTreeSet SeriesFingerprint))
    (predicate : LabelPredicate) :
    Option (Option (ExtTreeSet SeriesFingerprint) × List (ExtTreeSet SeriesFingerprint)) :=
  match predicate.exactPostingKey with
  | none => some found
  | some (name, value) => do
    let posting ← index.posting tenant name value
    match found.1 with
    | none => some (some posting, found.2)
    | some first => some (some first, (if found.2.isEmpty then [first] else found.2) ++ [posting])

/-- The position of the smallest posting, the first one of several. -/
def smallest (postings : List (ExtTreeSet SeriesFingerprint)) : Nat :=
  (range' 1 (postings.length - 1)).foldl (fun smallest position =>
    if (postings[position]?.map (·.size)).getD 0 < (postings[smallest]?.map (·.size)).getD 0 then
      position else smallest) 0

def exactCandidates (index : LabelIndex) (tenant : String) (predicates : List LabelPredicate) :
    Option (ExtTreeSet SeriesFingerprint) := do
  let found ← predicates.foldlM (index.lookUp tenant) (none, [])
  match found.1 with
  | none => some (ExtTreeSet.ofList ((index.series[tenant]?).getD ∅).keys)
  | some first =>
    if found.2.isEmpty then some first
    else do
      let removed ← swapRemove found.2 (smallest found.2)
      some (removed.2.foldl (fun matched posting => matched ∩ posting) removed.1)

def matchSeries (index : LabelIndex) (tenant : String) (predicates : List LabelPredicate) :
    ExtTreeSet SeriesFingerprint :=
  match index.series[tenant]? with
  | none => ∅
  | some series =>
    match index.exactCandidates tenant predicates with
    | none => ∅
    | some candidates =>
      if predicates.all fun predicate => match predicate.op with
          | .equal => true
          | .notEqual => (index.posting tenant predicate.name predicate.value).isNone
          | .regexEqual | .regexNotEqual => false then candidates
      else candidates.filter fun fingerprint => series[fingerprint]?.any fun labels =>
        (predicates.filter fun predicate => predicate.op ≠ .equal).all (·.matches labels)

/-! ### What was inserted -/

variable {seriesFingerprint : Labels → SeriesFingerprint} {index : LabelIndex}
  {inserted : List (String × Labels)} {tenant : String} {fp : SeriesFingerprint}

def seriesOf (index : LabelIndex) (tenant : String) : ExtTreeMap SeriesFingerprint Labels :=
  (index.series[tenant]?).getD ∅

/-- The series are those inserted, and the postings are those of the series. -/
structure Holds (seriesFingerprint : Labels → SeriesFingerprint) (index : LabelIndex)
    (inserted : List (String × Labels)) : Prop where
  series : ∀ {tenant fp labels}, (index.seriesOf tenant)[fp]? = some labels ↔
    (tenant, labels) ∈ inserted ∧ seriesFingerprint labels = fp
  posting : ∀ {tenant name value fp}, fp ∈ (index.posting tenant name value).getD ∅ ↔
    ∃ labels, (index.seriesOf tenant)[fp]? = some labels ∧ labels[name]? = some value

/-- The fingerprints that some postings have for a name and value. -/
def entered (postings : LabelPostings) (name value : String) : ExtTreeSet SeriesFingerprint :=
  ((postings[name]?).bind (·[value]?)).getD ∅

variable {fingerprint : SeriesFingerprint} {name value : String}

theorem mem_entered_enter {postings : LabelPostings}
    {label : String × String} :
    fp ∈ entered (enter fingerprint postings label) name value ↔
      fp ∈ entered postings name value ∨ label = (name, value) ∧ fingerprint = fp := by
  obtain ⟨labelName, labelValue⟩ := label
  simp only [entered, enter, ExtTreeMap.getElem?_alter, Std.compare_eq_iff_eq, Prod.mk.injEq]
  by_cases hname : labelName = name
  · subst hname
    simp only [if_true, Option.bind_some, ExtTreeMap.getElem?_alter, Std.compare_eq_iff_eq]
    by_cases hvalue : labelValue = value
    · subst hvalue
      cases postings[labelName]? <;> simp [or_comm]
    · cases postings[labelName]? <;> simp [hvalue]
  · simp [hname]

theorem mem_entered_foldl
    (labels : List (String × String)) : ∀ {postings : LabelPostings},
      fp ∈ entered (labels.foldl (enter fingerprint) postings) name value ↔
        fp ∈ entered postings name value ∨ (name, value) ∈ labels ∧ fingerprint = fp := by
  induction labels with
  | nil => simp
  | cons label rest ih =>
    intro postings
    rw [foldl_cons, ih, mem_entered_enter, or_assoc, mem_cons, or_and_right, eq_comm]

theorem seriesOf_insertSeries (labels : Labels) (other : String) :
    (index.insertSeries seriesFingerprint tenant labels).seriesOf other =
      if tenant = other then (index.seriesOf other).insert (seriesFingerprint labels) labels
      else index.seriesOf other := by
  simp only [seriesOf, insertSeries, ExtTreeMap.getElem?_alter, Std.compare_eq_iff_eq]
  split
  · rename_i heq
    rw [heq, Option.getD_some]
  · rfl

theorem mem_posting_insertSeries (labels : Labels) {other name value : String} :
    fp ∈ ((index.insertSeries seriesFingerprint tenant labels).posting other name value).getD ∅ ↔
      fp ∈ (index.posting other name value).getD ∅ ∨
        tenant = other ∧ labels[name]? = some value ∧ seriesFingerprint labels = fp := by
  have hposting (index : LabelIndex) : (index.posting other name value).getD ∅ =
      entered ((index.postings[other]?).getD ∅) name value := by
    rw [posting]
    cases index.postings[other]? <;> rfl
  rw [hposting, hposting, insertSeries, ExtTreeMap.getElem?_alter]
  by_cases heq : tenant = other
  · subst heq
    rw [if_pos Std.compare_self, Option.getD_some, mem_entered_foldl,
      ExtTreeMap.mem_toList_iff_getElem?_eq_some]
    simp
  · simp [heq]

theorem Holds.insertSeries (h : index.Holds seriesFingerprint inserted) {labels : Labels}
    (hinj : ∀ other, (tenant, other) ∈ inserted →
      seriesFingerprint other = seriesFingerprint labels → other = labels) :
    (index.insertSeries seriesFingerprint tenant labels).Holds seriesFingerprint
      (inserted ++ [(tenant, labels)]) := by
  have hseries : ∀ {t fp found},
      ((index.insertSeries seriesFingerprint tenant labels).seriesOf t)[fp]? = some found ↔
        (index.seriesOf t)[fp]? = some found ∨
          tenant = t ∧ found = labels ∧ seriesFingerprint labels = fp := by
    intro t fp found
    rw [seriesOf_insertSeries]
    by_cases ht : tenant = t
    · subst ht
      rw [if_pos rfl, ExtTreeMap.getElem?_insert]
      by_cases hfp : seriesFingerprint labels = fp
      · subst hfp
        rw [if_pos Std.compare_self, Option.some.injEq]
        refine ⟨fun heq => .inr ⟨rfl, heq.symm, rfl⟩, ?_⟩
        rintro (hold | ⟨-, rfl, -⟩)
        · obtain ⟨hmem, heq⟩ := h.series.mp hold
          exact (hinj _ hmem heq).symm
        · rfl
      · simp [hfp]
    · simp [ht]
  refine ⟨fun {t fp found} => ?_, fun {t name value fp} => ?_⟩
  · rw [hseries, h.series, mem_append, mem_singleton, Prod.mk.injEq, or_and_right, and_assoc,
      eq_comm (a := t)]
    refine or_congr_right (and_congr_right fun _ => and_congr_right fun heq => ?_)
    rw [heq]
  · rw [mem_posting_insertSeries, h.posting]
    simp only [hseries]
    constructor
    · rintro (⟨found, hs, hv⟩ | ⟨ht, hv, hfp⟩)
      · exact ⟨found, .inl hs, hv⟩
      · exact ⟨labels, .inr ⟨ht, rfl, hfp⟩, hv⟩
    · rintro ⟨found, hs | ⟨ht, rfl, hfp⟩, hv⟩
      · exact .inl ⟨found, hs, hv⟩
      · exact .inr ⟨ht, hv, hfp⟩

/-- The index that inserting some series in turn gives. -/
def ofSeries (seriesFingerprint : Labels → SeriesFingerprint) (inserted : List (String × Labels)) :
    LabelIndex :=
  inserted.foldl (fun index series => index.insertSeries seriesFingerprint series.1 series.2) {}

/-- No two label sets of a tenant have one fingerprint. -/
def Apart (seriesFingerprint : Labels → SeriesFingerprint) (inserted : List (String × Labels)) :
    Prop :=
  ∀ tenant labels other, (tenant, labels) ∈ inserted → (tenant, other) ∈ inserted →
    seriesFingerprint other = seriesFingerprint labels → other = labels

theorem holds_ofSeries (hapart : Apart seriesFingerprint inserted) :
    (ofSeries seriesFingerprint inserted).Holds seriesFingerprint inserted := by
  induction inserted using reverseRecOn with
  | nil => exact ⟨by simp [ofSeries, seriesOf], by simp [ofSeries, posting, seriesOf]⟩
  | append_singleton inserted series ih =>
    have hfront : Apart seriesFingerprint inserted := fun tenant labels other hl ho =>
      hapart tenant labels other (mem_append_left _ hl) (mem_append_left _ ho)
    rw [ofSeries, foldl_append]
    exact (ih hfront).insertSeries fun other ho =>
      hapart _ _ other (mem_append_right _ mem_cons_self) (mem_append_left _ ho)

/-! ### The postings of the equalities -/

/-- The postings looked up for some predicates: together they hold what all postings of the
equalities hold, and a first one, if any, is of the tenant's series and among the others. -/
structure Found (index : LabelIndex) (tenant : String) (predicates : List LabelPredicate)
    (found : Option (ExtTreeSet SeriesFingerprint) × List (ExtTreeSet SeriesFingerprint)) :
    Prop where
  mem : ∀ fp, (∀ posting ∈ found.1.toList ++ found.2, fp ∈ posting) ↔
    ∀ predicate ∈ predicates, predicate.op = .equal →
      fp ∈ (index.posting tenant predicate.name predicate.value).getD ∅
  first : ∀ {posting}, found.1 = some posting →
    (found.2 ≠ [] → posting ∈ found.2) ∧ ∀ fp ∈ posting, fp ∈ index.seriesOf tenant
  alone : found.1 = none → found.2 = []

section Found

variable {predicates : List LabelPredicate} {predicate : LabelPredicate}
  {found found' : Option (ExtTreeSet SeriesFingerprint) × List (ExtTreeSet SeriesFingerprint)}

theorem Found.lookUp (h : index.Holds seriesFingerprint inserted)
    (hf : index.Found tenant predicates found)
    (hstep : index.lookUp tenant found predicate = some found') :
    index.Found tenant (predicates ++ [predicate]) found' := by
  have hsplit (p : LabelPredicate → Prop) : (∀ other ∈ predicates ++ [predicate], p other) ↔
      (∀ other ∈ predicates, p other) ∧ p predicate := by
    rw [forall_mem_append, forall_mem_singleton]
  rw [LabelIndex.lookUp, LabelPredicate.exactPostingKey] at hstep
  by_cases hop : predicate.op = .equal
  · simp only [if_pos hop] at hstep
    obtain ⟨posting, hposting, hstep⟩ := Option.bind_eq_some_iff.mp hstep
    have hin (fp) (hfp : fp ∈ posting) : fp ∈ index.seriesOf tenant := by
      obtain ⟨labels, hs, -⟩ := h.posting.mp (hposting.symm ▸ hfp :
        fp ∈ (index.posting tenant predicate.name predicate.value).getD ∅)
      exact ExtTreeMap.mem_iff_isSome_getElem?.mpr (hs ▸ rfl)
    obtain ⟨first, postings⟩ := found
    cases first with
    | none =>
      cases hstep
      cases hf.alone rfl
      refine ⟨fun fp => ?_, fun heq => ?_, nofun⟩
      · rw [hsplit, ← hf.mem]
        simp [hop, hposting]
      · cases heq
        exact ⟨fun hne => absurd rfl hne, hin⟩
    | some first =>
      cases hstep
      refine ⟨fun fp => ?_, fun heq => ?_, nofun⟩
      · rw [hsplit, ← hf.mem]
        cases postings <;> simp [hop, hposting, and_assoc, or_imp, forall_and]
      · cases heq
        refine ⟨fun _ => mem_append_left _ ?_, (hf.first rfl).2⟩
        split
        · exact mem_cons_self
        · rename_i hne
          exact (hf.first rfl).1 (by simpa using hne)
  · simp only [if_neg hop] at hstep
    cases hstep
    exact { hf with
      mem := fun fp => by rw [hsplit, hf.mem, and_iff_left fun heq => absurd heq hop] }

/-- The loop ends early only where an equality has no posting. -/
theorem foldlM_lookUp (tenant : String) (h : index.Holds seriesFingerprint inserted)
    (predicates : List LabelPredicate) :
    match predicates.foldlM (index.lookUp tenant) (none, []) with
    | none => ∃ predicate ∈ predicates, predicate.op = .equal ∧
        index.posting tenant predicate.name predicate.value = none
    | some found => index.Found tenant predicates found := by
  induction predicates using reverseRecOn with
  | nil => exact ⟨by simp, nofun, fun _ => rfl⟩
  | append_singleton predicates predicate ih =>
    rw [foldlM_append]
    cases hfold : predicates.foldlM (index.lookUp tenant) (none, []) with
    | none =>
      rw [hfold] at ih
      obtain ⟨other, ho, hother⟩ := ih
      exact ⟨other, mem_append_left _ ho, hother⟩
    | some found =>
      rw [hfold] at ih
      rw [Option.bind_eq_bind, Option.bind_some, foldlM_cons]
      cases hstep : index.lookUp tenant found predicate with
      | some found' => exact Found.lookUp h ih hstep
      | none =>
        refine ⟨predicate, mem_append_right _ mem_cons_self, ?_⟩
        rw [lookUp, LabelPredicate.exactPostingKey] at hstep
        by_cases hop : predicate.op = .equal
        · simp only [if_pos hop] at hstep
          refine ⟨hop, ?_⟩
          cases hposting : index.posting tenant predicate.name predicate.value with
          | none => rfl
          | some posting =>
            rw [hposting] at hstep
            cases hfirst : found.1 <;> simp [hfirst] at hstep
        · simp [if_neg hop] at hstep

end Found

theorem perm_swapRemove {α : Type} {xs : List α} {i : Nat} (hi : i < xs.length) :
    ∃ x rest, swapRemove xs i = some (x, rest) ∧ xs.Perm (x :: rest) := by
  rcases eq_nil_or_concat xs with rfl | ⟨front, last, rfl⟩
  · cases hi
  rw [concat_eq_append] at *
  refine ⟨(front ++ [last])[i], ((front ++ [last]).set i last).dropLast, ?_, ?_⟩
  · simp [swapRemove, getElem?_eq_getElem hi]
  · rcases Nat.lt_or_ge i front.length with hlt | hge
    · rw [set_append_left _ _ hlt, dropLast_concat, getElem_append_left hlt]
      refine (perm_append_singleton _ _).trans
        (((getElem_cons_eraseIdx_perm hlt).symm.cons _).trans ?_)
      exact (Perm.swap _ _ _).trans ((set_perm_cons_eraseIdx hlt last).symm.cons _)
    · obtain rfl : i = front.length := by simp at hi; omega
      simp

theorem smallest_lt {postings : List (ExtTreeSet SeriesFingerprint)} (h : postings ≠ []) :
    smallest postings < postings.length := by
  have hpos := length_pos_iff.mpr h
  refine foldlRecOn (range' 1 (postings.length - 1)) _ (motive := (· < postings.length)) hpos ?_
  intro start hs position hp
  have := mem_range'_1.mp hp
  split <;> omega

theorem mem_foldl_inter (postings : List (ExtTreeSet SeriesFingerprint)) :
    ∀ {matched : ExtTreeSet SeriesFingerprint},
      fp ∈ postings.foldl (fun matched posting => matched ∩ posting) matched ↔
        fp ∈ matched ∧ ∀ posting ∈ postings, fp ∈ posting := by
  induction postings with
  | nil => simp
  | cons posting rest ih =>
    intro matched
    rw [foldl_cons, ih, ExtTreeSet.mem_inter_iff, and_assoc, forall_mem_cons]

/-! ### The answer -/

/-- The candidates are the series whose labels pass the equalities. -/
theorem mem_exactCandidates (h : index.Holds seriesFingerprint inserted) (tenant : String)
    (predicates : List LabelPredicate) (fp : SeriesFingerprint) :
    fp ∈ (index.exactCandidates tenant predicates).getD ∅ ↔
      ∃ labels, (index.seriesOf tenant)[fp]? = some labels ∧
        ∀ predicate ∈ predicates, predicate.op = .equal → predicate.matches labels = true := by
  have hseries : (∃ labels, (index.seriesOf tenant)[fp]? = some labels ∧
        ∀ predicate ∈ predicates, predicate.op = .equal → predicate.matches labels = true) ↔
      fp ∈ index.seriesOf tenant ∧ ∀ predicate ∈ predicates, predicate.op = .equal →
        fp ∈ (index.posting tenant predicate.name predicate.value).getD ∅ := by
    rw [ExtTreeMap.mem_iff_isSome_getElem?, Option.isSome_iff_exists, ← exists_and_right]
    refine exists_congr fun labels => and_congr_right fun hs =>
      forall₃_congr fun predicate hp hop => ?_
    simp [h.posting, hs, LabelPredicate.matches, hop, MatchOp.accepts]
  rw [hseries, exactCandidates]
  have hfold := foldlM_lookUp tenant h predicates
  split at hfold
  · rename_i heq
    obtain ⟨predicate, hp, hop, hnone⟩ := hfold
    rw [heq]
    exact iff_of_false ExtTreeSet.not_mem_empty fun hin =>
      ExtTreeSet.not_mem_empty (hnone ▸ hin.2 predicate hp hop)
  · rename_i found heq
    rw [heq, ← hfold.mem]
    obtain ⟨first, postings⟩ := found
    cases first with
    | none =>
      cases hfold.alone rfl
      simp [seriesOf]
    | some first =>
      obtain ⟨hmem, hseries⟩ := hfold.first rfl
      cases postings with
      | nil => simpa using hseries fp
      | cons posting rest =>
        obtain ⟨x, others, heq, hperm⟩ := perm_swapRemove (smallest_lt (cons_ne_nil posting rest))
        simp only [isEmpty_cons, Bool.false_eq_true, if_false, heq, Option.bind_eq_bind,
          Option.bind_some, Option.getD_some]
        replace hmem := hmem (cons_ne_nil posting rest)
        have hothers : (∀ posting ∈ x :: others, fp ∈ posting) ↔
            ∀ other ∈ posting :: rest, fp ∈ other :=
              forall_congr' fun other => by rw [hperm.mem_iff]
        rw [mem_foldl_inter, ← forall_mem_cons (p := (fp ∈ ·)), hothers, Option.toList_some,
          singleton_append, forall_mem_cons (a := first)]
        exact ⟨fun hin => ⟨hseries fp (hin _ hmem), hin _ hmem, hin⟩, fun hin => hin.2.2⟩

/-- With any predicates in any order, over any tenants, the series that match are those of
the tenant whose labels satisfy each predicate. -/
theorem matched_series_satisfy_predicates (hapart : Apart seriesFingerprint inserted)
    (tenant : String) (predicates : List LabelPredicate) (fp : SeriesFingerprint) :
    fp ∈ (ofSeries seriesFingerprint inserted).matchSeries tenant predicates ↔
      ∃ labels, (tenant, labels) ∈ inserted ∧ seriesFingerprint labels = fp ∧
        ∀ predicate ∈ predicates, predicate.matches labels = true := by
  have h := holds_ofSeries hapart
  set index := ofSeries seriesFingerprint inserted
  have hcandidates := mem_exactCandidates h tenant predicates fp
  simp only [← and_assoc (a := _ ∈ inserted), ← h.series]
  rw [matchSeries]
  cases hs : index.series[tenant]? with
  | none => simp [seriesOf, hs]
  | some series =>
    have hof : index.seriesOf tenant = series := by rw [seriesOf, hs, Option.getD_some]
    rw [hof] at hcandidates
    simp only [hof]
    cases hc : index.exactCandidates tenant predicates with
    | none =>
      rw [hc] at hcandidates
      refine iff_of_false ExtTreeSet.not_mem_empty ?_
      rintro ⟨labels, hs, hall⟩
      exact ExtTreeSet.not_mem_empty (hcandidates.mpr ⟨labels, hs, fun p hp _ => hall p hp⟩)
    | some candidates =>
      rw [hc, Option.getD_some] at hcandidates
      dsimp only
      split
      · rename_i hdecided
        rw [hcandidates]
        refine exists_congr fun labels => and_congr_right fun hs =>
          ⟨fun hall predicate hp => ?_, fun hall predicate hp _ => hall predicate hp⟩
        have hd := all_eq_true.mp hdecided predicate hp
        cases hop : predicate.op with
        | equal => exact hall predicate hp hop
        | notEqual =>
          have hposting := @h.posting tenant predicate.name predicate.value fp
          simp only [hop, Option.isNone_iff_eq_none] at hd
          simpa [hd, hof, hs, LabelPredicate.matches, hop, MatchOp.accepts] using hposting
        | regexEqual | regexNotEqual => simp [hop] at hd
      · rw [ExtTreeSet.mem_filter]
        cases hl : series[fp]? with
        | none => simp [hcandidates, hl]
        | some labels =>
          have hall : (∀ predicate ∈ predicates, predicate.matches labels = true) ↔
              (∀ predicate ∈ predicates, predicate.op = .equal → predicate.matches labels = true) ∧
              ∀ predicate ∈ predicates,
                predicate.op = .equal ∨ predicate.matches labels = true := by
            grind
          simp [hcandidates, hl, hall]

def sampleLabels (app cluster env : String) : Labels :=
  {("app", app), ("cluster", cluster), ("env", env)}

def sampleInserted : List (String × Labels) :=
  [("tenant", sampleLabels "web" "c1" "dev"), ("tenant", sampleLabels "web" "c1" "prod"),
    ("tenant", sampleLabels "web" "c22" "prod"), ("tenant", sampleLabels "db" "c1" "prod")]

/-- The lengths of the values, as digits. -/
def sampleFingerprint (labels : Labels) : SeriesFingerprint :=
  labels.toList.foldl (fun digits label => digits * 10 + label.2.length.toUInt64) 0

def samplePredicates : List LabelPredicate :=
  [⟨"app", .equal, "web", fun _ => false⟩, ⟨"env", .notEqual, "dev", fun _ => false⟩,
    ⟨"cluster", .equal, "c1", fun _ => false⟩]

/-- Of four series two equalities and a negation leave one. -/
theorem sample_series_matched :
    Apart sampleFingerprint sampleInserted ∧
      ∀ fp, fp ∈ (ofSeries sampleFingerprint sampleInserted).matchSeries "tenant"
        samplePredicates ↔ fp = 324 := by
  have hapart : Apart sampleFingerprint sampleInserted := by
    have hnodup : (sampleInserted.map fun series => sampleFingerprint series.2).Nodup := by
      decide +kernel
    intro tenant labels other hl ho heq
    exact (Prod.mk.inj (inj_on_of_nodup_map hnodup ho hl heq)).2
  have hone : ∀ series ∈ sampleInserted,
      (∀ predicate ∈ samplePredicates, predicate.matches series.2 = true) →
        sampleFingerprint series.2 = 324 := by decide +kernel
  refine ⟨hapart, fun fp => ?_⟩
  rw [matched_series_satisfy_predicates hapart]
  constructor
  · rintro ⟨labels, hin, rfl, hall⟩
    exact hone _ hin hall
  · rintro rfl
    exact ⟨sampleLabels "web" "c1" "prod", mem_cons_of_mem _ mem_cons_self, by decide +kernel,
      by decide +kernel⟩

end LabelIndex

end KrabkaO11y.Blockstore.LogLabels
