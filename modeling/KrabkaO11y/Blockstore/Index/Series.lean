import KrabkaO11y.Blockstore.Index.TenantIndex

/-!
Naming series keeps a tenant's postings derived from its series, and a tenant is
determined by its series and its blocks.
-/

open Std (ExtTreeMap ExtTreeSet)

namespace KrabkaO11y.Blockstore.TenantIndex

open Std.ExtTreeMap

/-- The postings hold exactly the triples of `holds`, with no empty bucket, and the label
values are those of the postings. -/
structure PostedAs (index : TenantIndex) (holds : String → String → SeriesFingerprint → Prop) :
    Prop where
  posted : ∀ (name value : String) (fp : SeriesFingerprint),
    fp ∈ index.exactPosting name value ↔ holds name value fp
  inhabited : ∀ (name value : String) (fps : ExtTreeSet SeriesFingerprint),
    index.posting name value = some fps → ∃ fp, fp ∈ fps
  named : ∀ (name : String) (values : ExtTreeMap String (ExtTreeSet SeriesFingerprint)),
    index.postings[name]? = some values → ∃ value : String, value ∈ values
  valued : ∀ name value : String,
    value ∈ index.values[name]?.getD ∅ ↔ ∃ fp, holds name value fp
  valuesNamed : ∀ (name : String) (values : ExtTreeSet String),
    index.values[name]? = some values → ∃ value, value ∈ values

/-- The postings and the label values are those of the series. -/
def Labelled (index : TenantIndex) : Prop :=
  index.PostedAs fun name value fp =>
    ∃ labels : Labels, index.series[fp]? = some labels ∧ labels[name]? = some value

section Post

variable {index : TenantIndex} {fp : SeriesFingerprint} {label : String × String}
  {holds : String → String → SeriesFingerprint → Prop}

@[simp] theorem postLabel_series : (postLabel fp index label).series = index.series := rfl

@[simp] theorem postLabel_blocks : (postLabel fp index label).blocks = index.blocks := rfl

theorem posting_postLabel (name value : String) :
    (postLabel fp index label).posting name value =
      if label = (name, value) then some ((index.exactPosting name value).insert fp)
      else index.posting name value := by
  obtain ⟨labelName, labelValue⟩ := label
  simp only [posting, postLabel, getElem?_alter, exactPosting, Prod.mk.injEq]
  by_cases hnm : labelName = name
  · subst hnm
    simp only [Std.compare_self, if_true, Option.bind_some, getElem?_alter, true_and]
    by_cases hval : labelValue = value
    · subst hval
      cases index.postings[labelName]? <;> simp
    · rw [if_neg (by simpa using hval), if_neg hval]
      cases index.postings[labelName]? <;> simp
  · rw [if_neg (by simpa using hnm), if_neg (fun h => hnm h.1)]

theorem mem_exactPosting_postLabel (name value : String) (other : SeriesFingerprint) :
    other ∈ (postLabel fp index label).exactPosting name value ↔
      other ∈ index.exactPosting name value ∨ (label = (name, value) ∧ other = fp) := by
  rw [exactPosting, posting_postLabel]
  split
  · rename_i hlb
    simp only [Option.getD_some, ExtTreeSet.mem_insert, Std.compare_eq_iff_eq, hlb, true_and]
    rw [or_comm, eq_comm]
  · rename_i hlb
    simp [hlb, exactPosting]

/-- Posting a label adds its triple. -/
theorem PostedAs.postLabel (h : index.PostedAs holds) :
    (postLabel fp index label).PostedAs fun name value other =>
      holds name value other ∨ (label = (name, value) ∧ other = fp) where
  posted name value other := by rw [mem_exactPosting_postLabel, h.posted]
  inhabited name value fps hfps := by
    rw [posting_postLabel] at hfps
    split at hfps
    · cases hfps
      exact ⟨fp, by simp⟩
    · exact h.inhabited name value fps hfps
  named name values hva := by
    simp only [TenantIndex.postLabel, getElem?_alter] at hva
    split at hva
    · cases hva
      exact ⟨label.2, by simp⟩
    · exact h.named name values hva
  valued name value := by
    have hva : value ∈ (TenantIndex.postLabel fp index label).values[name]?.getD ∅ ↔
        value ∈ index.values[name]?.getD ∅ ∨ label = (name, value) := by
      obtain ⟨labelName, labelValue⟩ := label
      simp only [TenantIndex.postLabel, getElem?_alter, Prod.mk.injEq]
      by_cases hnm : labelName = name
      · subst hnm
        simp [or_comm]
      · rw [if_neg (by simpa using hnm)]
        simp [hnm]
    rw [hva, h.valued]
    constructor
    · rintro (⟨other, ho⟩ | hlb)
      · exact ⟨other, .inl ho⟩
      · exact ⟨fp, .inr ⟨hlb, rfl⟩⟩
    · rintro ⟨other, ho | ⟨hlb, -⟩⟩
      · exact .inl ⟨other, ho⟩
      · exact .inr hlb
  valuesNamed name values hva := by
    simp only [TenantIndex.postLabel, getElem?_alter] at hva
    split at hva
    · cases hva
      exact ⟨label.2, by simp⟩
    · exact h.valuesNamed name values hva

theorem PostedAs.congr {holds' : String → String → SeriesFingerprint → Prop}
    (h : index.PostedAs holds) (heq : ∀ name value fp, holds name value fp ↔ holds' name value fp) :
    index.PostedAs holds' where
  posted name value fp := (h.posted name value fp).trans (heq name value fp)
  inhabited := h.inhabited
  named := h.named
  valued name value := (h.valued name value).trans (exists_congr (heq name value))
  valuesNamed := h.valuesNamed

theorem PostedAs.foldl_postLabel (labels : List (String × String)) :
    ∀ {index : TenantIndex} {holds : String → String → SeriesFingerprint → Prop},
    index.PostedAs holds → (labels.foldl (TenantIndex.postLabel fp) index).PostedAs
      fun name value other => holds name value other ∨ ((name, value) ∈ labels ∧ other = fp) := by
  induction labels with
  | nil => intro index holds h; exact h.congr (by simp)
  | cons label labels ih =>
    intro index holds h
    have hpo : (TenantIndex.postLabel fp index label).PostedAs _ := h.postLabel
    refine (ih hpo).congr fun name value other => ?_
    rw [List.mem_cons, or_assoc, ← or_and_right, eq_comm (a := label)]

@[simp] theorem foldl_postLabel_series (labels : List (String × String)) :
    ∀ index : TenantIndex, (labels.foldl (postLabel fp) index).series = index.series := by
  induction labels with
  | nil => intro index; rfl
  | cons label labels ih => intro index; exact ih _

@[simp] theorem foldl_postLabel_blocks (labels : List (String × String)) :
    ∀ index : TenantIndex, (labels.foldl (postLabel fp) index).blocks = index.blocks := by
  induction labels with
  | nil => intro index; rfl
  | cons label labels ih => intro index; exact ih _

end Post

section AddSeries

variable {index : TenantIndex} {fp : SeriesFingerprint} {labels : Labels}

/-- A fingerprint keeps the labels it was first named with. -/
theorem getElem?_addSeries_series (other : SeriesFingerprint) :
    (index.addSeries fp labels).series[other]? =
      (index.series[other]?).or (if other = fp then some labels else none) := by
  rw [addSeries]
  split
  · rename_i hh
    split
    · rename_i heq
      rw [heq]
      rw [contains_eq_isSome_getElem?] at hh
      obtain ⟨held, hh⟩ := Option.isSome_iff_exists.mp hh
      rw [hh]
      rfl
    · simp
  · rename_i hfs
    rw [foldl_postLabel_series]
    simp only [getElem?_insert, Std.compare_eq_iff_eq]
    by_cases heq : fp = other
    · subst heq
      rw [contains_eq_isSome_getElem?, Bool.not_eq_true, Option.isSome_eq_false_iff,
        Option.isNone_iff_eq_none] at hfs
      simp [hfs]
    · rw [if_neg heq, if_neg (Ne.symm heq), Option.or_none]

@[simp] theorem addSeries_blocks : (index.addSeries fp labels).blocks = index.blocks := by
  rw [addSeries]
  split
  · rfl
  · simp

theorem Labelled.addSeries (h : Labelled index) : Labelled (index.addSeries fp labels) := by
  by_cases hh : index.series.contains fp = true
  · rw [TenantIndex.addSeries, if_pos hh]
    exact h
  · have hfs : index.series[fp]? = none := by
      rwa [contains_eq_isSome_getElem?, Bool.not_eq_true, Option.isSome_eq_false_iff,
        Option.isNone_iff_eq_none] at hh
    have hst : PostedAs { index with series := index.series.insert fp labels } _ :=
      ⟨h.posted, h.inhabited, h.named, h.valued, h.valuesNamed⟩
    have hpo : (labels.toList.foldl (postLabel fp) _).PostedAs _ :=
      PostedAs.foldl_postLabel labels.toList hst
    have heq : index.addSeries fp labels = labels.toList.foldl (postLabel fp)
        { index with series := index.series.insert fp labels } := if_neg hh
    rw [Labelled, heq]
    refine hpo.congr fun name value other => ?_
    rw [foldl_postLabel_series, mem_toList_iff_getElem?_eq_some]
    simp only [getElem?_insert, Std.compare_eq_iff_eq]
    by_cases ho : fp = other
    · subst ho
      simp [hfs]
    · simp [ho, Ne.symm ho]

theorem labelled_empty : Labelled {} where
  posted name value fp := by simp [exactPosting, posting]
  inhabited name value fps h := by simp [posting] at h
  named name values h := by simp at h
  valued name value := by simp
  valuesNamed name values h := by simp at h

section Determined

variable {left right : TenantIndex} {holds : String → String → SeriesFingerprint → Prop}

theorem PostedAs.exactPosting_eq (hleft : left.PostedAs holds) (hr : right.PostedAs holds)
    (name value : String) : left.exactPosting name value = right.exactPosting name value := by
  apply ExtTreeSet.ext_mem
  intro fp
  rw [hleft.posted, hr.posted]

/-- A bucket is there exactly when it has a member. -/
theorem PostedAs.posting_eq (h : left.PostedAs holds) (name value : String) :
    left.posting name value = if (left.exactPosting name value).isEmpty then none
      else some (left.exactPosting name value) := by
  cases hpo : left.posting name value with
  | none => simp [exactPosting, hpo]
  | some fps =>
    obtain ⟨fp, hfp⟩ := h.inhabited name value fps hpo
    have hno : ¬ fps.isEmpty = true := by
      rw [ExtTreeSet.isEmpty_iff]
      rintro rfl
      exact ExtTreeSet.not_mem_empty hfp
    simp [exactPosting, hpo, hno]

theorem PostedAs.postings_within (hleft : left.PostedAs holds) (hr : right.PostedAs holds)
    {name : String} {values : ExtTreeMap String (ExtTreeSet SeriesFingerprint)}
    (h : left.postings[name]? = some values) : right.postings[name]? = some values := by
  have hpo : ∀ value, left.posting name value = right.posting name value := by
    intro value
    rw [hleft.posting_eq, hr.posting_eq, hleft.exactPosting_eq hr]
  obtain ⟨value, hval⟩ := hleft.named name values h
  cases ho : right.postings[name]? with
  | none =>
    have hno : left.posting name value = none := by
      rw [hpo value, posting, ho]
      rfl
    rw [posting, h, Option.bind_some] at hno
    rw [mem_iff_isSome_getElem?, hno] at hval
    exact absurd hval (by simp)
  | some values' =>
    refine congrArg some (ext_getElem? fun value => ?_)
    have := hpo value
    simpa [posting, h, ho] using this.symm

theorem PostedAs.values_within (hleft : left.PostedAs holds) (hr : right.PostedAs holds)
    {name : String} {values : ExtTreeSet String} (h : left.values[name]? = some values) :
    right.values[name]? = some values := by
  have hmem : ∀ value, value ∈ values ↔ value ∈ right.values[name]?.getD ∅ := by
    intro value
    rw [hr.valued, ← hleft.valued, h]
    rfl
  obtain ⟨value, hval⟩ := hleft.valuesNamed name values h
  cases ho : right.values[name]? with
  | none =>
    rw [hmem, ho] at hval
    exact absurd hval ExtTreeSet.not_mem_empty
  | some values' =>
    refine congrArg some (ExtTreeSet.ext_mem fun value => ?_)
    rw [hmem, ho]
    rfl

/-- Labelled tenants with the same series have the same postings and label values. -/
theorem Labelled.ext (hleft : Labelled left) (hr : Labelled right)
    (hser : left.series = right.series) :
    left.postings = right.postings ∧ left.values = right.values := by
  rw [Labelled, hser] at hleft
  constructor
  · exact Collections.eq_of_within (fun _ _ => hleft.postings_within hr)
      fun _ _ => PostedAs.postings_within hr hleft
  · exact Collections.eq_of_within (fun _ _ => hleft.values_within hr)
      fun _ _ => PostedAs.values_within hr hleft

end Determined

end AddSeries

end KrabkaO11y.Blockstore.TenantIndex
