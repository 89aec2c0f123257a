import KrabkaO11y.Collections.Tree
import KrabkaO11y.Blockstore.Index.ByteReader
import KrabkaO11y.Blockstore.Index.BlockList

/-!
One tenant of an index (`index/tenant_index.rs`): its series, the postings of their labels
and its blocks.
-/

open Std (ExtTreeMap ExtTreeSet)

namespace KrabkaO11y.Blockstore

/-- A label set. -/
abbrev Labels := ExtTreeMap String String

/-- The series under each value of each label. -/
abbrev LabelPostings := ExtTreeMap String (ExtTreeMap String (ExtTreeSet SeriesFingerprint))

structure TenantIndex where
  series : ExtTreeMap SeriesFingerprint Labels := ∅
  postings : LabelPostings := ∅
  values : ExtTreeMap String (ExtTreeSet String) := ∅
  blocks : BlockList := {}

namespace TenantIndex

/-- Posts one label of a series. -/
def postLabel (fingerprint : SeriesFingerprint) (index : TenantIndex) (label : String × String) :
    TenantIndex :=
  { index with
    postings := index.postings.alter label.1 fun held =>
      some ((held.getD ∅).alter label.2 fun fps => some ((fps.getD ∅).insert fingerprint))
    values := index.values.alter label.1 fun held => some ((held.getD ∅).insert label.2) }

/-- Names a series, unless the fingerprint is known already. -/
def addSeries (index : TenantIndex) (fingerprint : SeriesFingerprint) (labels : Labels) :
    TenantIndex :=
  if index.series.contains fingerprint then index
  else labels.toList.foldl (postLabel fingerprint)
    { index with series := index.series.insert fingerprint labels }

def posting (index : TenantIndex) (name value : String) : Option (ExtTreeSet SeriesFingerprint) :=
  (index.postings[name]?).bind fun values => values[value]?

def exactPosting (index : TenantIndex) (name value : String) : ExtTreeSet SeriesFingerprint :=
  (index.posting name value).getD ∅

end TenantIndex

end KrabkaO11y.Blockstore
