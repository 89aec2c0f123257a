import Mathlib.Tactic

/-!
The series of an ingest request, as the gates of the distributor read them
(`crates/metrics/src/wire/decoded.rs`, `distributor/sample_timestamp_bounds.rs`).
-/

namespace KrabkaO11y.Metrics

/-- A series with its labels and the timestamps of what it carries. -/
structure DecodedSeries where
  labels : List (String × String)
  samples : List Int64 := []
  histograms : List Int64 := []
  exemplars : List Int64 := []
deriving DecidableEq, Repr

namespace DecodedSeries

def replica (series : DecodedSeries) : Option String := series.labels.lookup "__replica__"

def cluster (series : DecodedSeries) : String := (series.labels.lookup "cluster").getD ""

end DecodedSeries

structure SampleTimestampBounds where
  minMs : Int64
  maxMs : Int64
deriving DecidableEq, Repr

/-- One pass of the fold over the timestamps. -/
def widenBounds (bounds : Option SampleTimestampBounds) (timestamp : Int64) :
    Option SampleTimestampBounds :=
  match bounds with
  | none => some ⟨timestamp, timestamp⟩
  | some bounds => some ⟨min bounds.minMs timestamp, max bounds.maxMs timestamp⟩

def sampleTimestampBounds (series : DecodedSeries) : Option SampleTimestampBounds :=
  (series.samples ++ series.histograms ++ series.exemplars).foldl widenBounds none

end KrabkaO11y.Metrics
