import KrabkaO11y.Blockstore.TraceIndex.TracePlacement
import KrabkaO11y.Ruler.AlertRuns
import KrabkaO11y.QueryFrontend.AdmissionWakeups
import KrabkaO11y.Observability.FrontierRuns
import KrabkaO11y.Observability.RowCounting
import KrabkaO11y.QueryFrontend.ObjectStoreCacheRuns
import KrabkaO11y.Observability.MetricSplitAnswers
import KrabkaO11y.Observability.LogTail
import KrabkaO11y.Metrics.HaRuns
import KrabkaO11y.Ruler.AlertRestart
import KrabkaO11y.Ruler.AlertInterference
import KrabkaO11y.Metrics.DeltaExports
import KrabkaO11y.Traces.SearchOrder
import KrabkaO11y.Metrics.HistogramRoundTrip
import KrabkaO11y.Traces.LiveStoreRestart
import KrabkaO11y.Profiles.Replay
import KrabkaO11y.Profiles.AcceptedUploads
import KrabkaO11y.Traces.BlockBuilderRun
import KrabkaO11y.Profiles.SeriesTotals
import KrabkaO11y.Traces.MetricsGeneratorRun
import KrabkaO11y.Blockstore.CompactionPlan
import KrabkaO11y.Blockstore.TraceIndex.TraceBloom
import KrabkaO11y.Blockstore.Index.IndexShardTotality
import KrabkaO11y.Blockstore.TenantKeys
import KrabkaO11y.Blockstore.CanonicalShards
import KrabkaO11y.Metrics.DeltaEviction
import KrabkaO11y.Metrics.OutOfOrderWindow
import KrabkaO11y.QueryFrontend.RangePlan
import KrabkaO11y.Observability.HotTailRange
import KrabkaO11y.Blockstore.LabelSelection
import KrabkaO11y.Traces.LiveStoreMaps
