import OtkCore.Core.SequenceGate
import OtkCore.Core.CrossingProcessor
import OtkCore.Core.EventIngest
import OtkCore.Core.SequentialIngest
import OtkCore.Core.ConcurrentIngest
import OtkCore.Core.CrossingConservation
import OtkCore.SegmentLog.Completion
import OtkCore.Core.RestartGate
import OtkCore.Core.Pagination
import OtkCore.Conformance.MemSubscription
import OtkCore.FrameCodec.Serial
import OtkCore.Ingest.Authenticity
import OtkCore.Ingest.ReadBoundaries
import OtkCore.Ingest.Producer
import OtkCore.SegmentLog.Crash
import OtkCore.SegmentLog.Failures
import OtkCore.SegmentLog.InOrder
import OtkCore.SegmentLog.Exhaustion
import OtkCore.SegmentLog.Atomicity
import OtkCore.Core.PeakSelection
import OtkCore.Core.Grouping
import OtkCore.SegmentLog.Recovery
import OtkCore.Core.Restart
import OtkCore.Ingest.AcceptLoop
import OtkCore.Core.SegmentIngest
import OtkCore.Core.FailedAppend
import OtkCore.Core.IngestMetrics
import OtkCore.Node.LabeledMetrics
import OtkCore.Node.Exposition
import OtkCore.Node.TraceContext
import OtkCore.Node.Reload
import OtkCore.SegmentLog.Retention
import OtkCore.FrameCodec.ErrorDetection
import OtkCore.FrameCodec.WordSize
import OtkCore.Lib.Shared
import OtkCore.SegmentLog.Following
import OtkCore.SegmentLog.Partial
import OtkCore.SegmentLog.Spinning
import OtkCore.SegmentLog.Parking
import OtkCore.SegmentLog.Reporting
import OtkCore.SegmentLog.PowerLoss
import OtkCore.Ingest.SocketBind
import OtkCore.Ingest.Sessions
import OtkCore.ProducerSimulated.Restarted
import OtkCore.Node.LiveTail
import OtkCore.Node.SessionTasks
import OtkCore.Core.StoredOnce
