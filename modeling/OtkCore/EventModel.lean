import Mathlib.Data.List.AList
import Mathlib.Tactic.Basic

/-!
# Canonical events of the timing fabric

The event types carried by the wire, the ingest pipeline and the event log.
Fields, variants and machine widths follow the source. Nothing here computes;
the gate, the crossing processor and the log only read these records.
-/
namespace OtkCore

structure DetectorId where
  asStr : String
  deriving DecidableEq, Repr

structure TimingPointId where
  asStr : String
  deriving DecidableEq, Repr

structure SubjectId where
  asStr : String
  deriving DecidableEq, Repr

structure TimebaseId where
  asStr : String
  deriving DecidableEq, Repr

structure DetectionId where
  asStr : String
  deriving DecidableEq, Repr

structure CrossingId where
  asStr : String
  deriving DecidableEq, Repr

structure StreamId where
  asStr : String
  deriving DecidableEq, Repr

structure OperatorId where
  asStr : String
  deriving DecidableEq, Repr

inductive TimestampingMethod
  | hardwareEventCapture
  | firmwareTimerRead
  | adapterReceiveTime
  | manualEntry
  | replayRecorded
  deriving DecidableEq, Repr

inductive SourceAttestation
  | runtimeDiscovered
  | operatorAsserted
  deriving DecidableEq, Repr

inductive SyncState
  | locked
  | holdover
  | freeRun
  | unsynchronized
  | unknown
  deriving DecidableEq, Repr

inductive SensorData
  | loopTransponder (rssiDbm : Option Int16) (pulseCount : Option UInt32)
  | beamBreak
  | manual (operatorId : Option OperatorId)
  deriving DecidableEq

structure Detection where
  detectionId : DetectionId
  detectorId : DetectorId
  timingPointId : TimingPointId
  subjectId : Option SubjectId
  detectedAtNs : UInt64
  detectedAtUncertaintyNs : Option UInt64
  receivedAtNs : Option UInt64
  timestampingMethod : TimestampingMethod
  timebaseId : TimebaseId
  sourceAttestation : SourceAttestation
  sequenceNumber : UInt64
  sensor : SensorData
  deriving DecidableEq

inductive DetectorHealthStatus
  | healthy
  | degraded (reason : String)
  | failed (reason : String)
  deriving DecidableEq, Repr

structure DetectorHealthEvent where
  detectorId : DetectorId
  reportedAtNs : UInt64
  status : DetectorHealthStatus
  message : Option String
  deriving DecidableEq

structure TimebaseStatusEvent where
  timebaseId : TimebaseId
  reportedAtNs : UInt64
  syncState : SyncState
  uncertaintyNs : Option UInt64
  sourceAttestation : SourceAttestation
  deriving DecidableEq

inductive StreamKind
  | raw
  | detections
  | processed
  deriving DecidableEq, Repr

structure StreamDescriptor where
  streamId : StreamId
  kind : StreamKind
  detectorId : Option DetectorId
  timingPointId : Option TimingPointId
  deriving DecidableEq

structure AdapterCapabilities where
  streams : List StreamDescriptor
  timestampingMethod : TimestampingMethod
  declaredResolutionNs : Option UInt64
  deriving DecidableEq

structure AdapterMetadataEvent where
  detectorId : DetectorId
  timingPointId : TimingPointId
  timebaseId : TimebaseId
  sourceAttestation : SourceAttestation
  declaredAtNs : UInt64
  capabilities : AdapterCapabilities
  deriving DecidableEq

/-- One passage of a subject across a timing point, as stored in the log. -/
structure CrossingEvent where
  crossingId : CrossingId
  timingPointId : TimingPointId
  subjectId : Option SubjectId
  crossedAtNs : UInt64
  crossedAtUncertaintyNs : Option UInt64
  timebaseId : TimebaseId
  timestampingMethod : TimestampingMethod
  sourceAttestation : SourceAttestation
  detectionIds : List DetectionId
  deriving DecidableEq

inductive OtkEvent
  | detection (det : Detection)
  | detectorHealth (event : DetectorHealthEvent)
  | timebaseStatus (event : TimebaseStatusEvent)
  | adapterMetadata (event : AdapterMetadataEvent)
  | crossing (event : CrossingEvent)
  deriving DecidableEq

namespace OtkEvent

/-- The detection carried by an event, if it is one. -/
def detection? : OtkEvent → Option Detection
  | .detection det => some det
  | _ => none

/-- The crossing carried by an event, if it is one. -/
def crossing? : OtkEvent → Option CrossingEvent
  | .crossing c => some c
  | _ => none

@[simp] theorem detection?_detection (det : Detection) :
    (OtkEvent.detection det).detection? = some det := rfl

@[simp] theorem crossing?_crossing (c : CrossingEvent) :
    (OtkEvent.crossing c).crossing? = some c := rfl

@[simp] theorem detection?_crossing (c : CrossingEvent) :
    (OtkEvent.crossing c).detection? = none := rfl

@[simp] theorem crossing?_detection (det : Detection) :
    (OtkEvent.detection det).crossing? = none := rfl

end OtkEvent
end OtkCore
