import OtkCore.EventModel
import OtkCore.Lib.Bytes
import Mathlib.Data.List.DropRight

/-!
# The CBOR of an event

What the derived encoders write for the event types: every struct and variant is
an array of its numbered fields without the absent ones at its end, an absent
field in front of another is null, and every head takes the shortest form.
-/
namespace OtkCore
namespace Minicbor

open Bytes

/-- A head: the major type with a number, in the shortest form. -/
def head (major n : ℕ) : List UInt8 :=
  if n < 24 then [UInt8.ofNat (32 * major + n)]
  else if n < 2 ^ 8 then UInt8.ofNat (32 * major + 24) :: be 1 n
  else if n < 2 ^ 16 then UInt8.ofNat (32 * major + 25) :: be 2 n
  else if n < 2 ^ 32 then UInt8.ofNat (32 * major + 26) :: be 4 n
  else UInt8.ofNat (32 * major + 27) :: be 8 n

def uint (n : ℕ) : List UInt8 := head 0 n

def int : ℤ → List UInt8
  | .ofNat n => head 0 n
  | .negSucc n => head 1 n

def text (s : String) : List UInt8 := head 3 s.toByteArray.data.size ++ s.toByteArray.data.toList

def null : List UInt8 := [0xF6]

def array (items : List (List UInt8)) : List UInt8 := head 4 items.length ++ items.flatten

/-- A struct: the fields up to the last one that is present. -/
def fields (xs : List (Option (List UInt8))) : List UInt8 :=
  array ((xs.rdropWhile Option.isNone).map fun x => x.getD null)

def variant (n : ℕ) (xs : List (Option (List UInt8))) : List UInt8 := array [uint n, fields xs]

def unit (n : ℕ) : List UInt8 := variant n []

theorem length_head_le (major n : ℕ) : (head major n).length ≤ 9 := by
  unfold head
  split_ifs <;> simp

theorem length_text (s : String) :
    (text s).length = (head 3 s.toByteArray.data.size).length + s.toByteArray.data.size := by
  simp [text]

theorem length_array (items : List (List UInt8)) :
    (array items).length = (head 4 items.length).length + (items.map List.length).sum := by
  simp [array, List.length_flatten]

end Minicbor

open Minicbor

def TimestampingMethod.cbor : TimestampingMethod → List UInt8
  | .hardwareEventCapture => unit 0
  | .firmwareTimerRead => unit 1
  | .adapterReceiveTime => unit 2
  | .manualEntry => unit 3
  | .replayRecorded => unit 4

def SourceAttestation.cbor : SourceAttestation → List UInt8
  | .runtimeDiscovered => unit 0
  | .operatorAsserted => unit 1

def SyncState.cbor : SyncState → List UInt8
  | .locked => unit 0
  | .holdover => unit 1
  | .freeRun => unit 2
  | .unsynchronized => unit 3
  | .unknown => unit 4

def SensorData.cbor : SensorData → List UInt8
  | .loopTransponder rssiDbm pulseCount =>
    variant 0 [rssiDbm.map fun r => int r.toInt, pulseCount.map fun n => uint n.toNat]
  | .beamBreak => unit 1
  | .manual operatorId => variant 2 [operatorId.map fun id => text id.asStr]

def Detection.cbor (det : Detection) : List UInt8 :=
  fields [text det.detectionId.asStr, text det.detectorId.asStr, text det.timingPointId.asStr,
    det.subjectId.map fun s => text s.asStr, uint det.detectedAtNs.toNat,
    det.detectedAtUncertaintyNs.map fun n => uint n.toNat,
    det.receivedAtNs.map fun n => uint n.toNat, det.timestampingMethod.cbor,
    text det.timebaseId.asStr, det.sourceAttestation.cbor, uint det.sequenceNumber.toNat,
    det.sensor.cbor]

def DetectorHealthStatus.cbor : DetectorHealthStatus → List UInt8
  | .healthy => unit 0
  | .degraded reason => variant 1 [text reason]
  | .failed reason => variant 2 [text reason]

def DetectorHealthEvent.cbor (event : DetectorHealthEvent) : List UInt8 :=
  fields [text event.detectorId.asStr, uint event.reportedAtNs.toNat, event.status.cbor,
    event.message.map text]

def TimebaseStatusEvent.cbor (event : TimebaseStatusEvent) : List UInt8 :=
  fields [text event.timebaseId.asStr, uint event.reportedAtNs.toNat, event.syncState.cbor,
    event.uncertaintyNs.map fun n => uint n.toNat, event.sourceAttestation.cbor]

def StreamKind.cbor : StreamKind → List UInt8
  | .raw => unit 0
  | .detections => unit 1
  | .processed => unit 2

def StreamDescriptor.cbor (d : StreamDescriptor) : List UInt8 :=
  fields [text d.streamId.asStr, d.kind.cbor, d.detectorId.map fun id => text id.asStr,
    d.timingPointId.map fun id => text id.asStr]

def AdapterCapabilities.cbor (caps : AdapterCapabilities) : List UInt8 :=
  fields [array (caps.streams.map StreamDescriptor.cbor), caps.timestampingMethod.cbor,
    caps.declaredResolutionNs.map fun n => uint n.toNat]

def AdapterMetadataEvent.cbor (event : AdapterMetadataEvent) : List UInt8 :=
  fields [text event.detectorId.asStr, text event.timingPointId.asStr, text event.timebaseId.asStr,
    event.sourceAttestation.cbor, uint event.declaredAtNs.toNat, event.capabilities.cbor]

def CrossingEvent.cbor (c : CrossingEvent) : List UInt8 :=
  fields [text c.crossingId.asStr, text c.timingPointId.asStr,
    c.subjectId.map fun s => text s.asStr, uint c.crossedAtNs.toNat,
    c.crossedAtUncertaintyNs.map fun n => uint n.toNat, text c.timebaseId.asStr,
    c.timestampingMethod.cbor, c.sourceAttestation.cbor,
    array (c.detectionIds.map fun id => text id.asStr)]

def OtkEvent.cbor : OtkEvent → List UInt8
  | .detection det => variant 0 [det.cbor]
  | .detectorHealth event => variant 1 [event.cbor]
  | .timebaseStatus event => variant 2 [event.cbor]
  | .adapterMetadata event => variant 3 [event.cbor]
  | .crossing event => variant 4 [event.cbor]

theorem CrossingEvent.length_cbor (c : CrossingEvent) :
    (OtkEvent.crossing c).cbor.length = 4 + ((text c.crossingId.asStr).length +
      (text c.timingPointId.asStr).length +
      ((c.subjectId.map fun s => text s.asStr).getD null).length +
      (uint c.crossedAtNs.toNat).length +
      ((c.crossedAtUncertaintyNs.map fun n => uint n.toNat).getD null).length +
      (text c.timebaseId.asStr).length + c.timestampingMethod.cbor.length +
      c.sourceAttestation.cbor.length +
      (array (c.detectionIds.map fun id => text id.asStr)).length) := by
  simp [OtkEvent.cbor, CrossingEvent.cbor, variant, fields, List.rdropWhile, length_array, uint,
    head]
  omega

theorem Detection.length_cbor (det : Detection) :
    (OtkEvent.detection det).cbor.length = 4 + ((text det.detectionId.asStr).length +
      (text det.detectorId.asStr).length + (text det.timingPointId.asStr).length +
      ((det.subjectId.map fun s => text s.asStr).getD null).length +
      (uint det.detectedAtNs.toNat).length +
      ((det.detectedAtUncertaintyNs.map fun n => uint n.toNat).getD null).length +
      ((det.receivedAtNs.map fun n => uint n.toNat).getD null).length +
      det.timestampingMethod.cbor.length + (text det.timebaseId.asStr).length +
      det.sourceAttestation.cbor.length + (uint det.sequenceNumber.toNat).length +
      det.sensor.cbor.length) := by
  simp [OtkEvent.cbor, Detection.cbor, variant, fields, List.rdropWhile, length_array, uint, head]
  omega

example : OtkEvent.cbor (.detectorHealth ⟨⟨"d"⟩, 0, .healthy, none⟩) =
    [0x82, 0x01, 0x81, 0x83, 0x61, 0x64, 0x00, 0x82, 0x00, 0x80] := by decide

end OtkCore
