import OtkCore.EventModel

/-!
# Wire protocol messages

The envelope that wraps every message, the handshake and keep-alive payloads,
and the validation of a `traceparent`. The CBOR encoding comes from another
crate and is a parameter (`Cbor`, `WireCodec`).
-/
namespace OtkCore

structure ProducerId where
  asStr : String
  deriving DecidableEq, Repr

structure CorrelationId where
  asStr : String
  deriving DecidableEq, Repr

def protocolVersion : UInt8 := 0

inductive MessageType
  | event
  | connect
  | connectAck
  | connectReject
  | heartbeat
  | error
  | disconnect
  deriving DecidableEq, Repr

namespace MessageType

/-- The text `{:?}` renders. -/
def debug : MessageType → String
  | event => "Event"
  | connect => "Connect"
  | connectAck => "ConnectAck"
  | connectReject => "ConnectReject"
  | heartbeat => "Heartbeat"
  | error => "Error"
  | disconnect => "Disconnect"

end MessageType

structure OtkEnvelope where
  protocolVersion : UInt8
  messageType : MessageType
  sourceId : ProducerId
  streamId : Option StreamId
  sequenceNumber : Option UInt64
  correlationId : Option CorrelationId
  payload : Option (List UInt8)
  traceparent : Option String
  deriving DecidableEq

structure Connect where
  protocolVersionMin : UInt8
  protocolVersionMax : UInt8
  streams : List StreamDescriptor
  authToken : Option String
  deriving DecidableEq

structure ConnectAck where
  negotiatedVersion : UInt8
  deriving DecidableEq, Repr

inductive ConnectRejectReason
  | versionNotSupported
  | producerIdAlreadyConnected
  | unauthorized
  | serverFull
  deriving DecidableEq, Repr

namespace ConnectRejectReason

def debug : ConnectRejectReason → String
  | versionNotSupported => "VersionNotSupported"
  | producerIdAlreadyConnected => "ProducerIdAlreadyConnected"
  | unauthorized => "Unauthorized"
  | serverFull => "ServerFull"

end ConnectRejectReason

structure ConnectReject where
  reason : ConnectRejectReason
  supportedVersionMin : UInt8
  supportedVersionMax : UInt8
  deriving DecidableEq, Repr

structure Heartbeat where
  sentAtNs : UInt64
  deriving DecidableEq, Repr

/-- The CBOR encoding of one type, with the texts of its errors. -/
structure Cbor (α : Type) where
  encode : α → Except String (List UInt8)
  decode : List UInt8 → Except String α

def Cbor.Inverts {α : Type} (c : Cbor α) : Prop :=
  ∀ a bytes, c.encode a = .ok bytes → c.decode bytes = .ok a

/-- The encoding known at the listed values only, as the listed bytes. -/
def Cbor.ofTable {α : Type} [DecidableEq α] (table : List (α × List UInt8)) : Cbor α where
  encode a := match table.find? fun entry => entry.1 = a with
    | some entry => .ok entry.2
    | none => .error "unsupported value"
  decode bytes := match table.find? fun entry => entry.2 = bytes with
    | some entry => .ok entry.1
    | none => .error "unexpected bytes"

theorem Cbor.inverts_ofTable {α : Type} [DecidableEq α] {table : List (α × List UInt8)}
    (h : (table.map Prod.snd).Nodup) : (Cbor.ofTable table).Inverts := by
  intro a bytes henc
  simp only [ofTable] at henc ⊢
  split at henc
  · rename_i entry hfind
    obtain rfl := Except.ok.inj henc
    have hmem := List.mem_of_find?_eq_some hfind
    have ha : entry.1 = a := by simpa using List.find?_some hfind
    split
    · rename_i entry' hfind'
      have hmem' := List.mem_of_find?_eq_some hfind'
      have hsnd : entry'.2 = entry.2 := by simpa using List.find?_some hfind'
      rw [List.inj_on_of_nodup_map h hmem' hmem hsnd, ha]
    · rename_i hnone
      simpa using List.find?_eq_none.mp hnone entry hmem
  · simp at henc

theorem Cbor.inverts_ofTable_nil {α : Type} [DecidableEq α] :
    (Cbor.ofTable ([] : List (α × List UInt8))).Inverts :=
  inverts_ofTable List.nodup_nil

/-- The encodings of everything that crosses the wire. -/
structure WireCodec where
  envelope : Cbor OtkEnvelope
  event : Cbor OtkEvent
  connect : Cbor Connect
  connectAck : Cbor ConnectAck
  connectReject : Cbor ConnectReject
  heartbeat : Cbor Heartbeat

/-- Decoding inverts encoding on every wire type. -/
structure WireCodec.Inverts (w : WireCodec) : Prop where
  envelope : w.envelope.Inverts
  event : w.event.Inverts
  connect : w.connect.Inverts
  connectAck : w.connectAck.Inverts
  connectReject : w.connectReject.Inverts
  heartbeat : w.heartbeat.Inverts

inductive TraceParentError
  | invalidLength (got : ℕ)
  | invalidStructure
  | invalidHex
  | forbiddenVersion
  | invalidTraceId
  | invalidParentId
  deriving DecidableEq, Repr

structure TraceParentParts where
  version : List UInt8
  traceId : List UInt8
  parentId : List UInt8
  traceFlags : List UInt8
  deriving DecidableEq

def isLowercaseHex (s : List UInt8) : Bool :=
  s.all fun b => (48 ≤ b && b ≤ 57) || (97 ≤ b && b ≤ 102)

def isAllZero (s : List UInt8) : Bool := s.all (· == 48)

/-- The hyphens are checked before the slices are taken, so every slice starts
and ends at a character boundary and the text may be treated as bytes. -/
def parseTraceparent (s : String) : Except TraceParentError TraceParentParts :=
  let bytes := s.toByteArray.data.toList
  if bytes.length ≠ 55 then .error (.invalidLength bytes.length)
  else if bytes[2]? ≠ some 45 ∨ bytes[35]? ≠ some 45 ∨ bytes[52]? ≠ some 45 then
    .error .invalidStructure
  else
    let version := bytes.take 2
    let traceId := (bytes.drop 3).take 32
    let parentId := (bytes.drop 36).take 16
    let traceFlags := (bytes.drop 53).take 2
    if !isLowercaseHex version || !isLowercaseHex traceId || !isLowercaseHex parentId
        || !isLowercaseHex traceFlags then .error .invalidHex
    else if version = [102, 102] then .error .forbiddenVersion
    else if isAllZero traceId then .error .invalidTraceId
    else if isAllZero parentId then .error .invalidParentId
    else .ok ⟨version, traceId, parentId, traceFlags⟩

def isValidTraceparent (s : String) : Bool := (parseTraceparent s).isOk

end OtkCore
