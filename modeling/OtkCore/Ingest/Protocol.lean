import OtkCore.OtkProtocol

/-!
# Ingest protocol

The transport-independent server side: the handshake on the first envelope and
the dispatch of every later one. Error texts follow the source.
-/
namespace OtkCore.Ingest

/-- The authorisation decision on a producer and its token. -/
abbrev ConnectAuthoriser : Type := ProducerId → Option String → Except ConnectRejectReason Unit

inductive HandshakeError
  | unexpectedMessageType (messageType : MessageType)
  | missingConnectPayload
  | decodeFailed (text : String)
  | encodeFailed (text : String)
  deriving DecidableEq, Repr

def HandshakeError.toText : HandshakeError → String
  | unexpectedMessageType mt => "expected Connect envelope, got " ++ mt.debug
  | missingConnectPayload => "Connect envelope had no payload"
  | decodeFailed text => "CBOR decode failed: " ++ text
  | encodeFailed text => "CBOR encode failed: " ++ text

inductive ProtocolError
  | versionMismatch (negotiated found : UInt8)
  | sourceMismatch (registered found : String)
  | missingEventPayload
  | missingHeartbeatPayload
  | unexpectedDisconnectPayload
  | decodeFailed (text : String)
  | unexpectedMessageType (messageType : MessageType)
  deriving DecidableEq, Repr

def ProtocolError.toText : ProtocolError → String
  | versionMismatch negotiated found =>
    "protocol version mismatch: negotiated " ++ toString negotiated.toNat ++ ", envelope " ++
      toString found.toNat
  | sourceMismatch registered found =>
    "source_id mismatch: producer registered as " ++ registered ++ ", envelope from " ++ found
  | missingEventPayload => "Event message had no payload"
  | missingHeartbeatPayload =>
    "Heartbeat message had no payload (protocol envelope contract requires one)"
  | unexpectedDisconnectPayload =>
    "Disconnect message carried a payload (protocol envelope contract requires none)"
  | decodeFailed text => "CBOR decode failed: " ++ text
  | unexpectedMessageType mt => "unexpected message type for ingest session: " ++ mt.debug

/-- What an inbound envelope asks the transport to do. -/
inductive InboundAction
  | event (event : OtkEvent) (traceparent : Option String)
  | heartbeat
  | disconnect
  deriving DecidableEq

structure PostHandshakeProcessor where
  producerId : ProducerId
  negotiatedVersion : UInt8
  deriving DecidableEq

section Codec

variable (w : WireCodec)

def PostHandshakeProcessor.process (p : PostHandshakeProcessor) (envelope : OtkEnvelope) :
    Except ProtocolError InboundAction :=
  if envelope.protocolVersion ≠ p.negotiatedVersion then
    .error (.versionMismatch p.negotiatedVersion envelope.protocolVersion)
  else if envelope.sourceId ≠ p.producerId then
    .error (.sourceMismatch p.producerId.asStr envelope.sourceId.asStr)
  else
    match envelope.messageType with
    | .event =>
      match envelope.payload with
      | none => .error .missingEventPayload
      | some payload =>
        match w.event.decode payload with
        | .error e => .error (.decodeFailed ("OtkEvent: " ++ e))
        | .ok event => .ok (.event event (envelope.traceparent.filter isValidTraceparent))
    | .heartbeat =>
      match envelope.payload with
      | none => .error .missingHeartbeatPayload
      | some payload =>
        match w.heartbeat.decode payload with
        | .error e => .error (.decodeFailed ("Heartbeat: " ++ e))
        | .ok _ => .ok .heartbeat
    | .disconnect =>
      if envelope.payload.isSome then .error .unexpectedDisconnectPayload else .ok .disconnect
    | other => .error (.unexpectedMessageType other)

/-- What an envelope that passes must look like, by the action it asks for. -/
theorem process_eq_ok {p : PostHandshakeProcessor} {envelope : OtkEnvelope}
    {action : InboundAction} (h : p.process w envelope = .ok action) :
    envelope.protocolVersion = p.negotiatedVersion ∧ envelope.sourceId = p.producerId ∧
      match action with
      | .event event traceparent => envelope.messageType = .event ∧
          traceparent = envelope.traceparent.filter isValidTraceparent ∧
          ∃ payload, envelope.payload = some payload ∧ w.event.decode payload = .ok event
      | .heartbeat => envelope.messageType = .heartbeat
      | .disconnect => envelope.messageType = .disconnect := by
  unfold PostHandshakeProcessor.process at h
  by_cases hv : envelope.protocolVersion = p.negotiatedVersion
  swap
  · simp [hv] at h
  by_cases hs : envelope.sourceId = p.producerId
  swap
  · simp [hv, hs] at h
  rw [if_neg (not_not.mpr hv), if_neg (not_not.mpr hs)] at h
  refine ⟨hv, hs, ?_⟩
  split at h
  · rename_i hmt
    split at h
    · simp at h
    · rename_i payload hpay
      split at h
      · simp at h
      · rename_i event hdec
        obtain rfl := (Except.ok.inj h).symm
        exact ⟨hmt, rfl, payload, hpay, hdec⟩
  · rename_i hmt
    split at h
    · simp at h
    · split at h
      · simp at h
      · obtain rfl := (Except.ok.inj h).symm
        exact hmt
  · rename_i hmt
    split at h
    · simp at h
    · obtain rfl := (Except.ok.inj h).symm
      exact hmt
  · simp at h

inductive HandshakeOutcome
  | accepted (reply : OtkEnvelope) (processor : PostHandshakeProcessor)
  | rejected (reply : OtkEnvelope) (reason : ConnectRejectReason)
  deriving DecidableEq

def serverEnvelope (messageType : MessageType) (payload : Option (List UInt8)) (version : UInt8)
    (correlationId : Option CorrelationId) : OtkEnvelope where
  protocolVersion := version
  messageType := messageType
  sourceId := ⟨"server"⟩
  streamId := none
  sequenceNumber := none
  correlationId := correlationId
  payload := payload
  traceparent := none

def buildAckEnvelope (ack : ConnectAck) (version : UInt8) (correlationId : Option CorrelationId) :
    Except HandshakeError OtkEnvelope :=
  match w.connectAck.encode ack with
  | .error e => .error (.encodeFailed ("ConnectAck: " ++ e))
  | .ok payload => .ok (serverEnvelope .connectAck (some payload) version correlationId)

def buildRejectEnvelope (reject : ConnectReject) (version : UInt8)
    (correlationId : Option CorrelationId) : Except HandshakeError OtkEnvelope :=
  match w.connectReject.encode reject with
  | .error e => .error (.encodeFailed ("ConnectReject: " ++ e))
  | .ok payload => .ok (serverEnvelope .connectReject (some payload) version correlationId)

/-- A refusal for `reason` by a server that speaks one version. -/
def refuse (reason : ConnectRejectReason) (serverVersion : UInt8)
    (correlationId : Option CorrelationId) : Except HandshakeError HandshakeOutcome := do
  let reply ← buildRejectEnvelope w ⟨reason, serverVersion, serverVersion⟩ serverVersion
    correlationId
  return .rejected reply reason

def handshakeInner (envelope : OtkEnvelope) (serverVersion : UInt8)
    (authoriser : ConnectAuthoriser) : Except HandshakeError HandshakeOutcome :=
  if envelope.messageType ≠ .connect then
    .error (.unexpectedMessageType envelope.messageType)
  else
    match envelope.payload with
    | none => .error .missingConnectPayload
    | some connectBytes =>
      match w.connect.decode connectBytes with
      | .error e => .error (.decodeFailed ("Connect: " ++ e))
      | .ok connect =>
        if ¬ (connect.protocolVersionMin ≤ serverVersion ∧
            serverVersion ≤ connect.protocolVersionMax) then
          refuse w .versionNotSupported serverVersion envelope.correlationId
        else
          match authoriser envelope.sourceId connect.authToken with
          | .error reason => refuse w reason serverVersion envelope.correlationId
          | .ok () => do
            let reply ← buildAckEnvelope w ⟨serverVersion⟩ serverVersion envelope.correlationId
            return .accepted reply ⟨envelope.sourceId, serverVersion⟩

def performServerHandshakeWithAuth (envelope : OtkEnvelope) (authoriser : ConnectAuthoriser) :
    Except HandshakeError HandshakeOutcome :=
  handshakeInner w envelope protocolVersion authoriser

theorem refuse_ne_accepted {reason : ConnectRejectReason} {version : UInt8}
    {correlationId : Option CorrelationId} {reply : OtkEnvelope}
    {processor : PostHandshakeProcessor} :
    refuse w reason version correlationId ≠ .ok (.accepted reply processor) := by
  unfold refuse
  cases buildRejectEnvelope w ⟨reason, version, version⟩ version correlationId <;>
    simp [bind, Except.bind, pure, Except.pure]

/-- An accepted Connect names the server's version and passed the authoriser;
the processor is bound to its source. -/
theorem handshake_accepted {envelope : OtkEnvelope} {authoriser : ConnectAuthoriser}
    {reply : OtkEnvelope} {processor : PostHandshakeProcessor}
    (h : performServerHandshakeWithAuth w envelope authoriser = .ok (.accepted reply processor)) :
    envelope.messageType = .connect ∧
      processor = ⟨envelope.sourceId, protocolVersion⟩ ∧
      (∃ ack, w.connectAck.encode ⟨protocolVersion⟩ = .ok ack ∧
        reply = serverEnvelope .connectAck (some ack) protocolVersion envelope.correlationId) ∧
      ∃ bytes connect, envelope.payload = some bytes ∧ w.connect.decode bytes = .ok connect ∧
        connect.protocolVersionMin ≤ protocolVersion ∧
        protocolVersion ≤ connect.protocolVersionMax ∧
        authoriser envelope.sourceId connect.authToken = .ok () := by
  unfold performServerHandshakeWithAuth handshakeInner at h
  split_ifs at h with hmt
  split at h
  · simp at h
  rename_i bytes hbytes
  split at h
  · simp at h
  rename_i connect hconnect
  split_ifs at h with hversion
  swap
  · exact absurd h (refuse_ne_accepted w)
  split at h
  · exact absurd h (refuse_ne_accepted w)
  rename_i hauth
  unfold buildAckEnvelope at h
  cases hack : w.connectAck.encode ⟨protocolVersion⟩ with
  | error e => simp [hack, bind, Except.bind] at h
  | ok ack =>
    simp only [hack, bind, Except.bind, pure, Except.pure, Except.ok.injEq,
      HandshakeOutcome.accepted.injEq] at h
    exact ⟨not_not.mp hmt, h.2.symm, ⟨ack, rfl, h.1.symm⟩, bytes, connect, hbytes, hconnect,
      hversion.1, hversion.2, hauth⟩

end Codec

end OtkCore.Ingest
