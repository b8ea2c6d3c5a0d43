import OtkCore.Ingest.Parity

/-!
# Producer to session

The client side of the wire: the SDK's own framing, its handshake and its three
kinds of message. Put against a server session it must find every event again
on the other side, however the two byte streams are cut.
-/
namespace OtkCore.Ingest

open FrameCodec Decoding FileIO Bytes

inductive ProducerError
  | io (kind : IoErrorKind)
  | rejected (reason : ConnectRejectReason) (serverMin serverMax : UInt8)
  | handshake (text : String)
  | encode (text : String)
  | decode (text : String)
  | closed
  | config (text : String)
  deriving DecidableEq, Repr

/-- Frame limit of the SDK, sending and receiving. -/
def maxFrameBytes : ℕ := 65535

structure ProducerConfig where
  producerId : String
  streams : List StreamDescriptor := []
  maxFrameBytes : ℕ := 65535
  authToken : Option String := none

def eofToClosed (kind : IoErrorKind) : ProducerError :=
  if kind = .unexpectedEof then .closed else .io kind

/-- Read exactly `n` bytes; the end of the stream is an error. -/
def readExact : ℕ → List Read → Except ProducerError (List UInt8) × List Read
  | 0, reads => (.ok [], reads)
  | _ + 1, [] => (.error .closed, [])
  | _ + 1, .error e :: reads => (.error (eofToClosed e), reads)
  | _ + 1, .ok [] :: reads => (.error .closed, reads)
  | n + 1, .ok (b :: bytes) :: reads =>
    if n + 1 < (b :: bytes).length then
      (.ok ((b :: bytes).take (n + 1)), .ok ((b :: bytes).drop (n + 1)) :: reads)
    else
      match readExact (n + 1 - (b :: bytes).length) reads with
      | (.ok more, reads) => (.ok (b :: bytes ++ more), reads)
      | (.error e, reads) => (.error e, reads)

/-- One read into a buffer of `n` bytes. -/
def readUpTo (n : ℕ) : List Read → Read × List Read
  | [] => (.ok [], [])
  | .error e :: reads => (.error e, reads)
  | .ok bytes :: reads =>
    if n < bytes.length then (.ok (bytes.take n), .ok (bytes.drop n) :: reads)
    else (.ok bytes, reads)

def recvPayload (maxBytes : ℕ) (header : List UInt8) (reads : List Read) :
    Except ProducerError (List UInt8) × List Read :=
  let payloadLen := ofBe header
  if payloadLen > maxBytes then
    (.error (.decode ("frame too large: " ++ toString payloadLen ++ " bytes (max " ++
      toString maxBytes ++ ")")), reads)
  else readExact payloadLen reads

def recvFrame (maxBytes : ℕ) (reads : List Read) :
    Except ProducerError (List UInt8) × List Read :=
  match readUpTo 4 reads with
  | (.error e, reads) => (.error (.io e), reads)
  | (.ok [], reads) => (.error .closed, reads)
  | (.ok (b :: bytes), reads) =>
    match readExact (4 - (b :: bytes).length) reads with
    | (.error e, reads) => (.error e, reads)
    | (.ok more, reads) => recvPayload maxBytes (b :: bytes ++ more) reads

def sendFrame (stream : Stream) (payload : List UInt8) : Except ProducerError Unit × Stream :=
  if payload.length > u32Max then
    (.error (.encode ("frame too large to send: " ++ toString payload.length ++ " bytes")), stream)
  else if payload.length > maxFrameBytes then
    (.error (.encode ("frame too large: " ++ toString payload.length ++
      " bytes exceeds the " ++ toString maxFrameBytes ++ " byte protocol maximum")), stream)
  else
    match stream.sink with
    | some e => (.error (.io e), stream)
    | none => (.ok (), { stream with sent := stream.sent ++ be 4 payload.length ++ payload })

section Codec

variable (w : WireCodec)

/-- `traceparent` is that of the span current at the call. -/
def makeEnvelope (producerId : ProducerId) (messageType : MessageType)
    (payload : Option (List UInt8)) (traceparent : Option String) : OtkEnvelope where
  protocolVersion := protocolVersion
  messageType := messageType
  sourceId := producerId
  streamId := none
  sequenceNumber := none
  correlationId := none
  payload := payload
  traceparent := traceparent

def sendEncoded (stream : Stream) (envelope : OtkEnvelope) : Except ProducerError Unit × Stream :=
  match w.envelope.encode envelope with
  | .error e => (.error (.encode ("envelope encode: " ++ e)), stream)
  | .ok payload => sendFrame stream payload

structure Producer where
  stream : Stream
  producerId : ProducerId
  nextSeq : ℕ

namespace Producer

/-- What the server's first frame makes of a connection. -/
def onResponse (producerId : ProducerId) (stream : Stream) (response : OtkEnvelope) :
    Except ProducerError Producer :=
  if response.protocolVersion ≠ protocolVersion then
    .error (.handshake ("server responded with protocol version " ++
      toString response.protocolVersion.toNat ++ " but client offered only " ++
      toString protocolVersion.toNat))
  else
    match response.messageType with
    | .connectAck =>
      match response.payload with
      | none => .error (.handshake "ConnectAck has no payload")
      | some payload =>
        match w.connectAck.decode payload with
        | .error e => .error (.decode ("ConnectAck decode: " ++ e))
        | .ok ack =>
          if ack.negotiatedVersion ≠ protocolVersion then
            .error (.handshake ("server negotiated version " ++
              toString ack.negotiatedVersion.toNat ++ " but client offered only " ++
              toString protocolVersion.toNat))
          else .ok ⟨stream, producerId, 0⟩
    | .connectReject =>
      match response.payload with
      | none => .error (.handshake "ConnectReject has no payload")
      | some payload =>
        match w.connectReject.decode payload with
        | .error e => .error (.decode ("ConnectReject decode: " ++ e))
        | .ok reject =>
          .error (.rejected reject.reason reject.supportedVersionMin reject.supportedVersionMax)
    | other => .error (.handshake ("expected ConnectAck or ConnectReject, got " ++ other.debug))

/-- Send the `Connect` of a configuration. -/
def request (config : ProducerConfig) (traceparent : Option String) (stream : Stream) :
    Except ProducerError Unit × Stream :=
  match w.connect.encode ⟨protocolVersion, protocolVersion, config.streams, config.authToken⟩ with
  | .error e => (.error (.encode ("Connect encode: " ++ e)), stream)
  | .ok payload =>
    sendEncoded w stream (makeEnvelope ⟨config.producerId⟩ .connect (some payload) traceparent)

/-- Connect over a stream on which the server's bytes come in `stream.reads`. -/
def connect (config : ProducerConfig) (traceparent : Option String) (stream : Stream) :
    Except ProducerError Producer :=
  if config.maxFrameBytes = 0 then .error (.config "max_frame_bytes must not be zero")
  else
    match request w config traceparent stream with
    | (.error e, _) => .error e
    | (.ok (), stream) =>
      match recvFrame (min config.maxFrameBytes maxFrameBytes) stream.reads with
      | (.error e, _) => .error e
      | (.ok bytes, reads) =>
        match w.envelope.decode bytes with
        | .error e => .error (.decode ("handshake response decode: " ++ e))
        | .ok response =>
          onResponse w ⟨config.producerId⟩ { stream with reads := reads } response

/-- One call on a connected producer, with what it takes from its surroundings. -/
inductive Call
  | event (event : OtkEvent) (traceparent : Option String)
  | heartbeat (nowNs : UInt64) (traceparent : Option String)

def eventEnvelope (producerId : ProducerId) (seq : ℕ) (payload : List UInt8)
    (traceparent : Option String) : OtkEnvelope :=
  { makeEnvelope producerId .event (some payload) traceparent with
    sequenceNumber := some (UInt64.ofNat seq) }

/-- Send one message. `none` is the panic of `send_event` when the last sequence
number has been used up. -/
def perform (p : Producer) : Call → Option (Except ProducerError Unit) × Producer
  | .event event traceparent =>
    match w.event.encode event with
    | .error e => (some (.error (.encode ("OtkEvent encode: " ++ e))), p)
    | .ok payload =>
      match sendEncoded w p.stream (eventEnvelope p.producerId p.nextSeq payload traceparent) with
      | (.error e, stream) => (some (.error e), { p with stream })
      | (.ok (), stream) =>
        if p.nextSeq + 1 < 2 ^ 64 then
          (some (.ok ()), { p with stream, nextSeq := p.nextSeq + 1 })
        else (none, { p with stream })
  | .heartbeat nowNs traceparent =>
    match w.heartbeat.encode ⟨nowNs⟩ with
    | .error e => (some (.error (.encode ("Heartbeat encode: " ++ e))), p)
    | .ok payload =>
      match sendEncoded w p.stream
        (makeEnvelope p.producerId .heartbeat (some payload) traceparent) with
      | (.error e, stream) => (some (.error e), { p with stream })
      | (.ok (), stream) => (some (.ok ()), { p with stream })

def disconnect (p : Producer) (traceparent : Option String) : Except ProducerError Unit × Stream :=
  sendEncoded w p.stream (makeEnvelope p.producerId .disconnect none traceparent)

/-- The calls in turn and then `disconnect`; a panic ends the run. Returns the
stream as it is left when the connection closes. -/
def runCalls (p : Producer) (lastTraceparent : Option String) : List Call → Stream
  | [] => (p.disconnect w lastTraceparent).2
  | call :: calls =>
    match p.perform w call with
    | (none, p) => p.stream
    | (some _, p) => runCalls p lastTraceparent calls

end Producer

end Codec

theorem readExact_chunks (n : ℕ) (chunks : List (List UInt8))
    (hchunks : ∀ chunk ∈ chunks, chunk ≠ []) (hn : n ≤ chunks.flatten.length) :
    ∃ rest : List (List UInt8), (∀ chunk ∈ rest, chunk ≠ []) ∧
      rest.flatten = chunks.flatten.drop n ∧
      readExact n (chunks.map .ok) = (.ok (chunks.flatten.take n), rest.map .ok) := by
  induction chunks generalizing n with
  | nil =>
    have hzero : n = 0 := by simpa using hn
    subst hzero
    exact ⟨[], by simp, rfl, rfl⟩
  | cons chunk chunks ih =>
    obtain ⟨b, bytes, rfl⟩ := List.exists_cons_of_ne_nil (hchunks chunk List.mem_cons_self)
    have hlater := fun c hc => hchunks c (List.mem_cons_of_mem (b :: bytes) hc)
    cases n with
    | zero => exact ⟨(b :: bytes) :: chunks, hchunks, rfl, rfl⟩
    | succ n =>
      simp only [List.map_cons, readExact, List.flatten_cons]
      by_cases hlt : n + 1 < (b :: bytes).length
      · refine ⟨(b :: bytes).drop (n + 1) :: chunks, ?_, ?_, ?_⟩
        · intro c hc
          rcases List.mem_cons.mp hc with rfl | hc
          · exact List.ne_nil_of_length_pos (by rw [List.length_drop]; omega)
          · exact hlater c hc
        · rw [List.flatten_cons, List.drop_append_of_le_length (Nat.le_of_lt hlt)]
        · rw [if_pos hlt, List.take_append_of_le_length (Nat.le_of_lt hlt)]
          rfl
      · have hle : (b :: bytes).length ≤ n + 1 := Nat.not_lt.mp hlt
        obtain ⟨rest, hrest, hflat, hread⟩ := ih (n + 1 - (b :: bytes).length) hlater (by
          rw [List.flatten_cons, List.length_append] at hn
          omega)
        refine ⟨rest, hrest, ?_, ?_⟩
        · rw [hflat, List.drop_append, List.drop_eq_nil_of_le hle, List.nil_append]
        · rw [if_neg hlt, hread, List.take_append, List.take_of_length_le hle]

/-- However the bytes of a frame arrive, its payload is received. -/
theorem recvFrame_chunks {maxBytes : ℕ} {payload : List UInt8} {chunks : List (List UInt8)}
    (hchunks : ∀ chunk ∈ chunks, chunk ≠ [])
    (hbytes : chunks.flatten = be 4 payload.length ++ payload) (hmax : payload.length ≤ maxBytes)
    (hlen : payload.length < 256 ^ 4) :
    ∃ reads, recvFrame maxBytes (chunks.map .ok) = (.ok payload, reads) := by
  -- The header is complete after the first read and the rest of it.
  have hheader : ∃ first rest, ∃ later : List (List UInt8),
      readUpTo 4 (chunks.map .ok) = (.ok first, later.map .ok) ∧
      first ≠ [] ∧ (∀ chunk ∈ later, chunk ≠ []) ∧ first.length ≤ 4 ∧
      first ++ later.flatten = rest ∧ rest = chunks.flatten := by
    cases chunks with
    | nil =>
      have hempty := congrArg List.length hbytes
      simp at hempty
      omega
    | cons chunk chunks =>
      have hne := hchunks chunk List.mem_cons_self
      have hlater := fun c hc => hchunks c (List.mem_cons_of_mem chunk hc)
      simp only [List.map_cons, readUpTo]
      by_cases h4 : 4 < chunk.length
      · refine ⟨chunk.take 4, _, chunk.drop 4 :: chunks, by rw [if_pos h4]; rfl, ?_, ?_, ?_, rfl, ?_⟩
        · exact List.ne_nil_of_length_pos (by rw [List.length_take]; omega)
        · intro c hc
          rcases List.mem_cons.mp hc with rfl | hc
          · exact List.ne_nil_of_length_pos (by rw [List.length_drop]; omega)
          · exact hlater c hc
        · rw [List.length_take]
          omega
        · rw [List.flatten_cons, ← List.append_assoc, List.take_append_drop, List.flatten_cons]
      · exact ⟨chunk, _, chunks, by rw [if_neg h4], hne, hlater, Nat.not_lt.mp h4, rfl,
          List.flatten_cons⟩
  obtain ⟨first, rest, later, hread, hfirst, hlater, hfour, hsplit, rfl⟩ := hheader
  have htotal : first ++ later.flatten = be 4 payload.length ++ payload := hsplit.trans hbytes
  have hlength := congrArg List.length htotal
  rw [List.length_append, List.length_append, length_be] at hlength
  obtain ⟨later', hlater', hflat', hmore⟩ :=
    readExact_chunks (4 - first.length) later hlater (by omega)
  have hhead : first ++ later.flatten.take (4 - first.length) = be 4 payload.length := by
    have htake := congrArg (List.take 4) htotal
    rwa [List.take_append, List.take_of_length_le hfour, List.take_left' (length_be 4 _)] at htake
  have htail : later.flatten.drop (4 - first.length) = payload := by
    have hdrop := congrArg (List.drop 4) htotal
    rwa [List.drop_append, List.drop_eq_nil_of_le hfour, List.nil_append,
      List.drop_left' (length_be 4 _)] at hdrop
  obtain ⟨last, -, -, hpayload⟩ := readExact_chunks payload.length later' hlater' (by
    rw [hflat', htail])
  rw [hflat', htail, List.take_length] at hpayload
  obtain ⟨b, bytes, rfl⟩ := List.exists_cons_of_ne_nil hfirst
  refine ⟨last.map .ok, ?_⟩
  rw [recvFrame, hread]
  simp only [hmore]
  rw [hhead, recvPayload]
  simp only [ofBe_be hlen]
  rw [if_neg (Nat.not_lt.mpr hmax), hpayload]

section Sending

variable (w : WireCodec)

/-- The envelope encodes within the protocol's frame limit. -/
def Fits (envelope : OtkEnvelope) : Prop :=
  ∃ payload, w.envelope.encode envelope = .ok payload ∧ payload.length ≤ maxFrameBytes

variable {w}

/-- The SDK's framing of an envelope that fits is the codec's. -/
theorem Fits.frame {envelope : OtkEnvelope} (h : Fits w envelope) {max : ℕ}
    (hmax : maxFrameBytes ≤ max) :
    ∃ payload, w.envelope.encode envelope = .ok payload ∧ payload.length ≤ maxFrameBytes ∧
      encodeStream w.envelope envelope max = .ok (be 4 payload.length ++ payload) ∧
      ∀ stream : Stream, stream.sink = none → sendEncoded w stream envelope =
        (.ok (), { stream with sent := stream.sent ++ (be 4 payload.length ++ payload) }) := by
  obtain ⟨payload, henc, hlen⟩ := h
  have hu : maxFrameBytes ≤ u32Max := by decide
  refine ⟨payload, henc, hlen, ?_, ?_⟩
  · rw [encodeStream, henc]
    simp only
    rw [if_neg (Nat.not_lt.mpr (Nat.le_min.mpr ⟨hlen.trans hmax, hlen.trans hu⟩))]
  · intro stream hsink
    rw [sendEncoded, henc]
    simp only [sendFrame, hsink]
    rw [if_neg (Nat.not_lt.mpr (hlen.trans hu)), if_neg (Nat.not_lt.mpr hlen), List.append_assoc]

theorem sendEncoded_not_fits {envelope : OtkEnvelope} (h : ¬ Fits w envelope) (stream : Stream) :
    (sendEncoded w stream envelope).2 = stream := by
  rw [sendEncoded]
  cases henc : w.envelope.encode envelope with
  | error e => rfl
  | ok payload =>
    have hlong : payload.length > maxFrameBytes := by
      by_contra hle
      exact h ⟨payload, henc, Nat.not_lt.mp hle⟩
    simp only [sendFrame]
    split_ifs <;> rfl

/-- Every call of the list sends an envelope that fits. -/
def AllFit (w : WireCodec) (producerId : ProducerId) : ℕ → List Producer.Call → Prop
  | _, [] => True
  | seq, .event event traceparent :: calls =>
    (∃ payload, w.event.encode event = .ok payload ∧
      Fits w (Producer.eventEnvelope producerId seq payload traceparent)) ∧
      AllFit w producerId (seq + 1) calls
  | seq, .heartbeat nowNs traceparent :: calls =>
    (∃ payload, w.heartbeat.encode ⟨nowNs⟩ = .ok payload ∧
      Fits w (makeEnvelope producerId .heartbeat (some payload) traceparent)) ∧
      AllFit w producerId seq calls

def Producer.Call.incoming : Producer.Call → Option IncomingEvent
  | .event ev tp => some ⟨ev, tp.filter isValidTraceparent⟩
  | .heartbeat _ _ => none

theorem process_event (hw : w.event.Inverts) {producerId : ProducerId} {seq : ℕ}
    {event : OtkEvent} {payload : List UInt8} (hp : w.event.encode event = .ok payload)
    (traceparent : Option String) :
    PostHandshakeProcessor.process w ⟨producerId, protocolVersion⟩
        (Producer.eventEnvelope producerId seq payload traceparent) =
      .ok (.event event (traceparent.filter isValidTraceparent)) := by
  simp [PostHandshakeProcessor.process, Producer.eventEnvelope, makeEnvelope, hw _ _ hp]

theorem process_heartbeat (hw : w.heartbeat.Inverts) {producerId : ProducerId} {nowNs : UInt64}
    {payload : List UInt8} (hp : w.heartbeat.encode ⟨nowNs⟩ = .ok payload)
    (traceparent : Option String) :
    PostHandshakeProcessor.process w ⟨producerId, protocolVersion⟩
        (makeEnvelope producerId .heartbeat (some payload) traceparent) = .ok .heartbeat := by
  simp [PostHandshakeProcessor.process, makeEnvelope, hw _ _ hp]

/-- Enough to know of what a producer writes: frames of envelopes that deliver
`events` and end the session cleanly if at all. -/
def Writes (w : WireCodec) (producerId : ProducerId) (max : ℕ) (bytes : List UInt8)
    (events : List IncomingEvent) : Prop :=
  ∃ envelopes frames, List.Forall₂ (fun e f => encodeStream w.envelope e max = .ok f)
      envelopes frames ∧ bytes = frames.flatten ∧
    (deliver w ⟨producerId, protocolVersion⟩ envelopes = (events, none) ∨
      deliver w ⟨producerId, protocolVersion⟩ envelopes = (events, some (.ok ())))

theorem Writes.event (hw : w.event.Inverts) {producerId : ProducerId} {max : ℕ}
    {bytes : List UInt8} {events : List IncomingEvent} (h : Writes w producerId max bytes events)
    {seq : ℕ} {event : OtkEvent} {payload frame : List UInt8}
    (hp : w.event.encode event = .ok payload) (traceparent : Option String)
    (hf : encodeStream w.envelope (Producer.eventEnvelope producerId seq payload traceparent) max =
      .ok frame) :
    Writes w producerId max (frame ++ bytes)
      (⟨event, traceparent.filter isValidTraceparent⟩ :: events) := by
  obtain ⟨envelopes, frames, hframes, rfl, hdel⟩ := h
  refine ⟨_ :: envelopes, frame :: frames, .cons hf hframes, rfl, ?_⟩
  rw [deliver, process_event hw hp]
  rcases hdel with hdel | hdel <;> simp [hdel]

theorem Writes.heartbeat (hw : w.heartbeat.Inverts) {producerId : ProducerId} {max : ℕ}
    {bytes : List UInt8} {events : List IncomingEvent} (h : Writes w producerId max bytes events)
    {nowNs : UInt64} {payload frame : List UInt8}
    (hp : w.heartbeat.encode ⟨nowNs⟩ = .ok payload) (traceparent : Option String)
    (hf : encodeStream w.envelope (makeEnvelope producerId .heartbeat (some payload) traceparent)
      max = .ok frame) :
    Writes w producerId max (frame ++ bytes) events := by
  obtain ⟨envelopes, frames, hframes, rfl, hdel⟩ := h
  refine ⟨_ :: envelopes, frame :: frames, .cons hf hframes, rfl, ?_⟩
  rw [deliver, process_heartbeat hw hp]
  exact hdel

theorem writes_nil (producerId : ProducerId) (max : ℕ) : Writes w producerId max [] [] :=
  ⟨[], [], .nil, rfl, Or.inl rfl⟩

theorem writes_disconnect {producerId : ProducerId} {max : ℕ} (hmax : maxFrameBytes ≤ max)
    {stream : Stream} (hsink : stream.sink = none) (traceparent : Option String) :
    ∃ bytes, (sendEncoded w stream (makeEnvelope producerId .disconnect none traceparent)).2.sent =
        stream.sent ++ bytes ∧ Writes w producerId max bytes [] := by
  by_cases hfit : Fits w (makeEnvelope producerId .disconnect none traceparent)
  · obtain ⟨payload, -, -, hframe, hsend⟩ := hfit.frame hmax
    refine ⟨be 4 payload.length ++ payload, by rw [hsend stream hsink],
      [_], [_], .cons hframe .nil, by simp, Or.inr ?_⟩
    simp [deliver, PostHandshakeProcessor.process, makeEnvelope]
  · exact ⟨[], by rw [sendEncoded_not_fits hfit]; simp, writes_nil producerId max⟩

theorem runCalls_writes (hw : w.Inverts) {max : ℕ} (hmax : maxFrameBytes ≤ max)
    (lastTraceparent : Option String) (calls : List Producer.Call) (p : Producer)
    (hsink : p.stream.sink = none) (hseq : p.nextSeq < 2 ^ 64)
    (hfits : AllFit w p.producerId p.nextSeq calls) :
    ∃ bytes, (p.runCalls w lastTraceparent calls).sent = p.stream.sent ++ bytes ∧
      Writes w p.producerId max bytes
        ((calls.filterMap Producer.Call.incoming).take (2 ^ 64 - p.nextSeq)) := by
  induction calls generalizing p with
  | nil =>
    obtain ⟨bytes, hsent, hwrites⟩ := writes_disconnect hmax hsink lastTraceparent
    exact ⟨bytes, hsent, by simpa using hwrites⟩
  | cons call calls ih =>
    cases call with
    | event event traceparent =>
      obtain ⟨⟨payload, hpay, hfit⟩, hrest⟩ := hfits
      obtain ⟨bytes, -, -, hframe, hsend⟩ := hfit.frame hmax
      have htake : ((Producer.Call.event event traceparent :: calls).filterMap
            Producer.Call.incoming).take (2 ^ 64 - p.nextSeq) =
          ⟨event, traceparent.filter isValidTraceparent⟩ ::
            (calls.filterMap Producer.Call.incoming).take (2 ^ 64 - (p.nextSeq + 1)) := by
        have hsub : 2 ^ 64 - p.nextSeq = (2 ^ 64 - (p.nextSeq + 1)) + 1 := by omega
        rw [hsub, List.filterMap_cons, Producer.Call.incoming, List.take_succ_cons]
      rw [htake, Producer.runCalls, Producer.perform]
      simp only [hpay, hsend p.stream hsink]
      by_cases hlast : p.nextSeq + 1 < 2 ^ 64
      · obtain ⟨more, hsent, hwrites⟩ := ih
          ⟨{ p.stream with sent := p.stream.sent ++ (be 4 bytes.length ++ bytes) }, p.producerId,
            p.nextSeq + 1⟩ hsink hlast hrest
        refine ⟨be 4 bytes.length ++ bytes ++ more, ?_,
          hwrites.event hw.event hpay traceparent hframe⟩
        rw [if_pos hlast]
        exact hsent.trans (List.append_assoc _ _ _)
      · rw [if_neg hlast]
        have hzero : 2 ^ 64 - (p.nextSeq + 1) = 0 := by omega
        rw [hzero, List.take_zero]
        refine ⟨be 4 bytes.length ++ bytes ++ [], by simp, ?_⟩
        exact (writes_nil p.producerId max).event hw.event hpay traceparent hframe
    | heartbeat nowNs traceparent =>
      obtain ⟨⟨payload, hpay, hfit⟩, hrest⟩ := hfits
      obtain ⟨bytes, -, -, hframe, hsend⟩ := hfit.frame hmax
      rw [List.filterMap_cons, Producer.Call.incoming, Producer.runCalls, Producer.perform]
      simp only [hpay, hsend p.stream hsink]
      obtain ⟨more, hsent, hwrites⟩ := ih
        ⟨{ p.stream with sent := p.stream.sent ++ (be 4 bytes.length ++ bytes) }, p.producerId,
          p.nextSeq⟩ hsink hseq hrest
      refine ⟨be 4 bytes.length ++ bytes ++ more, ?_,
        hwrites.heartbeat hw.heartbeat hpay traceparent hframe⟩
      exact hsent.trans (List.append_assoc _ _ _)

/-- `chunks` is one way of reading `bytes`. -/
def Cuts (chunks : List (List UInt8)) (bytes : List UInt8) : Prop :=
  (∀ chunk ∈ chunks, chunk ≠ []) ∧ chunks.flatten = bytes

theorem readConnect_append (l : Listener) {decoder decoder' : StreamFrameDecoder}
    {reads rest : List Read} {envelope : OtkEnvelope} {pending : List OtkEnvelope}
    (h : readConnect l w decoder reads = .ok (envelope, pending, decoder', rest))
    (later : List Read) :
    readConnect l w decoder (reads ++ later) = .ok (envelope, pending, decoder', rest ++ later) := by
  induction reads generalizing decoder with
  | nil => simp [readConnect] at h
  | cons read reads ih =>
    rcases read with e | (_ | ⟨b, bytes⟩)
    · simp [readConnect] at h
    · simp [readConnect] at h
    · simp only [List.cons_append, readConnect] at h ⊢
      split at h
      · simp at h
      · exact ih h
      · simp only [Except.ok.injEq, Prod.mk.injEq] at h ⊢
        exact ⟨h.1, h.2.1, h.2.2.1, by rw [h.2.2.2]⟩

def connectOf (config : ProducerConfig) : Connect :=
  ⟨protocolVersion, protocolVersion, config.streams, config.authToken⟩

/-- The Connect of a configuration fits into a frame. -/
def ConnectFits (w : WireCodec) (config : ProducerConfig) (traceparent : Option String) : Prop :=
  ∃ payload, w.connect.encode (connectOf config) = .ok payload ∧
    Fits w (makeEnvelope ⟨config.producerId⟩ .connect (some payload) traceparent)

structure RepliesFit (w : WireCodec) : Prop where
  ack : ∃ payload, w.connectAck.encode ⟨protocolVersion⟩ = .ok payload ∧
    Fits w (serverEnvelope .connectAck (some payload) protocolVersion none)
  reject : ∀ reason, ∃ payload,
    w.connectReject.encode ⟨reason, protocolVersion, protocolVersion⟩ = .ok payload ∧
      Fits w (serverEnvelope .connectReject (some payload) protocolVersion none)

theorem performServerHandshake_connect (hw : w.connect.Inverts) {config : ProducerConfig}
    {payload : List UInt8} (hpay : w.connect.encode (connectOf config) = .ok payload)
    (traceparent : Option String) (authoriser : ConnectAuthoriser) :
    performServerHandshakeWithAuth w
        (makeEnvelope ⟨config.producerId⟩ .connect (some payload) traceparent) authoriser =
      match authoriser ⟨config.producerId⟩ config.authToken with
      | .error reason => refuse w reason protocolVersion none
      | .ok () => do
        let reply ← buildAckEnvelope w ⟨protocolVersion⟩ protocolVersion none
        return .accepted reply ⟨⟨config.producerId⟩, protocolVersion⟩ := by
  have hversion : ¬ ¬ ((connectOf config).protocolVersionMin ≤ protocolVersion ∧
      protocolVersion ≤ (connectOf config).protocolVersionMax) := by
    simp [connectOf]
  simp only [performServerHandshakeWithAuth, handshakeInner, makeEnvelope, hw _ _ hpay]
  rw [if_neg (by simp), if_neg hversion]
  rfl

/-- However the frame of an envelope is read, the handshake takes the envelope
and needs nothing of what comes later. -/
theorem readConnect_frame (hw : w.envelope.Inverts) (l : Listener) {max : ℕ}
    {envelope : OtkEnvelope} {frame : List UInt8}
    (hframe : encodeStream w.envelope envelope max = .ok frame) {chunks : List (List UInt8)}
    (hcut : Cuts chunks frame) (later : List Read) :
    ∃ pending decoder rest, readConnect l w (.new max) (chunks.map .ok ++ later) =
      .ok (envelope, pending, decoder, rest) := by
  obtain ⟨hclean, -⟩ := clean_encoded w max hw (.cons hframe .nil)
    (hcut.2.trans (List.flatten_singleton).symm)
  obtain ⟨pending, decoder, rest, -, hread, -⟩ := readConnect_some l w hcut.1 hclean
  exact ⟨pending, decoder, _, readConnect_append l hread later⟩

/-- A producer reads the reply to its Connect, however it is cut. -/
theorem connect_reply (hw : w.envelope.Inverts) {config : ProducerConfig}
    (hconfig : maxFrameBytes ≤ config.maxFrameBytes) {traceparent : Option String}
    {request : List UInt8}
    (hrequest : ∀ reads, Producer.request w config traceparent ⟨reads, none, []⟩ =
      (.ok (), ⟨reads, none, request⟩))
    {reply : OtkEnvelope} {payload : List UInt8} (hpay : w.envelope.encode reply = .ok payload)
    (hlen : payload.length ≤ maxFrameBytes) {replies : List (List UInt8)}
    (hcut : Cuts replies (be 4 payload.length ++ payload)) :
    ∃ reads, Producer.connect w config traceparent ⟨replies.map .ok, none, []⟩ =
      Producer.onResponse w ⟨config.producerId⟩ ⟨reads, none, request⟩ reply := by
  have hpos : config.maxFrameBytes ≠ 0 := by
    have : 0 < maxFrameBytes := by decide
    omega
  have hsmall : maxFrameBytes < 256 ^ 4 := by decide
  have hmin : payload.length ≤ min config.maxFrameBytes maxFrameBytes :=
    Nat.le_min.mpr ⟨hlen.trans hconfig, hlen⟩
  obtain ⟨reads, hrecv⟩ := recvFrame_chunks hcut.1 hcut.2 hmin (lt_of_le_of_lt hlen hsmall)
  refine ⟨reads, ?_⟩
  rw [Producer.connect, if_neg hpos, hrequest]
  simp only [hrecv, hw _ _ hpay]

theorem ConnectFits.request {config : ProducerConfig} {traceparent : Option String}
    (h : ConnectFits w config traceparent) {max : ℕ} (hmax : maxFrameBytes ≤ max) :
    ∃ payload frame, w.connect.encode (connectOf config) = .ok payload ∧
      encodeStream w.envelope
        (makeEnvelope ⟨config.producerId⟩ .connect (some payload) traceparent) max = .ok frame ∧
      ∀ reads, Producer.request w config traceparent ⟨reads, none, []⟩ =
        (.ok (), ⟨reads, none, frame⟩) := by
  obtain ⟨payload, hpay, hfit⟩ := h
  obtain ⟨bytes, -, -, hframe, hsend⟩ := hfit.frame hmax
  refine ⟨payload, _, hpay, hframe, fun reads => ?_⟩
  have hpay' : w.connect.encode ⟨protocolVersion, protocolVersion, config.streams,
    config.authToken⟩ = .ok payload := hpay
  rw [Producer.request, hpay']
  exact hsend ⟨reads, none, []⟩ rfl

/-- What a server session does with the bytes of an accepted producer, however
they are read: it delivers the events and ends without an error. -/
theorem transcript_accepted (hw : w.Inverts) {config : ProducerConfig} {max : ℕ}
    {traceparent : Option String} {authoriser : ConnectAuthoriser}
    (hauth : authoriser ⟨config.producerId⟩ config.authToken = .ok ())
    {payload frame : List UInt8} (hpay : w.connect.encode (connectOf config) = .ok payload)
    (hframe : encodeStream w.envelope
      (makeEnvelope ⟨config.producerId⟩ .connect (some payload) traceparent) max = .ok frame)
    {ack reply : List UInt8} (hack : w.connectAck.encode ⟨protocolVersion⟩ = .ok ack)
    (hreply : encodeStream w.envelope
      (serverEnvelope .connectAck (some ack) protocolVersion none) max = .ok reply)
    {bytes : List UInt8} {events : List IncomingEvent}
    (hwrites : Writes w ⟨config.producerId⟩ max bytes events) {chunks : List (List UInt8)}
    (hcut : Cuts chunks (frame ++ bytes)) (peerAddr : String) :
    transcript tcp w ⟨chunks.map .ok, none, []⟩ peerAddr max authoriser =
      ⟨.ok (), reply, events, some (.ok ())⟩ := by
  obtain ⟨envelopes, frames, hframes, rfl, hdel⟩ := hwrites
  obtain ⟨hclean, hfeed⟩ := clean_encoded w max hw.envelope (.cons hframe hframes) hcut.2
  rw [transcript_chunks tcp w chunks hcut.1, hclean, hfeed]
  have hperform := performServerHandshake_connect hw.connect hpay traceparent authoriser
  simp only [hauth, buildAckEnvelope, hack, bind, Except.bind, pure, Except.pure] at hperform
  simp only [transcriptOf, hperform, sendEnvelope, hreply, List.nil_append]
  rcases hdel with hdel | hdel
  · rw [hdel]
    rfl
  · rw [hdel]

theorem refuse_eq {reason : ConnectRejectReason} {payload : List UInt8}
    (h : w.connectReject.encode ⟨reason, protocolVersion, protocolVersion⟩ = .ok payload) :
    refuse w reason protocolVersion none =
      .ok (.rejected (serverEnvelope .connectReject (some payload) protocolVersion none) reason) := by
  simp only [refuse, buildRejectEnvelope, h, bind, Except.bind, pure, Except.pure]

/-- A session whose first frame holds a Connect that is refused delivers nothing. -/
theorem transcript_rejected_events (hw : w.envelope.Inverts) {max : ℕ}
    {authoriser : ConnectAuthoriser} {envelope reply : OtkEnvelope} {reason : ConnectRejectReason}
    {frame bytes : List UInt8} (hframe : encodeStream w.envelope envelope max = .ok frame)
    (hperform : performServerHandshakeWithAuth w envelope authoriser =
      .ok (.rejected reply reason))
    {chunks : List (List UInt8)} (hcut : Cuts chunks (frame ++ bytes)) (peerAddr : String) :
    (transcript tcp w ⟨chunks.map .ok, none, []⟩ peerAddr max authoriser).events = [] := by
  have hparse := parseFrames_encoded hw max (.cons hframe .nil) bytes
  have hpre := (clean_spec (batches (StreamFrameDecoder.push w.envelope) (.new max) chunks)).1
  rw [batches_flatten_eq, hcut.2, resultsOf] at hpre
  rw [List.flatten_singleton] at hparse
  rw [hparse] at hpre
  rw [transcript_chunks tcp w chunks hcut.1]
  cases hread : (clean (batches (StreamFrameDecoder.push w.envelope) (.new max) chunks)).1 with
  | nil => rfl
  | cons first rest =>
    rw [hread] at hpre
    obtain rfl : first = envelope := (List.cons_prefix_cons.mp hpre).1
    simp only [transcriptOf, hperform]

/-- A producer whose Connect and messages fit into frames, against a server that
takes frames of that size. If the authoriser accepts it, the server answers the
Connect whatever it reads later, the producer connects over that answer, and
from its bytes the session delivers the events sent and ends without an error;
a producer stops when its sequence numbers are used up. If the authoriser
refuses, the producer learns the reason and nothing is delivered. All this
holds however both directions are cut. -/
theorem producer_to_session (hw : w.Inverts) (hreplies : RepliesFit w) (config : ProducerConfig)
    (hconfig : maxFrameBytes ≤ config.maxFrameBytes) (max : ℕ) (hmax : maxFrameBytes ≤ max)
    (authoriser : ConnectAuthoriser) (peerAddr : String) (traceparent last : Option String)
    (hconnect : ConnectFits w config traceparent) (calls : List Producer.Call)
    (hcalls : AllFit w ⟨config.producerId⟩ 0 calls) :
    ∃ request reply, Producer.request w config traceparent ⟨[], none, []⟩ =
        (.ok (), ⟨[], none, request⟩) ∧
      (authoriser ⟨config.producerId⟩ config.authToken = .ok () →
        (∀ chunks later, Cuts chunks request → ∃ session stream,
          handshake tcp w ⟨chunks.map .ok ++ later, none, []⟩ peerAddr max authoriser =
            (.ok session, stream) ∧ stream.sent = reply) ∧
        ∀ replies, Cuts replies reply → ∃ p,
          Producer.connect w config traceparent ⟨replies.map .ok, none, []⟩ = .ok p ∧
          ∀ chunks, Cuts chunks (p.runCalls w last calls).sent →
            transcript tcp w ⟨chunks.map .ok, none, []⟩ peerAddr max authoriser =
              ⟨.ok (), reply, (calls.filterMap Producer.Call.incoming).take (2 ^ 64),
                some (.ok ())⟩) ∧
      ∀ reason, authoriser ⟨config.producerId⟩ config.authToken = .error reason →
        (∀ chunks later, Cuts chunks request → ∃ stream,
          handshake tcp w ⟨chunks.map .ok ++ later, none, []⟩ peerAddr max authoriser =
            (.error (.handshake ("rejected: " ++ reason.debug)), stream) ∧ stream.sent = reply) ∧
        (∀ replies, Cuts replies reply →
          Producer.connect w config traceparent ⟨replies.map .ok, none, []⟩ =
            .error (.rejected reason protocolVersion protocolVersion)) ∧
        ∀ bytes chunks, Cuts chunks (request ++ bytes) →
          (transcript tcp w ⟨chunks.map .ok, none, []⟩ peerAddr max authoriser).events = [] := by
  obtain ⟨payload, request, hpay, hframe, hrequest⟩ := hconnect.request hmax
  have hperform := performServerHandshake_connect hw.connect hpay traceparent authoriser
  cases hauth : authoriser ⟨config.producerId⟩ config.authToken with
  | ok _ =>
    obtain ⟨ack, hack, hfit⟩ := hreplies.ack
    obtain ⟨bytes, henc, hlen, hreply, -⟩ := hfit.frame hmax
    refine ⟨request, be 4 bytes.length ++ bytes, hrequest [], fun _ => ⟨?_, ?_⟩,
      fun reason h => by simp at h⟩
    · intro chunks later hcut
      obtain ⟨pending, decoder, rest, hread⟩ :=
        readConnect_frame hw.envelope tcp hframe hcut later
      simp only [hauth, buildAckEnvelope, hack, bind, Except.bind, pure, Except.pure] at hperform
      simp only [handshake, hread, hperform, sendEnvelope, hreply]
      exact ⟨_, _, rfl, rfl⟩
    · intro replies hcut
      obtain ⟨reads, hresp⟩ := connect_reply hw.envelope hconfig hrequest henc hlen hcut
      refine ⟨⟨⟨reads, none, request⟩, ⟨config.producerId⟩, 0⟩, ?_, ?_⟩
      · rw [hresp]
        simp [Producer.onResponse, serverEnvelope, hw.connectAck _ _ hack]
      · intro chunks hchunks
        obtain ⟨bytes', hsent, hwrites⟩ := runCalls_writes hw hmax last calls
          ⟨⟨reads, none, request⟩, ⟨config.producerId⟩, 0⟩ rfl (by norm_num) hcalls
        rw [hsent] at hchunks
        exact transcript_accepted hw hauth hpay hframe hack hreply hwrites hchunks peerAddr
  | error reason =>
    obtain ⟨reject, hreject, hfit⟩ := hreplies.reject reason
    obtain ⟨bytes, henc, hlen, hreply, -⟩ := hfit.frame hmax
    rw [hauth] at hperform
    simp only [refuse_eq hreject] at hperform
    refine ⟨request, be 4 bytes.length ++ bytes, hrequest [], fun h => by simp at h, ?_⟩
    rintro reason' ⟨⟩
    refine ⟨?_, ?_, ?_⟩
    · intro chunks later hcut
      obtain ⟨pending, decoder, rest, hread⟩ :=
        readConnect_frame hw.envelope tcp hframe hcut later
      simp only [handshake, hread, hperform, sendEnvelope, hreply]
      exact ⟨_, rfl, rfl⟩
    · intro replies hcut
      obtain ⟨reads, hresp⟩ := connect_reply hw.envelope hconfig hrequest henc hlen hcut
      rw [hresp]
      simp [Producer.onResponse, serverEnvelope, hw.connectReject _ _ hreject]
    · intro rest chunks hcut
      exact transcript_rejected_events hw.envelope hframe hperform hcut peerAddr

end Sending

def rejectBytes (reason : UInt8) : List UInt8 := [0x83, 0x82, reason, 0x80, 0x00, 0x00]

def rejectEnvelope (reason : UInt8) : OtkEnvelope :=
  serverEnvelope .connectReject (some (rejectBytes reason)) 0 none

def rejectEnvelopeBytes (reason : UInt8) : List UInt8 :=
  [0x87, 0x00, 0x82, 0x03, 0x80, 0x66, 0x73, 0x65, 0x72, 0x76, 0x65, 0x72, 0xf6, 0xf6, 0xf6, 0x86,
  0x18, 0x83, 0x18, 0x82, reason, 0x18, 0x80, 0x00, 0x00]

def heartbeatBytes : List UInt8 := [0x81, 0x05]

def heartbeatEnvelope : OtkEnvelope :=
  ⟨0, .heartbeat, ⟨"p"⟩, none, none, none, some heartbeatBytes, none⟩

def heartbeatEnvelopeBytes : List UInt8 :=
  [0x87, 0x00, 0x82, 0x04, 0x80, 0x61, 0x70, 0xf6, 0xf6, 0xf6, 0x82, 0x18, 0x81, 0x05]

/-- The sample wire with a heartbeat and the four refusals. -/
def producerWire : WireCodec where
  envelope := .ofTable [(connectEnvelope, connectEnvelopeBytes), (ackEnvelope, ackEnvelopeBytes),
    (healthEnvelope, healthEnvelopeBytes), (heartbeatEnvelope, heartbeatEnvelopeBytes),
    (disconnectEnvelope, disconnectEnvelopeBytes), (rejectEnvelope 0, rejectEnvelopeBytes 0),
    (rejectEnvelope 1, rejectEnvelopeBytes 1), (rejectEnvelope 2, rejectEnvelopeBytes 2),
    (rejectEnvelope 3, rejectEnvelopeBytes 3)]
  event := .ofTable [(sampleHealth, healthBytes)]
  connect := .ofTable [(sampleConnect, connectBytes)]
  connectAck := .ofTable [(⟨0⟩, ackBytes)]
  connectReject := .ofTable [(⟨.versionNotSupported, 0, 0⟩, rejectBytes 0),
    (⟨.producerIdAlreadyConnected, 0, 0⟩, rejectBytes 1), (⟨.unauthorized, 0, 0⟩, rejectBytes 2),
    (⟨.serverFull, 0, 0⟩, rejectBytes 3)]
  heartbeat := .ofTable [(⟨5⟩, heartbeatBytes)]

theorem producerWire_inverts : producerWire.Inverts where
  envelope := Cbor.inverts_ofTable (by decide)
  event := Cbor.inverts_ofTable (by decide)
  connect := Cbor.inverts_ofTable (by decide)
  connectAck := Cbor.inverts_ofTable (by decide)
  connectReject := Cbor.inverts_ofTable (by decide)
  heartbeat := Cbor.inverts_ofTable (by decide)

theorem producerWire_repliesFit : RepliesFit producerWire where
  ack := ⟨ackBytes, by decide, ackEnvelopeBytes, by decide, by decide⟩
  reject reason := by
    cases reason with
    | versionNotSupported =>
      exact ⟨rejectBytes 0, by decide, rejectEnvelopeBytes 0, by decide, by decide⟩
    | producerIdAlreadyConnected =>
      exact ⟨rejectBytes 1, by decide, rejectEnvelopeBytes 1, by decide, by decide⟩
    | unauthorized =>
      exact ⟨rejectBytes 2, by decide, rejectEnvelopeBytes 2, by decide, by decide⟩
    | serverFull =>
      exact ⟨rejectBytes 3, by decide, rejectEnvelopeBytes 3, by decide, by decide⟩

/-- One health report and one heartbeat. -/
theorem producer_to_session_sample :
    ∃ reply,
      (∀ chunks later, Cuts chunks ([0, 0, 0, 17] ++ connectEnvelopeBytes) → ∃ session stream,
        handshake tcp producerWire ⟨chunks.map .ok ++ later, none, []⟩ "peer" 65535
          (fun _ _ => .ok ()) = (.ok session, stream) ∧ stream.sent = reply) ∧
      ∀ replies, Cuts replies reply → ∃ p,
        Producer.connect producerWire ⟨"p", [], 65535, none⟩ none ⟨replies.map .ok, none, []⟩ =
          .ok p ∧
        ∀ chunks, Cuts chunks (p.runCalls producerWire none
            [.event sampleHealth none, .heartbeat 5 none]).sent →
          transcript tcp producerWire ⟨chunks.map .ok, none, []⟩ "peer" 65535
            (fun _ _ => .ok ()) = ⟨.ok (), reply, [⟨sampleHealth, none⟩], some (.ok ())⟩ := by
  have hconnect : ConnectFits producerWire ⟨"p", [], 65535, none⟩ none :=
    ⟨connectBytes, by decide, connectEnvelopeBytes, by decide, by decide⟩
  have hcalls : AllFit producerWire ⟨"p"⟩ 0 [.event sampleHealth none, .heartbeat 5 none] :=
    ⟨⟨healthBytes, by decide, healthEnvelopeBytes, by decide, by decide⟩,
      ⟨heartbeatBytes, by decide, heartbeatEnvelopeBytes, by decide, by decide⟩, trivial⟩
  obtain ⟨request, reply, hrequest, haccept, -⟩ := producer_to_session producerWire_inverts
    producerWire_repliesFit ⟨"p", [], 65535, none⟩ (by decide) 65535 (by decide)
    (fun _ _ => .ok ()) "peer" none none hconnect [.event sampleHealth none, .heartbeat 5 none]
    hcalls
  have hsent : Producer.request producerWire ⟨"p", [], 65535, none⟩ none ⟨[], none, []⟩ =
      (.ok (), ⟨[], none, [0, 0, 0, 17] ++ connectEnvelopeBytes⟩) := rfl
  obtain rfl : [0, 0, 0, 17] ++ connectEnvelopeBytes = request := by
    simpa using congrArg (fun r => r.2.sent) (hsent.symm.trans hrequest)
  exact ⟨reply, (haccept rfl).1, (haccept rfl).2⟩

/-- A producer id of `n` letters, its Connect, and the encoding for a length that
needs four bytes. -/
def longId (n : ℕ) : String := String.ofList (List.replicate n 'a')

def longConnectEnvelope (n : ℕ) : OtkEnvelope :=
  ⟨0, .connect, ⟨longId n⟩, none, none, none, some connectBytes, none⟩

def longConnectEnvelopeBytes (n : ℕ) : List UInt8 :=
  [0x87, 0x00, 0x82, 0x01, 0x80, 0x7a] ++ be 4 n ++ List.replicate n 0x61 ++
    [0xf6, 0xf6, 0xf6, 0x84, 0x18, 0x83, 0x00, 0x00, 0x18, 0x80]

def longWire (n : ℕ) : WireCodec where
  envelope := .ofTable [(longConnectEnvelope n, longConnectEnvelopeBytes n)]
  event := .ofTable []
  connect := .ofTable [(sampleConnect, connectBytes)]
  connectAck := .ofTable []
  connectReject := .ofTable []
  heartbeat := .ofTable []

theorem longWire_inverts (n : ℕ) : (longWire n).Inverts where
  envelope := Cbor.inverts_ofTable (List.nodup_singleton _)
  event := Cbor.inverts_ofTable_nil
  connect := Cbor.inverts_ofTable (List.nodup_singleton _)
  connectAck := Cbor.inverts_ofTable_nil
  connectReject := Cbor.inverts_ofTable_nil
  heartbeat := Cbor.inverts_ofTable_nil

theorem connect_longId {n : ℕ} (hlong : maxFrameBytes < n + 20) (hn : n + 20 ≤ u32Max)
    (reads : List Read) :
    Producer.connect (longWire n) ⟨longId n, [], 65535, none⟩ none ⟨reads, none, []⟩ =
      .error (.encode ("frame too large: " ++ toString (n + 20) ++
        " bytes exceeds the " ++ toString maxFrameBytes ++ " byte protocol maximum")) := by
  have hconnect : (longWire n).connect.encode ⟨protocolVersion, protocolVersion, [], none⟩ =
      .ok connectBytes := by
    simp [longWire, Cbor.ofTable, sampleConnect, protocolVersion]
  have henv : makeEnvelope ⟨longId n⟩ .connect (some connectBytes) none = longConnectEnvelope n :=
    rfl
  have henc : (longWire n).envelope.encode (longConnectEnvelope n) =
      .ok (longConnectEnvelopeBytes n) := by
    simp [longWire, Cbor.ofTable]
  have hlen : (longConnectEnvelopeBytes n).length = n + 20 := by
    simp [longConnectEnvelopeBytes, length_be]
    omega
  have hsend : sendFrame ⟨reads, none, []⟩ (longConnectEnvelopeBytes n) =
      (.error (.encode ("frame too large: " ++ toString (n + 20) ++
        " bytes exceeds the " ++ toString maxFrameBytes ++ " byte protocol maximum")),
        ⟨reads, none, []⟩) := by
    rw [sendFrame, hlen, if_neg (Nat.not_lt.mpr hn), if_pos hlong]
  simp [Producer.connect, Producer.request, hconnect, henv, sendEncoded, henc, hsend]

/-- A producer id of 70000 bytes makes the Connect too large for a frame: no
server is reached at all, whatever its authoriser accepts. -/
theorem long_producer_id_cannot_connect :
    (longWire 70000).Inverts ∧ ∀ reads,
      Producer.connect (longWire 70000) ⟨longId 70000, [], 65535, none⟩ none ⟨reads, none, []⟩ =
        .error (.encode ("frame too large: " ++ toString 70020 ++
          " bytes exceeds the " ++ toString 65535 ++ " byte protocol maximum")) :=
  ⟨longWire_inverts 70000, connect_longId (by decide) (by decide)⟩

end OtkCore.Ingest
