import OtkCore.Ingest.Parity
import OtkCore.Core.EventIngest

/-!
# Authenticity and attribution

Whatever bytes a peer sends, events only come from an authorised Connect, they
are the payloads of Event envelopes of that Connect's source, and the log stores
them under that source.
-/
namespace OtkCore.Ingest

open FrameCodec Decoding FileIO

section Processing

variable (w : WireCodec) (p : PostHandshakeProcessor)

/-- The event an Event envelope of the session carries. -/
def eventOf (envelope : OtkEnvelope) : Option IncomingEvent :=
  match p.process w envelope with
  | .ok (.event event traceparent) => some ⟨event, traceparent⟩
  | _ => none

/-- The envelope is valid and does not end the session. -/
def Continues (envelope : OtkEnvelope) : Prop :=
  p.process w envelope = .ok .heartbeat ∨
    ∃ event traceparent, p.process w envelope = .ok (.event event traceparent)

/-- What a queue delivers are the events of a prefix of valid envelopes. -/
theorem deliver_prefix (envelopes : List OtkEnvelope) :
    ∃ seen, seen <+: envelopes ∧ (∀ e ∈ seen, Continues w p e) ∧
      (deliver w p envelopes).1 = seen.filterMap (eventOf w p) := by
  induction envelopes with
  | nil => exact ⟨[], List.nil_prefix, by simp, rfl⟩
  | cons envelope envelopes ih =>
    obtain ⟨seen, hpre, hcont, hev⟩ := ih
    rw [deliver]
    cases hp : p.process w envelope with
    | error e => exact ⟨[], List.nil_prefix, by simp, rfl⟩
    | ok action =>
      cases action with
      | event ev tp =>
        refine ⟨envelope :: seen, List.cons_prefix_cons.mpr ⟨rfl, hpre⟩, ?_, ?_⟩
        · rintro e (_ | ⟨_, he⟩)
          · exact Or.inr ⟨ev, tp, hp⟩
          · exact hcont e he
        · simp [eventOf, hp, hev]
      | heartbeat =>
        refine ⟨envelope :: seen, List.cons_prefix_cons.mpr ⟨rfl, hpre⟩, ?_, ?_⟩
        · rintro e (_ | ⟨_, he⟩)
          · exact Or.inl hp
          · exact hcont e he
        · simp [eventOf, hp, hev]
      | disconnect => exact ⟨[], List.nil_prefix, by simp, rfl⟩

/-- A valid envelope carries the negotiated version and the registered source;
it is an Event with a decodable payload or a heartbeat. -/
theorem Continues.spec {envelope : OtkEnvelope} (h : Continues w p envelope) :
    envelope.protocolVersion = p.negotiatedVersion ∧ envelope.sourceId = p.producerId ∧
      ((envelope.messageType = .heartbeat ∧ eventOf w p envelope = none) ∨
        envelope.messageType = .event ∧ ∃ payload event, envelope.payload = some payload ∧
          w.event.decode payload = .ok event ∧ eventOf w p envelope =
            some ⟨event, envelope.traceparent.filter isValidTraceparent⟩) := by
  rcases h with hb | ⟨event, tp, he⟩
  · obtain ⟨hv, hs, hmt⟩ := process_eq_ok w hb
    exact ⟨hv, hs, Or.inl ⟨hmt, by simp [eventOf, hb]⟩⟩
  · obtain ⟨hv, hs, hmt, rfl, payload, hpay, hdec⟩ := process_eq_ok w he
    exact ⟨hv, hs, Or.inr ⟨hmt, payload, event, hpay, hdec, by simp [eventOf, he]⟩⟩

end Processing

section Node

variable (l : Listener) (w : WireCodec)

/-- Append the events of a session under its producer id until the session or
the log ends it; `env n` is what the environment decides about the `n`-th call. -/
def handleSession (producerId : String) (env : ℕ → IngestEnv) (service : EventIngestService)
    (session : Session) : EventIngestService :=
  match _h : nextEvent l w session with
  | (.ok (some incoming), session') =>
    match service.appendEvent producerId incoming.event (env 0) with
    | (.ok _, service') =>
      handleSession producerId (fun n => env (n + 1)) service' session'
    | (.error _, service') => service'
  | (.ok none, _) => service
  | (.error _, _) => service
termination_by (session.stream.reads.length, session.pending.length)
decreasing_by
  rcases nextEvent_lt l w _h with hlt | ⟨heq, hlt⟩
  · exact Prod.Lex.left _ _ hlt
  · rw [heq]
    exact Prod.Lex.right _ hlt

/-- A call adds at most one batch to the log, under its own producer. -/
theorem appendEvent_batches (s : EventIngestService) (producerId : String) (event : OtkEvent)
    (env : IngestEnv) :
    ∃ added, (s.appendEvent producerId event env).2.log.batches = s.log.batches ++ added ∧
      ∀ b ∈ added, b.producerId = producerId := by
  rcases s.appendEvent_cases producerId event env with
    ⟨-, -, hlog, -⟩ | ⟨e, he⟩ | ⟨-, o, -, -, hlog, -⟩
  · exact ⟨[], by simp [hlog], by simp⟩
  · exact ⟨[], by simp [he], by simp⟩
  · exact ⟨_, by rw [hlog], by simp⟩

theorem handleSession_batches (producerId : String) (env : ℕ → IngestEnv)
    (service : EventIngestService) (session : Session) :
    ∃ added, (handleSession l w producerId env service session).log.batches =
        service.log.batches ++ added ∧ ∀ b ∈ added, b.producerId = producerId := by
  fun_induction handleSession l w producerId env service session with
  | case1 env service session incoming session' hnext outcome service' happ ih =>
    obtain ⟨added, hadd, hpid⟩ := appendEvent_batches service producerId incoming.event (env 0)
    obtain ⟨added', hadd', hpid'⟩ := ih
    rw [happ] at hadd
    refine ⟨added ++ added', by rw [hadd', hadd, List.append_assoc], ?_⟩
    intro b hb
    rcases List.mem_append.mp hb with hb | hb
    · exact hpid b hb
    · exact hpid' b hb
  | case2 env service session incoming session' hnext e service' happ =>
    obtain ⟨added, hadd, hpid⟩ := appendEvent_batches service producerId incoming.event (env 0)
    rw [happ] at hadd
    exact ⟨added, hadd, hpid⟩
  | case3 => exact ⟨[], by simp, by simp⟩
  | case4 => exact ⟨[], by simp, by simp⟩

end Node

/-- A session that a handshake returns has read an accepted Connect; it
delivers from the envelopes read after it. -/
theorem handshake_ok (l : Listener) (w : WireCodec) {chunks : List (List UInt8)}
    (hchunks : ∀ chunk ∈ chunks, chunk ≠ []) {sink : Option IoErrorKind} {sent : List UInt8}
    {peerAddr : String} {max : ℕ} {authoriser : ConnectAuthoriser} {session : Session}
    {stream : Stream}
    (h : handshake l w ⟨chunks.map .ok, sink, sent⟩ peerAddr max authoriser =
      (.ok session, stream)) :
    ∃ connectEnv rest err reply,
      clean (batches (StreamFrameDecoder.push w.envelope) (.new max) chunks) =
        (connectEnv :: rest, err) ∧
      performServerHandshakeWithAuth w connectEnv authoriser =
        .ok (.accepted reply session.processor) ∧
      session.producerId = session.processor.producerId.asStr ∧
      (drain l w session).1 = (deliver w session.processor rest).1 := by
  cases hclean : clean (batches (StreamFrameDecoder.push w.envelope) (.new max) chunks) with
  | mk envelopes err =>
    cases envelopes with
    | nil => simp [handshake, readConnect_none l w hchunks hclean] at h
    | cons connectEnv rest =>
      obtain ⟨pending, decoder, later, hlater, hread, hrest, -, -⟩ :=
        readConnect_some l w hchunks hclean
      simp only [handshake, hread] at h
      cases hauth : performServerHandshakeWithAuth w connectEnv authoriser with
      | error e => simp [hauth] at h
      | ok outcome =>
        cases outcome with
        | rejected reply reason => simp [hauth] at h
        | accepted reply processor =>
          simp only [hauth] at h
          rw [sendEnvelope_reads] at h
          simp only at h
          cases hsend : sendEnvelope w ⟨[], sink, sent⟩ reply max with
          | mk result stream' =>
            cases result with
            | error e => simp [hsend] at h
            | ok _ =>
              simp only [hsend, Prod.mk.injEq, Except.ok.injEq] at h
              obtain ⟨rfl, -⟩ := h
              refine ⟨connectEnv, rest, err, reply, rfl, hauth, rfl, ?_⟩
              have hdrain := drain_chunks l w ⟨{ stream' with reads := later.map .ok }, peerAddr,
                processor.producerId.asStr, decoder, processor, pending⟩ decoder later hlater
                pending
              simp only [Session.move, ← hrest] at hdrain
              rw [hdrain]
              cases deliver w processor rest with
              | mk events ending => cases ending <;> rfl

/-- The envelopes in front of the first bad frame are the first results. -/
theorem goodPrefix_isPrefix (results : List FrameResult) :
    (goodPrefix results).1.map .ok <+: results := by
  induction results with
  | nil => simp [goodPrefix]
  | cons result results ih =>
    cases result with
    | ok envelope => exact List.cons_prefix_cons.mpr ⟨rfl, ih⟩
    | error e => exact List.nil_prefix

theorem entries_of_batches {h h' : EventHistory} {added : List Batch}
    (hb : h'.batches = h.batches ++ added) (producerId : String)
    (hadded : ∀ b ∈ added, b.producerId = producerId) :
    ∃ new, h'.entries = h.entries ++ new ∧ ∀ e ∈ new, e.producerId = producerId := by
  refine ⟨EventHistory.entriesFrom h.entries.length added, ?_, ?_⟩
  · rw [EventHistory.entries, hb, EventHistory.entriesFrom_append, Nat.zero_add]
    rfl
  · generalize h.entries.length = offset
    clear hb
    induction added generalizing offset with
    | nil => simp [EventHistory.entriesFrom]
    | cons b added ih =>
      intro e he
      rw [EventHistory.entriesFrom, List.mem_append] at he
      rcases he with he | he
      · simp only [EventHistory.batchEntries, List.mem_mapIdx] at he
        obtain ⟨i, hi, rfl⟩ := he
        exact hadded b List.mem_cons_self
      · exact ih (fun b' hb' => hadded b' (List.mem_cons_of_mem _ hb')) _ _ he

/-- Whatever bytes arrive and however they are read: a session exists only
after an authorised Connect in the first frame; its events are those of the
Event envelopes among a run of valid envelopes right behind that Connect, all of
its source and of the negotiated version, none behind a Disconnect; and what the
node logs for the session is logged under that source. -/
theorem session_authentic (w : WireCodec) (authoriser : ConnectAuthoriser) (max : ℕ)
    (sink : Option IoErrorKind) (peerAddr : String) (chunks : List (List UInt8))
    (hchunks : ∀ chunk ∈ chunks, 1 ≤ chunk.length ∧ chunk.length ≤ 4096) (session : Session)
    (stream : Stream)
    (h : handshake tcp w ⟨chunks.map .ok, sink, []⟩ peerAddr max authoriser =
      (.ok session, stream)) :
    ∃ connectEnv payload connect, ∃ seen : List OtkEnvelope, ∃ later,
      resultsOf w max chunks.flatten = .ok connectEnv :: (seen.map .ok ++ later) ∧
      connectEnv.messageType = .connect ∧ connectEnv.payload = some payload ∧
      w.connect.decode payload = .ok connect ∧
      connect.protocolVersionMin ≤ protocolVersion ∧
      protocolVersion ≤ connect.protocolVersionMax ∧
      authoriser connectEnv.sourceId connect.authToken = .ok () ∧
      (drain tcp w session).1 = seen.filterMap (eventOf w ⟨connectEnv.sourceId, protocolVersion⟩) ∧
      (∀ e ∈ seen, e.sourceId = connectEnv.sourceId ∧ e.protocolVersion = protocolVersion ∧
        ((e.messageType = .heartbeat ∧
            eventOf w ⟨connectEnv.sourceId, protocolVersion⟩ e = none) ∨
          e.messageType = .event ∧ ∃ bytes event, e.payload = some bytes ∧
            w.event.decode bytes = .ok event ∧
            eventOf w ⟨connectEnv.sourceId, protocolVersion⟩ e =
              some ⟨event, e.traceparent.filter isValidTraceparent⟩)) ∧
      ∀ env service, ∃ new,
        (handleSession tcp w session.producerId env service session).log.entries =
          service.log.entries ++ new ∧ ∀ e ∈ new, e.producerId = connectEnv.sourceId.asStr := by
  have hne : ∀ chunk ∈ chunks, chunk ≠ [] :=
    fun chunk hc => List.ne_nil_of_length_pos (hchunks chunk hc).1
  obtain ⟨connectEnv, rest, err, reply, hclean, hauth, hpid, hdrain⟩ := handshake_ok tcp w hne h
  obtain ⟨hmt, hproc, -, payload, connect, hpay, hdec, hmin, hmax, hok⟩ :=
    handshake_accepted w hauth
  rw [hproc] at hdrain hpid
  obtain ⟨seen, hseen, hcont, hevents⟩ :=
    deliver_prefix w ⟨connectEnv.sourceId, protocolVersion⟩ rest
  have hpre : (connectEnv :: seen).map .ok <+: resultsOf w max chunks.flatten := by
    have h1 := (clean_spec (batches (StreamFrameDecoder.push w.envelope) (.new max) chunks)).1
    rw [hclean, batches_flatten_eq] at h1
    have h2 : connectEnv :: seen <+: (goodPrefix (resultsOf w max chunks.flatten)).1 :=
      (List.cons_prefix_cons.mpr ⟨rfl, hseen⟩).trans h1
    exact (h2.map _).trans (goodPrefix_isPrefix _)
  obtain ⟨later, hlater⟩ := hpre
  refine ⟨connectEnv, payload, connect, seen, later, hlater.symm, hmt, hpay, hdec, hmin, hmax,
    hok, hdrain.trans hevents, ?_, ?_⟩
  · intro e he
    obtain ⟨hv, hs, hkind⟩ := (hcont e he).spec
    exact ⟨hs, hv, hkind⟩
  · intro env service
    obtain ⟨added, hadd, hadded⟩ := handleSession_batches tcp w session.producerId env service
      session
    exact entries_of_batches hadd _ fun b hb => (hadded b hb).trans hpid

/-- A Connect and a health report, cut inside the Connect. -/
def sampleChunks : List (List UInt8) :=
  [[0, 0, 0, 17] ++ connectEnvelopeBytes.take 5,
    connectEnvelopeBytes.drop 5 ++ [0, 0, 0, 28] ++ healthEnvelopeBytes]

theorem sampleChunks_read :
    clean (batches (StreamFrameDecoder.push sampleWire.envelope) (.new 65535) sampleChunks) =
        ([connectEnvelope, healthEnvelope], none) ∧
      (feed (StreamFrameDecoder.push sampleWire.envelope) (.new 65535) sampleChunks).2 =
        .new 65535 := by
  have hw : sampleWire.envelope.Inverts := Cbor.inverts_ofTable (by decide)
  have hconnect : encodeStream sampleWire.envelope connectEnvelope 65535 =
      .ok ([0, 0, 0, 17] ++ connectEnvelopeBytes) := by decide
  have hhealth : encodeStream sampleWire.envelope healthEnvelope 65535 =
      .ok ([0, 0, 0, 28] ++ healthEnvelopeBytes) := by decide
  exact clean_encoded sampleWire 65535 hw (.cons hconnect (.cons hhealth .nil)) rfl

theorem session_authentic_sample :
    ∃ session stream connectEnv later,
      handshake tcp sampleWire ⟨sampleChunks.map .ok, none, []⟩ "peer" 65535 (fun _ _ => .ok ()) =
        (.ok session, stream) ∧
      (drain tcp sampleWire session).1 = [⟨sampleHealth, none⟩] ∧
      resultsOf sampleWire 65535 sampleChunks.flatten = .ok connectEnv :: later ∧
      connectEnv.messageType = .connect := by
  have hne : ∀ chunk ∈ sampleChunks, 1 ≤ chunk.length ∧ chunk.length ≤ 4096 := by decide
  have ht := transcript_chunks tcp sampleWire sampleChunks (by decide) none [] "peer" 65535
    (fun _ _ => .ok ())
  rw [sampleChunks_read.1, sampleChunks_read.2, transcript] at ht
  cases hs : handshake tcp sampleWire ⟨sampleChunks.map .ok, none, []⟩ "peer" 65535
      (fun _ _ => .ok ()) with
  | mk result stream =>
    cases result with
    | error e =>
      rw [hs] at ht
      have hok : (transcriptOf tcp sampleWire none [] 65535 (fun _ _ => .ok ()) (.new 65535)
          [connectEnvelope, healthEnvelope] none).handshake = .ok () := by decide
      rw [← ht] at hok
      simp at hok
    | ok session =>
      rw [hs] at ht
      obtain ⟨connectEnv, -, -, seen, later, hres, hmt, -⟩ := session_authentic sampleWire
        (fun _ _ => .ok ()) 65535 none "peer" sampleChunks hne session stream hs
      refine ⟨session, stream, connectEnv, _, rfl, ?_, hres, hmt⟩
      have hev := congrArg Transcript.events ht
      simp only at hev
      rw [hev]
      decide

end OtkCore.Ingest
