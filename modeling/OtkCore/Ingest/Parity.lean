import OtkCore.Ingest.Session

/-!
# Listener parity

How the frames of a session relate to the frames of the whole stream, and where
the two listeners differ: only the TCP listener tells a stream that ends inside
a frame from one that ends between two.
-/
namespace OtkCore.Ingest

open FrameCodec Decoding FileIO

theorem goodPrefix_append (results results' : List FrameResult) :
    goodPrefix (results ++ results') =
      match goodPrefix results with
      | (envelopes, some e) => (envelopes, some e)
      | (envelopes, none) => (envelopes ++ (goodPrefix results').1, (goodPrefix results').2) := by
  induction results with
  | nil => simp [goodPrefix]
  | cons result results ih =>
    cases result with
    | error e => rfl
    | ok envelope =>
      simp only [List.cons_append, goodPrefix, ih]
      cases goodPrefix results with
      | mk envelopes err => cases err <;> rfl

/-- A session reads a prefix of the envelopes in front of the first bad frame,
and it meets that frame. -/
theorem clean_spec (bs : List (List FrameResult)) :
    (clean bs).1 <+: (goodPrefix bs.flatten).1 ∧ (clean bs).2 = (goodPrefix bs.flatten).2 ∧
      ((goodPrefix bs.flatten).2 = none → clean bs = goodPrefix bs.flatten) := by
  induction bs with
  | nil => simp [clean, goodPrefix]
  | cons batch bs ih =>
    rw [clean, List.flatten_cons, goodPrefix_append]
    cases goodPrefix batch with
    | mk envelopes err =>
      cases err with
      | some e => simp
      | none =>
        obtain ⟨hpre, herr, hall⟩ := ih
        refine ⟨(List.prefix_append_right_inj envelopes).mpr hpre, herr, ?_⟩
        intro hnone
        simp only [hall hnone]

section Stream

variable (w : WireCodec) (max : ℕ)

def resultsOf (bytes : List UInt8) : List FrameResult := (parseFrames w.envelope max bytes).1

theorem batches_flatten_eq (chunks : List (List UInt8)) :
    (batches (StreamFrameDecoder.push w.envelope) (.new max) chunks).flatten =
      resultsOf w max chunks.flatten := by
  rw [batches_flatten, StreamFrameDecoder.feed_new]
  rfl

theorem feed_hasPending (chunks : List (List UInt8)) :
    (feed (StreamFrameDecoder.push w.envelope) (.new max) chunks).2.hasPending = true ↔
      ¬ WholeFrames chunks.flatten := by
  rw [wholeFrames_iff w.envelope max, StreamFrameDecoder.feed_new, ← Bool.not_eq_false,
    StreamFrameDecoder.hasPending_eq_false_iff]

theorem goodPrefix_ok (envelopes : List OtkEnvelope) :
    goodPrefix (envelopes.map .ok) = (envelopes, none) := by
  induction envelopes with
  | nil => rfl
  | cons envelope envelopes ih => simp [goodPrefix, ih]

/-- Of frames of the encoder a session reads all envelopes, to a frame boundary. -/
theorem clean_encoded (hw : w.envelope.Inverts) {envelopes : List OtkEnvelope}
    {frames chunks : List (List UInt8)}
    (hframes : List.Forall₂ (fun e f => encodeStream w.envelope e max = .ok f) envelopes frames)
    (hbytes : chunks.flatten = frames.flatten) :
    clean (batches (StreamFrameDecoder.push w.envelope) (.new max) chunks) = (envelopes, none) ∧
      (feed (StreamFrameDecoder.push w.envelope) (.new max) chunks).2 = .new max := by
  have hparse := parseFrames_encoded hw max hframes []
  rw [List.append_nil, ← hbytes, parseFrames_nil, List.append_nil] at hparse
  have hgood : goodPrefix (batches (StreamFrameDecoder.push w.envelope) (.new max) chunks).flatten =
      (envelopes, none) := by
    rw [batches_flatten_eq, resultsOf, hparse, goodPrefix_ok]
  refine ⟨((clean_spec _).2.2 (by rw [hgood])).trans hgood, ?_⟩
  rw [StreamFrameDecoder.feed_new, hparse]
  rfl

end Stream

inductive IngestErrorVariant
  | connectionRefused
  | connectionReset
  | io
  | closed
  | handshake
  | decode
  deriving DecidableEq, Repr

def IngestError.variant : IngestError → IngestErrorVariant
  | connectionRefused _ => .connectionRefused
  | connectionReset => .connectionReset
  | io _ => .io
  | closed => .closed
  | handshake _ => .handshake
  | decode _ => .decode

def Transcript.outline (t : Transcript) :
    Except IngestErrorVariant Unit × List UInt8 × List IncomingEvent ×
      Option (Except IngestErrorVariant Unit) :=
  (t.handshake.mapError IngestError.variant, t.sent, t.events,
    t.ending.map fun ending => ending.mapError IngestError.variant)

section Parity

variable (w : WireCodec) (authoriser : ConnectAuthoriser) (max : ℕ) (sink : Option IoErrorKind)

/-- A session that reads `envelopes` asks for more: it has none yet, or its
handshake succeeded and nothing among the rest ends it. -/
def AsksForMore : List OtkEnvelope → Prop
  | [] => True
  | connectEnv :: rest =>
    ∃ reply processor, performServerHandshakeWithAuth w connectEnv authoriser =
        .ok (.accepted reply processor) ∧
      (∃ stream, sendEnvelope w ⟨[], sink, []⟩ reply max = (.ok (), stream)) ∧
      (deliver w processor rest).2 = none

/-- The session meets the end of the stream inside a frame. -/
def CutOff (bytes : List UInt8) : Prop :=
  ¬ WholeFrames bytes ∧ (goodPrefix (resultsOf w max bytes)).2 = none ∧
    AsksForMore w authoriser max sink (goodPrefix (resultsOf w max bytes)).1

theorem sendEnvelope_ok_iff (sent : List UInt8) (reply : OtkEnvelope) :
    (∃ stream, sendEnvelope w ⟨[], sink, sent⟩ reply max = (.ok (), stream)) ↔
      ∃ stream, sendEnvelope w ⟨[], sink, []⟩ reply max = (.ok (), stream) := by
  unfold sendEnvelope
  cases encodeStream w.envelope reply max with
  | error e => simp
  | ok frame => cases sink <;> simp

/-- The two listeners agree on the transcript of what was read exactly when the
end of the stream is not reached, or is reached between two frames. -/
theorem transcriptOf_outline_eq_iff (sent : List UInt8) (final : StreamFrameDecoder)
    (envelopes : List OtkEnvelope) (err : Option FrameError) :
    (transcriptOf tcp w sink sent max authoriser final envelopes err).outline =
        (transcriptOf unixSocket w sink sent max authoriser final envelopes err).outline ↔
      ¬ (final.hasPending = true ∧ err = none ∧ AsksForMore w authoriser max sink envelopes) := by
  cases envelopes with
  | nil =>
    cases err with
    | some e => simp [transcriptOf, failureOf]
    | none =>
      cases hp : final.hasPending <;>
        simp [transcriptOf, failureOf, tcp, unixSocket, hp, AsksForMore, Transcript.outline,
          IngestError.variant, Except.mapError]
  | cons connectEnv rest =>
    have hsend := sendEnvelope_ok_iff w max sink sent
    simp only [transcriptOf, AsksForMore]
    cases performServerHandshakeWithAuth w connectEnv authoriser with
    | error e => simp
    | ok outcome =>
      cases outcome with
      | rejected reply reason => simp
      | accepted reply processor =>
        simp only [Except.ok.injEq, HandshakeOutcome.accepted.injEq]
        have hsend := hsend reply
        cases hs : sendEnvelope w ⟨[], sink, sent⟩ reply max with
        | mk result stream =>
          cases result with
          | error e =>
            simp only [hs, Prod.mk.injEq, reduceCtorEq, false_and, exists_false, false_iff] at hsend
            simp only [true_iff]
            rintro ⟨-, -, reply', processor', ⟨rfl, rfl⟩, hok, -⟩
            exact hsend hok
          | ok _ =>
            have hok := hsend.mp ⟨stream, hs⟩
            cases hd : deliver w processor rest with
            | mk events ending =>
              cases ending with
              | some ending =>
                simp only [true_iff]
                rintro ⟨-, -, reply', processor', ⟨rfl, rfl⟩, -, hnone⟩
                simp [hd] at hnone
              | none =>
                cases err with
                | some e => simp [endingOf]
                | none =>
                  have hmore : ∃ reply' processor', (reply = reply' ∧ processor = processor') ∧
                      (∃ stream, sendEnvelope w ⟨[], sink, []⟩ reply' max = (.ok (), stream)) ∧
                      (deliver w processor' rest).2 = none :=
                    ⟨reply, processor, ⟨rfl, rfl⟩, hok, by rw [hd]⟩
                  simp only [hmore, and_true]
                  cases hp : final.hasPending <;>
                    simp [endingOf, tcp, unixSocket, hp, Transcript.outline, Except.mapError]

/-- Over every stream, however it is read, the two listeners give the same
handshake outcome, reply, events and ending exactly when the stream is not cut
off inside a frame that the session is waiting for. -/
theorem listeners_agree_iff (peerAddr : String) (chunks : List (List UInt8))
    (hchunks : ∀ chunk ∈ chunks, 1 ≤ chunk.length ∧ chunk.length ≤ 4096) :
    (transcript tcp w ⟨chunks.map .ok, sink, []⟩ peerAddr max authoriser).outline =
        (transcript unixSocket w ⟨chunks.map .ok, sink, []⟩ peerAddr max authoriser).outline ↔
      ¬ CutOff w authoriser max sink chunks.flatten := by
  have hne : ∀ chunk ∈ chunks, chunk ≠ [] :=
    fun chunk hc => List.ne_nil_of_length_pos (hchunks chunk hc).1
  obtain ⟨-, herr, hall⟩ := clean_spec
    (batches (StreamFrameDecoder.push w.envelope) (.new max) chunks)
  rw [batches_flatten_eq] at herr hall
  rw [transcript_chunks tcp w chunks hne, transcript_chunks unixSocket w chunks hne,
    transcriptOf_outline_eq_iff, feed_hasPending, herr, CutOff]
  by_cases hnone : (goodPrefix (resultsOf w max chunks.flatten)).2 = none
  · rw [hall hnone]
  · simp only [hnone, false_and, and_false]

/-- The encodings at a `Disconnect` only. -/
def disconnectWire : WireCodec :=
  ⟨disconnectCodec, .ofTable [], .ofTable [], .ofTable [], .ofTable [], .ofTable []⟩

/-- A stream of one whole frame. -/
theorem listeners_agree_at_boundary :
    (transcript tcp disconnectWire
        ⟨[[0, 0, 0, 7, 0x83, 0x00, 0x82], [0x06, 0x80, 0x61, 0x70]].map .ok, none, []⟩ "peer" 65535
        fun _ _ => .ok ()).outline =
      (transcript unixSocket disconnectWire
        ⟨[[0, 0, 0, 7, 0x83, 0x00, 0x82], [0x06, 0x80, 0x61, 0x70]].map .ok, none, []⟩ "peer" 65535
        fun _ _ => .ok ()).outline := by
  refine (listeners_agree_iff disconnectWire (fun _ _ => .ok ()) 65535 none "peer" _
    (by decide)).mpr ?_
  rintro ⟨hcut, -⟩
  apply hcut
  have hwhole : WholeFrames ([0, 0, 0, 7] ++ [0x83, 0x00, 0x82, 0x06, 0x80, 0x61, 0x70] ++ []) :=
    .frame rfl rfl .nil
  exact hwhole

/-- The peer sends one byte of a header and closes: the TCP listener reports a
decode error, the Unix socket listener a failed handshake. -/
theorem listeners_differ_on_cut_header :
    (transcript tcp disconnectWire ⟨[[0]].map .ok, none, []⟩ "peer" 65535
        fun _ _ => .ok ()).outline ≠
      (transcript unixSocket disconnectWire ⟨[[0]].map .ok, none, []⟩ "peer" 65535
        fun _ _ => .ok ()).outline := by
  have hne : ∀ chunk ∈ [[(0 : UInt8)]], chunk ≠ [] := by simp
  have hfeed : feed (StreamFrameDecoder.push disconnectWire.envelope) (.new 65535) [[0]] =
      ([], ⟨[0], 65535, 0⟩) := by
    rw [StreamFrameDecoder.feed_new, List.flatten_singleton, parseFrames_short _ _ (by simp)]
  have hclean : clean (batches (StreamFrameDecoder.push disconnectWire.envelope) (.new 65535)
      [[0]]) = ([], none) := by
    have hall := (clean_spec (batches (StreamFrameDecoder.push disconnectWire.envelope)
      (.new 65535) [[0]])).2.2
    rw [batches_flatten, hfeed] at hall
    exact hall rfl
  rw [transcript_chunks tcp _ _ hne, transcript_chunks unixSocket _ _ hne, hclean, hfeed]
  decide

end Parity

end OtkCore.Ingest
