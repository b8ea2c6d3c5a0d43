import OtkCore.FrameCodec.Stream
import OtkCore.Ingest.Protocol
import OtkCore.Lib.Disk

/-!
# Ingest sessions

The two byte-stream listeners share their session code up to what they make of
the end of the stream (`Listener`). A stream is the list of its coming read
results; when it is exhausted every read returns zero bytes. A session is
summed up by its transcript, which depends on the reads only through the frames
decoded from them.
-/
namespace OtkCore.Ingest

open FrameCodec Decoding FileIO

inductive IngestError
  | connectionRefused (text : String)
  | connectionReset
  | io (kind : IoErrorKind)
  | closed
  | handshake (text : String)
  | decode (text : String)
  deriving DecidableEq, Repr

structure IncomingEvent where
  event : OtkEvent
  traceparent : Option String
  deriving DecidableEq

/-- The result of one read; zero bytes announce the end of the stream. -/
abbrev Read : Type := Except IoErrorKind (List UInt8)

/-- A connected byte stream: the coming reads, the error its writes meet, and
the bytes written so far. -/
structure Stream where
  reads : List Read
  sink : Option IoErrorKind
  sent : List UInt8

def frameErrToIngest (e : FrameError) : IngestError := .decode e.toText

def handshakeErrToIngest (e : HandshakeError) : IngestError := .handshake e.toText

def protocolErrToIngest (e : ProtocolError) : IngestError := .decode e.toText

/-- What a listener makes of the end of the stream, before and after the
handshake. -/
structure Listener where
  handshakeEof : StreamFrameDecoder → IngestError
  fillEof : StreamFrameDecoder → Except IngestError Unit

/-- The TCP listener looks whether a frame was cut off. -/
def tcp : Listener where
  handshakeEof decoder :=
    if decoder.hasPending then
      .decode "truncated Connect frame: EOF mid-frame during handshake"
    else .handshake "EOF before Connect"
  fillEof decoder :=
    if decoder.hasPending then .error (.decode "truncated frame: EOF before frame completed")
    else .ok ()

def unixSocket : Listener where
  handshakeEof _ := .handshake "EOF before Connect"
  fillEof _ := .ok ()

/-- Queue decoded envelopes up to the first framing error. -/
def enqueue : List OtkEnvelope → List FrameResult → List OtkEnvelope × Option IngestError
  | pending, [] => (pending, none)
  | pending, .ok envelope :: results => enqueue (pending ++ [envelope]) results
  | pending, .error e :: _ => (pending, some (frameErrToIngest e))

structure Session where
  stream : Stream
  peerAddr : String
  producerId : String
  decoder : StreamFrameDecoder
  processor : PostHandshakeProcessor
  pending : List OtkEnvelope

section Listening

variable (l : Listener) (w : WireCodec)

/-- The read loop of the handshake: it ends with the first envelopes, of which
the first one is taken from the queue. -/
def readConnect : StreamFrameDecoder → List Read →
    Except IngestError (OtkEnvelope × List OtkEnvelope × StreamFrameDecoder × List Read)
  | decoder, [] => .error (l.handshakeEof decoder)
  | decoder, .ok [] :: _ => .error (l.handshakeEof decoder)
  | _, .error e :: _ => .error (.io e)
  | decoder, .ok (b :: bytes) :: reads =>
    let (results, decoder) := decoder.push w.envelope (b :: bytes)
    match enqueue [] results with
    | (_, some e) => .error e
    | ([], none) => readConnect decoder reads
    | (envelope :: pending, none) => .ok (envelope, pending, decoder, reads)

def sendEnvelope (stream : Stream) (envelope : OtkEnvelope) (maxFrameSize : ℕ) :
    Except IngestError Unit × Stream :=
  match encodeStream w.envelope envelope maxFrameSize with
  | .error e => (.error (frameErrToIngest e), stream)
  | .ok frame =>
    match stream.sink with
    | some e => (.error (.io e), stream)
    | none => (.ok (), { stream with sent := stream.sent ++ frame })

/-- Run the server-side handshake; also returns the stream as it was left. -/
def handshake (stream : Stream) (peerAddr : String) (maxFrameBytes : ℕ)
    (authoriser : ConnectAuthoriser) : Except IngestError Session × Stream :=
  match readConnect l w (.new maxFrameBytes) stream.reads with
  | .error e => (.error e, stream)
  | .ok (connectEnv, pending, decoder, reads) =>
    let stream := { stream with reads := reads }
    match performServerHandshakeWithAuth w connectEnv authoriser with
    | .error e => (.error (handshakeErrToIngest e), stream)
    | .ok (.accepted reply processor) =>
      match sendEnvelope w stream reply maxFrameBytes with
      | (.error e, stream) => (.error e, stream)
      | (.ok (), stream) =>
        (.ok ⟨stream, peerAddr, processor.producerId.asStr, decoder, processor, pending⟩, stream)
    | .ok (.rejected reply reason) =>
      (.error (.handshake ("rejected: " ++ reason.debug)),
        (sendEnvelope w stream reply maxFrameBytes).2)

/-- The read loop of `fill_pending`. -/
def fillReads : StreamFrameDecoder → List OtkEnvelope → List Read →
    Except IngestError Bool × StreamFrameDecoder × List OtkEnvelope × List Read
  | decoder, pending, [] => ((l.fillEof decoder).map fun _ => false, decoder, pending, [])
  | decoder, pending, .ok [] :: reads =>
    ((l.fillEof decoder).map fun _ => false, decoder, pending, reads)
  | decoder, pending, .error e :: reads => (.error (.io e), decoder, pending, reads)
  | decoder, pending, .ok (b :: bytes) :: reads =>
    let (results, decoder) := decoder.push w.envelope (b :: bytes)
    match enqueue pending results with
    | (pending, some e) => (.error e, decoder, pending, reads)
    | ([], none) => fillReads decoder [] reads
    | (envelope :: pending, none) => (.ok true, decoder, envelope :: pending, reads)

def fillPending (s : Session) : Except IngestError Bool × Session :=
  let (result, decoder, pending, reads) := fillReads l w s.decoder s.pending s.stream.reads
  (result, { s with decoder, pending, stream := { s.stream with reads := reads } })

theorem fillReads_reads_length (decoder : StreamFrameDecoder) (pending : List OtkEnvelope)
    (reads : List Read) :
    (fillReads l w decoder pending reads).2.2.2.length ≤ reads.length ∧
      (reads ≠ [] → (fillReads l w decoder pending reads).2.2.2.length < reads.length) := by
  induction reads generalizing decoder pending with
  | nil => simp [fillReads]
  | cons read reads ih =>
    match read with
    | .error e => simp [fillReads]
    | .ok [] => simp [fillReads]
    | .ok (b :: bytes) =>
      simp only [fillReads]
      split
      · simp
      · have := (ih (decoder.push w.envelope (b :: bytes)).2 []).1
        simp only [List.length_cons, ne_eq, reduceCtorEq, not_false_eq_true, forall_const]
        omega
      · simp

theorem fillReads_true {decoder : StreamFrameDecoder} {pending : List OtkEnvelope}
    {reads : List Read} (h : (fillReads l w decoder pending reads).1 = .ok true) :
    (fillReads l w decoder pending reads).2.2.1 ≠ [] ∧ reads ≠ [] := by
  have heof : ∀ d, (l.fillEof d).map (fun _ => false) ≠ .ok true := by
    intro d
    cases l.fillEof d <;> simp [Except.map]
  induction reads generalizing decoder pending with
  | nil => exact absurd h (heof decoder)
  | cons read reads ih =>
    match read with
    | .error e => simp [fillReads] at h
    | .ok [] => exact absurd h (heof decoder)
    | .ok (b :: bytes) =>
      refine ⟨?_, by simp⟩
      simp only [fillReads] at h ⊢
      split at h
      · simp at h
      · exact (ih h).1
      · simp

/-- How a session ends: with `Ok(None)` or with an error. -/
abbrev Ending : Type := Except IngestError Unit

/-- The first step of `next_event`: refill an empty queue and take an envelope,
unless the session has ended. -/
def takeEnvelope (s : Session) : Except Ending OtkEnvelope × Session :=
  match s.pending with
  | envelope :: pending => (.ok envelope, { s with pending })
  | [] =>
    match fillPending l w s with
    | (.error e, s) => (.error (.error e), s)
    | (.ok false, s) => (.error (.ok ()), s)
    | (.ok true, s) =>
      match s.pending with
      | envelope :: pending => (.ok envelope, { s with pending })
      | [] => (.error (.ok ()), s) -- the queue is not empty here

theorem takeEnvelope_lt {s s' : Session} {envelope : OtkEnvelope}
    (h : takeEnvelope l w s = (.ok envelope, s')) :
    s'.stream.reads.length < s.stream.reads.length ∨
      (s'.stream.reads = s.stream.reads ∧ s'.pending.length < s.pending.length) := by
  unfold takeEnvelope at h
  split at h
  · rename_i pending heq
    simp only [Prod.mk.injEq, Except.ok.injEq] at h
    exact Or.inr ⟨by rw [← h.2], by rw [← h.2, heq]; simp⟩
  · split at h
    · simp at h
    · simp at h
    · rename_i s₁ hfill
      split at h
      · simp only [Prod.mk.injEq, Except.ok.injEq] at h
        left
        have hreads : s'.stream.reads = s₁.stream.reads := by rw [← h.2]
        have htrue : (fillReads l w s.decoder s.pending s.stream.reads).1 = .ok true :=
          congrArg Prod.fst hfill
        have hs₁ : s₁.stream.reads = (fillReads l w s.decoder s.pending s.stream.reads).2.2.2 :=
          (congrArg (fun p => p.2.stream.reads) hfill).symm
        rw [hreads, hs₁]
        exact (fillReads_reads_length l w _ _ _).2 (fillReads_true l w htrue).2
      · simp at h

def nextEvent (s : Session) : Except IngestError (Option IncomingEvent) × Session :=
  match _h : takeEnvelope l w s with
  | (.error ending, s) => (ending.map fun _ => none, s)
  | (.ok envelope, s') =>
    match s'.processor.process w envelope with
    | .error e => (.error (protocolErrToIngest e), s')
    | .ok (.event event traceparent) => (.ok (some ⟨event, traceparent⟩), s')
    | .ok .heartbeat => nextEvent s'
    | .ok .disconnect => (.ok none, s')
termination_by (s.stream.reads.length, s.pending.length)
decreasing_by
  rcases takeEnvelope_lt l w _h with hlt | ⟨heq, hlt⟩
  · exact Prod.Lex.left _ _ hlt
  · rw [heq]
    exact Prod.Lex.right _ hlt

theorem nextEvent_of_error {s s' : Session} {ending : Ending}
    (h : takeEnvelope l w s = (.error ending, s')) :
    nextEvent l w s = (ending.map fun _ => none, s') := by
  rw [nextEvent]
  split
  · rename_i heq
    rw [h] at heq
    simp only [Prod.mk.injEq, Except.error.injEq] at heq
    rw [heq.1, heq.2]
  · rename_i heq
    rw [h] at heq
    simp at heq

theorem nextEvent_of_ok {s s' : Session} {envelope : OtkEnvelope}
    (h : takeEnvelope l w s = (.ok envelope, s')) :
    nextEvent l w s =
      match s'.processor.process w envelope with
      | .error e => (.error (protocolErrToIngest e), s')
      | .ok (.event event traceparent) => (.ok (some ⟨event, traceparent⟩), s')
      | .ok .heartbeat => nextEvent l w s'
      | .ok .disconnect => (.ok none, s') := by
  rw [nextEvent]
  split
  · rename_i heq
    rw [h] at heq
    simp at heq
  · rename_i heq
    rw [h] at heq
    simp only [Prod.mk.injEq, Except.ok.injEq] at heq
    rw [heq.1, heq.2]

theorem nextEvent_lt {s s' : Session} {e : IncomingEvent}
    (h : nextEvent l w s = (.ok (some e), s')) :
    s'.stream.reads.length < s.stream.reads.length ∨
      (s'.stream.reads = s.stream.reads ∧ s'.pending.length < s.pending.length) := by
  fun_induction nextEvent l w s with
  | case1 s ending s₁ htake => cases ending <;> simp [Except.map] at h
  | case2 s envelope s₁ htake e hproc => simp at h
  | case3 s envelope s₁ htake ev tp hproc =>
    simp only [Prod.mk.injEq] at h
    rw [← h.2]
    exact takeEnvelope_lt l w htake
  | case4 s envelope s₁ htake hproc ih =>
    have h1 := takeEnvelope_lt l w htake
    have h2 := ih h
    rcases h1 with h1 | ⟨h1, h1'⟩ <;> rcases h2 with h2 | ⟨h2, h2'⟩
    · exact Or.inl (h2.trans h1)
    · exact Or.inl (h2 ▸ h1)
    · exact Or.inl (h1 ▸ h2)
    · exact Or.inr ⟨h2.trans h1, h2'.trans h1'⟩
  | case5 s envelope s₁ htake hproc => simp at h

/-- The events of successive `next_event` calls, and how the session ends. -/
def drain (s : Session) : List IncomingEvent × Ending :=
  match _h : nextEvent l w s with
  | (.error e, _) => ([], .error e)
  | (.ok none, _) => ([], .ok ())
  | (.ok (some event), s') => (event :: (drain s').1, (drain s').2)
termination_by (s.stream.reads.length, s.pending.length)
decreasing_by
  all_goals
    rcases nextEvent_lt l w _h with hlt | ⟨heq, hlt⟩
    · exact Prod.Lex.left _ _ hlt
    · rw [heq]
      exact Prod.Lex.right _ hlt

/-- The events of a queue, and how the session ends inside it, if it does. -/
def deliver (p : PostHandshakeProcessor) : List OtkEnvelope → List IncomingEvent × Option Ending
  | [] => ([], none)
  | envelope :: pending =>
    match p.process w envelope with
    | .error e => ([], some (.error (protocolErrToIngest e)))
    | .ok (.event event traceparent) =>
      (⟨event, traceparent⟩ :: (deliver p pending).1, (deliver p pending).2)
    | .ok .heartbeat => deliver p pending
    | .ok .disconnect => ([], some (.ok ()))

theorem drain_eq (s : Session) :
    drain l w s =
      match nextEvent l w s with
      | (.error e, _) => ([], .error e)
      | (.ok none, _) => ([], .ok ())
      | (.ok (some event), s') => (event :: (drain l w s').1, (drain l w s').2) := by
  rw [drain]
  split <;> rename_i heq <;> rw [heq]

/-- The session with its decoder, queue and coming reads replaced. -/
def Session.move (s : Session) (decoder : StreamFrameDecoder) (pending : List OtkEnvelope)
    (reads : List Read) : Session :=
  { s with decoder, pending, stream := { s.stream with reads := reads } }

theorem drain_queue (s : Session) (decoder : StreamFrameDecoder) (pending : List OtkEnvelope)
    (reads : List Read) :
    drain l w (s.move decoder pending reads) =
      match deliver w s.processor pending with
      | (events, some ending) => (events, ending)
      | (events, none) =>
        (events ++ (drain l w (s.move decoder [] reads)).1,
          (drain l w (s.move decoder [] reads)).2) := by
  induction pending with
  | nil => simp [deliver]
  | cons envelope pending ih =>
    have htake : takeEnvelope l w (s.move decoder (envelope :: pending) reads) =
        (.ok envelope, s.move decoder pending reads) := rfl
    have hproc : (s.move decoder pending reads).processor = s.processor := rfl
    rw [drain_eq, nextEvent_of_ok l w htake, deliver, hproc]
    cases hp : s.processor.process w envelope with
    | error e => rfl
    | ok action =>
      cases action with
      | event ev tp =>
        simp only
        rw [ih]
        cases deliver w s.processor pending with
        | mk events ending => cases ending <;> rfl
      | heartbeat =>
        simp only
        rw [← drain_eq, ih]
      | disconnect => rfl

theorem deliver_append (p : PostHandshakeProcessor) (envelopes envelopes' : List OtkEnvelope) :
    deliver w p (envelopes ++ envelopes') =
      match deliver w p envelopes with
      | (events, some ending) => (events, some ending)
      | (events, none) =>
        (events ++ (deliver w p envelopes').1, (deliver w p envelopes').2) := by
  induction envelopes with
  | nil => simp [deliver]
  | cons envelope envelopes ih =>
    rw [List.cons_append, deliver, deliver]
    cases p.process w envelope with
    | error e => rfl
    | ok action =>
      cases action with
      | event ev tp =>
        simp only [ih]
        cases deliver w p envelopes with
        | mk events ending => cases ending <;> rfl
      | heartbeat => exact ih
      | disconnect => rfl

/-- The envelopes in front of the first framing error, and that error. -/
def goodPrefix : List FrameResult → List OtkEnvelope × Option FrameError
  | [] => ([], none)
  | .ok envelope :: results => (envelope :: (goodPrefix results).1, (goodPrefix results).2)
  | .error e :: _ => ([], some e)

/-- The envelopes of the reads in front of the first read with a framing error,
and that error: a bad frame costs the session the whole read it comes in. -/
def clean : List (List FrameResult) → List OtkEnvelope × Option FrameError
  | [] => ([], none)
  | batch :: batches =>
    match goodPrefix batch with
    | (_, some e) => ([], some e)
    | (envelopes, none) => (envelopes ++ (clean batches).1, (clean batches).2)

theorem enqueue_eq (pending : List OtkEnvelope) (results : List FrameResult) :
    enqueue pending results =
      (pending ++ (goodPrefix results).1, (goodPrefix results).2.map frameErrToIngest) := by
  induction results generalizing pending with
  | nil => simp [enqueue, goodPrefix]
  | cons result results ih =>
    cases result with
    | ok envelope => simp [enqueue, goodPrefix, ih]
    | error e => simp [enqueue, goodPrefix]

theorem drain_of_takeEnvelope_error {s s' : Session} {ending : Ending}
    (h : takeEnvelope l w s = (.error ending, s')) : drain l w s = ([], ending) := by
  rw [drain_eq, nextEvent_of_error l w h]
  cases ending <;> rfl

theorem drain_congr {s s' : Session} (h : takeEnvelope l w s = takeEnvelope l w s') :
    drain l w s = drain l w s' := by
  rw [drain_eq, drain_eq]
  cases hs : takeEnvelope l w s' with
  | mk result s₁ =>
    cases result with
    | error ending => rw [nextEvent_of_error l w hs, nextEvent_of_error l w (h.trans hs)]
    | ok envelope => rw [nextEvent_of_ok l w hs, nextEvent_of_ok l w (h.trans hs)]

theorem drain_read (s : Session) (decoder : StreamFrameDecoder) (b : UInt8) (bytes : List UInt8)
    (reads : List Read) :
    drain l w (s.move decoder [] (.ok (b :: bytes) :: reads)) =
      match goodPrefix (decoder.push w.envelope (b :: bytes)).1 with
      | (_, some e) => ([], .error (frameErrToIngest e))
      | (pending, none) =>
        drain l w (s.move (decoder.push w.envelope (b :: bytes)).2 pending reads) := by
  have henq := enqueue_eq [] (decoder.push w.envelope (b :: bytes)).1
  cases hg : goodPrefix (decoder.push w.envelope (b :: bytes)).1 with
  | mk pending err =>
    rw [hg, List.nil_append] at henq
    cases err with
    | some e =>
      apply drain_of_takeEnvelope_error
      simp only [takeEnvelope, Session.move, fillPending, fillReads, henq, Option.map_some]
      rfl
    | none =>
      apply drain_congr
      cases pending with
      | nil =>
        -- The loop of `fill_pending` goes on to the next read.
        simp only [takeEnvelope, Session.move, fillPending, fillReads, henq, Option.map_none]
      | cons envelope pending =>
        simp only [takeEnvelope, Session.move, fillPending, fillReads, henq, Option.map_none]

theorem drain_eof (s : Session) (decoder : StreamFrameDecoder) :
    drain l w (s.move decoder [] []) = ([], l.fillEof decoder) := by
  have htake : takeEnvelope l w (s.move decoder [] []) =
      (.error (l.fillEof decoder), s.move decoder [] []) := by
    simp only [takeEnvelope, Session.move, fillPending, fillReads]
    cases l.fillEof decoder <;> rfl
  exact drain_of_takeEnvelope_error l w htake

/-- How a session ends that has delivered all it can: with the framing error,
or with what the listener makes of the end of the stream. -/
def endingOf (decoder : StreamFrameDecoder) : Option FrameError → Ending
  | some e => .error (frameErrToIngest e)
  | none => l.fillEof decoder

/-- What a session delivers over a stream that is read in `chunks`. -/
theorem drain_chunks (s : Session) (decoder : StreamFrameDecoder) (chunks : List (List UInt8))
    (hchunks : ∀ chunk ∈ chunks, chunk ≠ []) (pending : List OtkEnvelope) :
    drain l w (s.move decoder pending (chunks.map .ok)) =
      let read := clean (batches (StreamFrameDecoder.push w.envelope) decoder chunks)
      let final := (feed (StreamFrameDecoder.push w.envelope) decoder chunks).2
      match deliver w s.processor (pending ++ read.1) with
      | (events, some ending) => (events, ending)
      | (events, none) => (events, endingOf l final read.2) := by
  induction chunks generalizing decoder pending with
  | nil =>
    rw [List.map_nil, drain_queue l w s, drain_eof l w s decoder]
    simp only [batches, clean, List.append_nil]
    cases deliver w s.processor pending with
    | mk events ending => cases ending <;> simp [endingOf]
  | cons chunk chunks ih =>
    obtain ⟨b, bytes, rfl⟩ := List.exists_cons_of_ne_nil (hchunks chunk List.mem_cons_self)
    rw [List.map_cons, drain_queue l w s, drain_read l w s decoder b bytes, batches, clean,
      feed_cons]
    cases hg : goodPrefix (decoder.push w.envelope (b :: bytes)).1 with
    | mk envelopes err =>
      cases err with
      | some e =>
        simp only [List.append_nil]
        cases deliver w s.processor pending with
        | mk events ending => cases ending <;> simp [endingOf]
      | none =>
        have hrest := ih (decoder.push w.envelope (b :: bytes)).2
          (fun c hc => hchunks c (List.mem_cons_of_mem _ hc)) envelopes
        simp only [hrest]
        rw [deliver_append w s.processor pending]
        cases deliver w s.processor pending with
        | mk events ending =>
          cases ending with
          | some ending => rfl
          | none =>
            simp only
            cases deliver w s.processor (envelopes ++ _) with
            | mk events' ending' => cases ending' <;> rfl

def failureOf (decoder : StreamFrameDecoder) : Option FrameError → IngestError
  | some e => frameErrToIngest e
  | none => l.handshakeEof decoder

/-- A session whose reads bring no envelope fails in the handshake. -/
theorem readConnect_none {decoder : StreamFrameDecoder} {chunks : List (List UInt8)}
    (hchunks : ∀ chunk ∈ chunks, chunk ≠ []) {err : Option FrameError}
    (h : clean (batches (StreamFrameDecoder.push w.envelope) decoder chunks) = ([], err)) :
    readConnect l w decoder (chunks.map .ok) =
      .error (failureOf l (feed (StreamFrameDecoder.push w.envelope) decoder chunks).2 err) := by
  induction chunks generalizing decoder with
  | nil =>
    obtain rfl : err = none := (congrArg Prod.snd h).symm
    rfl
  | cons chunk chunks ih =>
    obtain ⟨b, bytes, rfl⟩ := List.exists_cons_of_ne_nil (hchunks chunk List.mem_cons_self)
    have henq := enqueue_eq [] (decoder.push w.envelope (b :: bytes)).1
    rw [batches, clean] at h
    cases hg : goodPrefix (decoder.push w.envelope (b :: bytes)).1 with
    | mk envelopes err' =>
      rw [hg, List.nil_append] at henq
      simp only [hg] at h
      simp only [List.map_cons, readConnect, feed_cons]
      cases err' with
      | some e =>
        simp only [Prod.mk.injEq, true_and] at h
        simp only [henq, Option.map_some, ← h, failureOf]
      | none =>
        simp only [Prod.mk.injEq, List.append_eq_nil_iff] at h
        simp only [henq, h.1.1, Option.map_none]
        exact ih (fun c hc => hchunks c (List.mem_cons_of_mem _ hc)) (Prod.ext h.1.2 h.2)

/-- Otherwise the handshake takes the first envelope, and what it queues and
leaves unread is the rest. -/
theorem readConnect_some {decoder : StreamFrameDecoder} {chunks : List (List UInt8)}
    (hchunks : ∀ chunk ∈ chunks, chunk ≠ []) {err : Option FrameError} {first : OtkEnvelope}
    {rest : List OtkEnvelope}
    (h : clean (batches (StreamFrameDecoder.push w.envelope) decoder chunks) =
      (first :: rest, err)) :
    ∃ pending decoder' later, (∀ chunk ∈ later, chunk ≠ []) ∧
      readConnect l w decoder (chunks.map .ok) =
        .ok (first, pending, decoder', later.map .ok) ∧
      rest = pending ++
        (clean (batches (StreamFrameDecoder.push w.envelope) decoder' later)).1 ∧
      err = (clean (batches (StreamFrameDecoder.push w.envelope) decoder' later)).2 ∧
      (feed (StreamFrameDecoder.push w.envelope) decoder chunks).2 =
        (feed (StreamFrameDecoder.push w.envelope) decoder' later).2 := by
  induction chunks generalizing decoder with
  | nil => simp [batches, clean] at h
  | cons chunk chunks ih =>
    obtain ⟨b, bytes, rfl⟩ := List.exists_cons_of_ne_nil (hchunks chunk List.mem_cons_self)
    have hlater := fun c hc => hchunks c (List.mem_cons_of_mem (b :: bytes) hc)
    have henq := enqueue_eq [] (decoder.push w.envelope (b :: bytes)).1
    rw [batches, clean] at h
    cases hg : goodPrefix (decoder.push w.envelope (b :: bytes)).1 with
    | mk envelopes err' =>
      rw [hg, List.nil_append] at henq
      simp only [hg] at h
      simp only [List.map_cons, readConnect, feed_cons]
      cases err' with
      | some e => simp at h
      | none =>
        simp only [Prod.mk.injEq] at h
        cases envelopes with
        | nil =>
          simp only [henq, Option.map_none]
          exact ih hlater (Prod.ext h.1 h.2)
        | cons envelope pending =>
          simp only [List.cons_append, List.cons.injEq] at h
          simp only [henq, Option.map_none]
          exact ⟨pending, _, chunks, hlater, by rw [h.1.1], h.1.2.symm, h.2.symm, rfl⟩

/-- All that can be observed of a session: the handshake's outcome, the bytes
written, the events, and the ending if the handshake succeeded. -/
structure Transcript where
  handshake : Except IngestError Unit
  sent : List UInt8
  events : List IncomingEvent
  ending : Option Ending

def transcript (stream : Stream) (peerAddr : String) (maxFrameBytes : ℕ)
    (authoriser : ConnectAuthoriser) : Transcript :=
  match handshake l w stream peerAddr maxFrameBytes authoriser with
  | (.error e, stream) => ⟨.error e, stream.sent, [], none⟩
  | (.ok session, stream) =>
    ⟨.ok (), stream.sent, (drain l w session).1, some (drain l w session).2⟩

/-- The transcript of a session that reads `envelopes`, then meets `err` or the
end of the stream with the decoder in the state `final`. -/
def transcriptOf (sink : Option IoErrorKind) (sent : List UInt8) (maxFrameBytes : ℕ)
    (authoriser : ConnectAuthoriser) (final : StreamFrameDecoder) :
    List OtkEnvelope → Option FrameError → Transcript
  | [], err => ⟨.error (failureOf l final err), sent, [], none⟩
  | connectEnv :: rest, err =>
    match performServerHandshakeWithAuth w connectEnv authoriser with
    | .error e => ⟨.error (handshakeErrToIngest e), sent, [], none⟩
    | .ok (.accepted reply processor) =>
      match sendEnvelope w ⟨[], sink, sent⟩ reply maxFrameBytes with
      | (.error e, stream) => ⟨.error e, stream.sent, [], none⟩
      | (.ok (), stream) =>
        match deliver w processor rest with
        | (events, some ending) => ⟨.ok (), stream.sent, events, some ending⟩
        | (events, none) => ⟨.ok (), stream.sent, events, some (endingOf l final err)⟩
    | .ok (.rejected reply reason) =>
      ⟨.error (.handshake ("rejected: " ++ reason.debug)),
        (sendEnvelope w ⟨[], sink, sent⟩ reply maxFrameBytes).2.sent, [], none⟩

theorem sendEnvelope_reads (stream : Stream) (envelope : OtkEnvelope) (max : ℕ) :
    sendEnvelope w stream envelope max =
      ((sendEnvelope w ⟨[], stream.sink, stream.sent⟩ envelope max).1,
        { (sendEnvelope w ⟨[], stream.sink, stream.sent⟩ envelope max).2 with
          reads := stream.reads }) := by
  obtain ⟨reads, sink, sent⟩ := stream
  unfold sendEnvelope
  cases encodeStream w.envelope envelope max with
  | error e => rfl
  | ok frame => cases sink <;> rfl

theorem transcript_chunks (chunks : List (List UInt8)) (hchunks : ∀ chunk ∈ chunks, chunk ≠ [])
    (sink : Option IoErrorKind) (sent : List UInt8) (peerAddr : String) (maxFrameBytes : ℕ)
    (authoriser : ConnectAuthoriser) :
    transcript l w ⟨chunks.map .ok, sink, sent⟩ peerAddr maxFrameBytes authoriser =
      transcriptOf l w sink sent maxFrameBytes authoriser
        (feed (StreamFrameDecoder.push w.envelope) (.new maxFrameBytes) chunks).2
        (clean (batches (StreamFrameDecoder.push w.envelope) (.new maxFrameBytes) chunks)).1
        (clean (batches (StreamFrameDecoder.push w.envelope) (.new maxFrameBytes) chunks)).2 := by
  cases hclean : clean (batches (StreamFrameDecoder.push w.envelope) (.new maxFrameBytes)
      chunks) with
  | mk envelopes err =>
    cases envelopes with
    | nil =>
      rw [transcript, handshake, readConnect_none l w hchunks hclean]
      rfl
    | cons connectEnv rest =>
      obtain ⟨pending, decoder, later, hlater, hread, hrest, herr, hfinal⟩ :=
        readConnect_some l w hchunks hclean
      simp only [transcript, handshake, hread, transcriptOf]
      cases performServerHandshakeWithAuth w connectEnv authoriser with
      | error e => rfl
      | ok outcome =>
        cases outcome with
        | rejected reply reason =>
          simp only
          rw [sendEnvelope_reads]
        | accepted reply processor =>
          simp only
          rw [sendEnvelope_reads]
          simp only
          cases hsend : sendEnvelope w ⟨[], sink, sent⟩ reply maxFrameBytes with
          | mk result stream =>
            cases result with
            | error e => rfl
            | ok _ =>
              have hdrain := drain_chunks l w ⟨{ stream with reads := later.map .ok }, peerAddr,
                processor.producerId.asStr, decoder, processor, pending⟩ decoder later hlater
                pending
              simp only [Session.move, ← hrest, ← herr, ← hfinal] at hdrain
              simp only [hdrain]
              cases deliver w processor rest with
              | mk events ending => cases ending <;> rfl

end Listening

/-- The producer `p` without a token and the ack it gets, with their encodings. -/
def sampleConnect : Connect := ⟨0, 0, [], none⟩

def sampleHealth : OtkEvent := .detectorHealth ⟨⟨"d"⟩, 0, .healthy, none⟩

def healthBytes : List UInt8 := [0x82, 0x01, 0x81, 0x83, 0x61, 0x64, 0x00, 0x82, 0x00, 0x80]

def connectBytes : List UInt8 := [0x83, 0x00, 0x00, 0x80]

def ackBytes : List UInt8 := [0x81, 0x00]

def connectEnvelope : OtkEnvelope :=
  ⟨0, .connect, ⟨"p"⟩, none, none, none, some connectBytes, none⟩

def ackEnvelope : OtkEnvelope := serverEnvelope .connectAck (some ackBytes) 0 none

def healthEnvelope : OtkEnvelope :=
  ⟨0, .event, ⟨"p"⟩, none, some 0, none, some healthBytes, none⟩

def connectEnvelopeBytes : List UInt8 :=
  [0x87, 0x00, 0x82, 0x01, 0x80, 0x61, 0x70, 0xf6, 0xf6, 0xf6, 0x84, 0x18, 0x83, 0x00, 0x00, 0x18,
  0x80]

def ackEnvelopeBytes : List UInt8 :=
  [0x87, 0x00, 0x82, 0x02, 0x80, 0x66, 0x73, 0x65, 0x72, 0x76, 0x65, 0x72, 0xf6, 0xf6, 0xf6, 0x82,
  0x18, 0x81, 0x00]

def healthEnvelopeBytes : List UInt8 :=
  [0x87, 0x00, 0x82, 0x00, 0x80, 0x61, 0x70, 0xf6, 0x00, 0xf6, 0x8a, 0x18, 0x82, 0x01, 0x18, 0x81,
  0x18, 0x83, 0x18, 0x61, 0x18, 0x64, 0x00, 0x18, 0x82, 0x00, 0x18, 0x80]

def disconnectEnvelopeBytes : List UInt8 := [0x83, 0x00, 0x82, 0x06, 0x80, 0x61, 0x70]

def sampleWire : WireCodec where
  envelope := .ofTable [(connectEnvelope, connectEnvelopeBytes), (ackEnvelope, ackEnvelopeBytes),
    (healthEnvelope, healthEnvelopeBytes), (disconnectEnvelope, disconnectEnvelopeBytes)]
  event := .ofTable [(sampleHealth, healthBytes)]
  connect := .ofTable [(sampleConnect, connectBytes)]
  connectAck := .ofTable [(⟨0⟩, ackBytes)]
  connectReject := .ofTable []
  heartbeat := .ofTable []

end OtkCore.Ingest
