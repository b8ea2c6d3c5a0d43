import OtkCore.Ingest.Producer

/-!
# The accept loop

`run_listener` waits for whatever comes first: the next session from `accept`,
the end of a session task, or shutdown. What did not come first is dropped. The
future of `accept` holds the socket it has taken for as long as its handshake
lasts, so reaping a task in between closes that connection. One step of the
machine is one thing that can happen; steps that cannot happen in a state leave
it as it is.
-/
namespace OtkCore.Ingest

open FrameCodec FileIO

/-- What happens on a connection during its handshake. -/
inductive ConnectionEvent
  | tls (failure : Option String)
  | read (r : Read)
  | written (r : Except IoErrorKind Unit)
  | timeout
  deriving DecidableEq

/-- What a handshake hands over to the session, but for the stream. -/
structure Established where
  peerAddr : String
  producerId : String
  decoder : StreamFrameDecoder
  processor : PostHandshakeProcessor
  pending : List OtkEnvelope

/-- Where the future of `accept` waits with a socket: for the TLS handshake, for
the Connect envelope, or for its reply to be written. -/
inductive Stage
  | tls
  | reading (decoder : StreamFrameDecoder)
  | replying (outcome : Except IngestError Established)

abbrev Handshake : Type := Stage ⊕ Except IngestError Established

def Session.established (s : Session) : Established :=
  ⟨s.peerAddr, s.producerId, s.decoder, s.processor, s.pending⟩

/-- What the listener is configured with: its codec, whether it wraps the stream
in TLS, the frame limit and the authoriser. -/
structure PortConfig where
  wire : WireCodec
  tls : Bool
  maxFrameBytes : ℕ
  authoriser : ConnectAuthoriser

section Port

variable (cfg : PortConfig)

/-- The read loop of the handshake after one read. -/
def connectStep (decoder : StreamFrameDecoder) : Read →
    StreamFrameDecoder ⊕ Except IngestError (OtkEnvelope × List OtkEnvelope × StreamFrameDecoder)
  | .ok [] => .inr (.error (tcp.handshakeEof decoder))
  | .error e => .inr (.error (.io e))
  | .ok (b :: bytes) =>
    let (results, decoder) := decoder.push cfg.wire.envelope (b :: bytes)
    match enqueue [] results with
    | (_, some e) => .inr (.error e)
    | ([], none) => .inl decoder
    | (envelope :: pending, none) => .inr (.ok (envelope, pending, decoder))

/-- The handshake once it has its Connect envelope. -/
def answerConnect (peerAddr : String) (connectEnv : OtkEnvelope) (pending : List OtkEnvelope)
    (decoder : StreamFrameDecoder) : Handshake :=
  match performServerHandshakeWithAuth cfg.wire connectEnv cfg.authoriser with
  | .error e => .inr (.error (handshakeErrToIngest e))
  | .ok (.accepted reply processor) =>
    match encodeStream cfg.wire.envelope reply cfg.maxFrameBytes with
    | .error e => .inr (.error (frameErrToIngest e))
    | .ok _ =>
      .inl (.replying (.ok ⟨peerAddr, processor.producerId.asStr, decoder, processor, pending⟩))
  | .ok (.rejected reply reason) =>
    let rejected := IngestError.handshake ("rejected: " ++ reason.debug)
    match encodeStream cfg.wire.envelope reply cfg.maxFrameBytes with
    | .error _ => .inr (.error rejected)
    | .ok _ => .inl (.replying (.error rejected))

/-- Where `accept` waits first with a socket. -/
def firstStage : Stage := if cfg.tls then .tls else .reading (.new cfg.maxFrameBytes)

def Stage.advance (peerAddr : String) : Stage → ConnectionEvent → Handshake
  | .tls, .tls none => .inl (.reading (.new cfg.maxFrameBytes))
  | .tls, .tls (some text) => .inr (.error (.handshake ("TLS handshake failed: " ++ text)))
  | .tls, .timeout => .inr (.error (.handshake "TLS handshake timed out"))
  | .reading decoder, .read r =>
    match connectStep cfg decoder r with
    | .inl decoder => .inl (.reading decoder)
    | .inr (.error e) => .inr (.error e)
    | .inr (.ok (connectEnv, pending, decoder)) =>
      answerConnect cfg peerAddr connectEnv pending decoder
  | .replying (.ok established), .written (.ok _) => .inr (.ok established)
  | .replying (.ok _), .written (.error k) => .inr (.error (.io k))
  | .replying (.error e), .written _ => .inr (.error e)
  | .reading _, .timeout => .inr (.error (.handshake "handshake timed out"))
  | .replying _, .timeout => .inr (.error (.handshake "handshake timed out"))
  | stage, _ => .inl stage

/-- A handshake after one more event; an ended one stays as it is. -/
def proceed (peerAddr : String) : Handshake → ConnectionEvent → Handshake
  | .inl stage, x => stage.advance cfg peerAddr x
  | .inr result, _ => .inr result

/-- The handshake of a connection on which some events have happened. -/
def handshakeOf (peerAddr : String) (seen : List ConnectionEvent) : Handshake :=
  seen.foldl (proceed cfg peerAddr) (.inl (firstStage cfg))

theorem handshakeOf_concat {peerAddr : String} {seen : List ConnectionEvent} {stage : Stage}
    (h : handshakeOf cfg peerAddr seen = .inl stage) (x : ConnectionEvent) :
    handshakeOf cfg peerAddr (seen ++ [x]) = stage.advance cfg peerAddr x := by
  rw [handshakeOf] at h ⊢
  rw [List.foldl_append, h]
  rfl

theorem foldl_proceed_inr (peerAddr : String) (result : Except IngestError Established)
    (xs : List ConnectionEvent) :
    xs.foldl (proceed cfg peerAddr) (.inr result) = .inr result := by
  induction xs with
  | nil => rfl
  | cons x xs ih => exact ih

theorem foldl_proceed_replying (peerAddr : String) (outcome : Except IngestError Established)
    (reads : List Read) :
    (reads.map ConnectionEvent.read).foldl (proceed cfg peerAddr) (.inl (.replying outcome)) =
      .inl (.replying outcome) := by
  induction reads with
  | nil => rfl
  | cons r reads ih => cases outcome <;> exact ih

theorem advance_timeout (peerAddr : String) (stage : Stage) :
    ∃ e, stage.advance cfg peerAddr .timeout = .inr (.error e) := by
  cases stage with
  | tls => exact ⟨_, rfl⟩
  | reading decoder => exact ⟨_, rfl⟩
  | replying outcome => cases outcome <;> exact ⟨_, rfl⟩

theorem readConnect_cons (decoder : StreamFrameDecoder) (r : Read) (reads : List Read) :
    (∀ decoder', connectStep cfg decoder r = .inl decoder' →
      readConnect tcp cfg.wire decoder (r :: reads) = readConnect tcp cfg.wire decoder' reads) ∧
    (∀ e, connectStep cfg decoder r = .inr (.error e) →
      readConnect tcp cfg.wire decoder (r :: reads) = .error e) ∧
    ∀ connectEnv pending decoder', connectStep cfg decoder r =
        .inr (.ok (connectEnv, pending, decoder')) →
      readConnect tcp cfg.wire decoder (r :: reads) =
        .ok (connectEnv, pending, decoder', reads) := by
  cases r with
  | error e => simp [readConnect, connectStep]
  | ok bytes =>
    cases bytes with
    | nil => simp [readConnect, connectStep]
    | cons b bytes =>
      simp only [readConnect, connectStep]
      cases enqueue [] (decoder.push cfg.wire.envelope (b :: bytes)).1 with
      | mk pending err =>
        cases err with
        | some e => simp
        | none => cases pending <;> simp

def writtenOn : Option IoErrorKind → Except IoErrorKind Unit
  | some k => .error k
  | none => .ok ()

/-- Some reads, the end of the stream, and the write of the reply. -/
def uninterrupted (reads : List Read) (sink : Option IoErrorKind) : List ConnectionEvent :=
  reads.map .read ++ [.read (.ok []), .written (writtenOn sink)]

/-- `handshake` after its reads. -/
def answerOn (stream : Stream) (peerAddr : String) (connectEnv : OtkEnvelope)
    (pending : List OtkEnvelope) (decoder : StreamFrameDecoder) :
    Except IngestError Session × Stream :=
  match performServerHandshakeWithAuth cfg.wire connectEnv cfg.authoriser with
  | .error e => (.error (handshakeErrToIngest e), stream)
  | .ok (.accepted reply processor) =>
    match sendEnvelope cfg.wire stream reply cfg.maxFrameBytes with
    | (.error e, stream) => (.error e, stream)
    | (.ok (), stream) =>
      (.ok ⟨stream, peerAddr, processor.producerId.asStr, decoder, processor, pending⟩, stream)
  | .ok (.rejected reply reason) =>
    (.error (.handshake ("rejected: " ++ reason.debug)),
      (sendEnvelope cfg.wire stream reply cfg.maxFrameBytes).2)

theorem handshake_eq (stream : Stream) (peerAddr : String) :
    (∀ e, readConnect tcp cfg.wire (.new cfg.maxFrameBytes) stream.reads = .error e →
      handshake tcp cfg.wire stream peerAddr cfg.maxFrameBytes cfg.authoriser =
        (.error e, stream)) ∧
    ∀ connectEnv pending decoder reads,
      readConnect tcp cfg.wire (.new cfg.maxFrameBytes) stream.reads =
        .ok (connectEnv, pending, decoder, reads) →
      handshake tcp cfg.wire stream peerAddr cfg.maxFrameBytes cfg.authoriser =
        answerOn cfg { stream with reads := reads } peerAddr connectEnv pending decoder := by
  constructor
  · intro e h
    simp [handshake, h]
  · intro connectEnv pending decoder reads h
    simp only [handshake, h]
    rfl

/-- Whatever comes besides, the reply is written and the handshake ends. -/
theorem foldl_answerConnect (peerAddr : String) (connectEnv : OtkEnvelope)
    (pending : List OtkEnvelope) (decoder : StreamFrameDecoder) (reads : List Read)
    (stream : Stream) :
    (reads.map ConnectionEvent.read ++ [ConnectionEvent.written (writtenOn stream.sink)]).foldl
        (proceed cfg peerAddr) (answerConnect cfg peerAddr connectEnv pending decoder) =
      .inr ((answerOn cfg stream peerAddr connectEnv pending decoder).1.map
        Session.established) := by
  unfold answerConnect answerOn
  cases performServerHandshakeWithAuth cfg.wire connectEnv cfg.authoriser with
  | error e => exact foldl_proceed_inr cfg peerAddr _ _
  | ok outcome =>
    cases outcome with
    | accepted reply processor =>
      simp only [sendEnvelope]
      cases encodeStream cfg.wire.envelope reply cfg.maxFrameBytes with
      | error e => exact foldl_proceed_inr cfg peerAddr _ _
      | ok frame =>
        dsimp only
        rw [List.foldl_append, foldl_proceed_replying]
        cases stream.sink <;> rfl
    | rejected reply reason =>
      dsimp only
      cases encodeStream cfg.wire.envelope reply cfg.maxFrameBytes with
      | error e => exact foldl_proceed_inr cfg peerAddr _ _
      | ok frame =>
        dsimp only
        rw [List.foldl_append, foldl_proceed_replying]
        cases stream.sink <;> rfl

/-- The reads of a handshake, up to the end of the stream, and its write. -/
theorem foldl_reads (peerAddr : String) (sink : Option IoErrorKind) (reads : List Read)
    (decoder : StreamFrameDecoder) :
    (∀ e, readConnect tcp cfg.wire decoder reads = .error e →
      (uninterrupted reads sink).foldl (proceed cfg peerAddr) (.inl (.reading decoder)) =
        .inr (.error e)) ∧
    ∀ connectEnv pending decoder' later,
      readConnect tcp cfg.wire decoder reads = .ok (connectEnv, pending, decoder', later) →
      (uninterrupted reads sink).foldl (proceed cfg peerAddr) (.inl (.reading decoder)) =
          .inr ((answerOn cfg ⟨later, sink, []⟩ peerAddr connectEnv pending decoder').1.map
            Session.established) := by
  induction reads generalizing decoder with
  | nil =>
    refine ⟨fun e h => ?_, fun _ _ _ _ h => by simp [readConnect] at h⟩
    obtain rfl := Except.error.inj h
    rfl
  | cons r reads ih =>
    obtain ⟨hmore, hfailed, hdone⟩ := readConnect_cons cfg decoder r reads
    rw [uninterrupted, List.map_cons, List.cons_append, List.foldl_cons, ← uninterrupted]
    cases hstep : connectStep cfg decoder r with
    | inl decoder' =>
      have hnext : proceed cfg peerAddr (.inl (.reading decoder)) (.read r) =
          .inl (.reading decoder') := by simp [proceed, Stage.advance, hstep]
      rw [hnext, hmore decoder' hstep]
      exact ih decoder'
    | inr ended =>
      cases ended with
      | error e =>
        have hnext : proceed cfg peerAddr (.inl (.reading decoder)) (.read r) =
            .inr (.error e) := by simp [proceed, Stage.advance, hstep]
        rw [hnext, hfailed e hstep, foldl_proceed_inr]
        simp
      | ok found =>
        obtain ⟨connectEnv, pending, decoder'⟩ := found
        have hnext : proceed cfg peerAddr (.inl (.reading decoder)) (.read r) =
            answerConnect cfg peerAddr connectEnv pending decoder' := by
          simp [proceed, Stage.advance, hstep]
        have hanswer := foldl_answerConnect cfg peerAddr connectEnv pending decoder'
          (reads ++ [.ok []]) ⟨reads, sink, []⟩
        rw [hnext, hdone _ _ _ hstep]
        refine ⟨fun e h => (by cases h), fun env' pending' decoder'' later h => ?_⟩
        simp only [Except.ok.injEq, Prod.mk.injEq] at h
        obtain ⟨rfl, rfl, rfl, rfl⟩ := h
        rw [← hanswer, uninterrupted, List.map_append, List.append_assoc]
        rfl

/-- Without TLS a handshake that is left to itself is `handshake`. -/
theorem handshakeOf_reads (hplain : cfg.tls = false) (peerAddr : String) (reads : List Read)
    (sink : Option IoErrorKind) :
    handshakeOf cfg peerAddr (uninterrupted reads sink) =
      .inr ((handshake tcp cfg.wire ⟨reads, sink, []⟩ peerAddr cfg.maxFrameBytes
        cfg.authoriser).1.map Session.established) := by
  have hfirst : firstStage cfg = .reading (.new cfg.maxFrameBytes) := by
    simp [firstStage, hplain]
  obtain ⟨hfailed, hdone⟩ := foldl_reads cfg peerAddr sink reads (.new cfg.maxFrameBytes)
  obtain ⟨herr, hok⟩ := handshake_eq cfg ⟨reads, sink, []⟩ peerAddr
  rw [handshakeOf, hfirst]
  cases hread : readConnect tcp cfg.wire (.new cfg.maxFrameBytes) reads with
  | error e =>
    rw [hfailed e hread, herr e hread]
    rfl
  | ok found =>
    obtain ⟨connectEnv, pending, decoder, later⟩ := found
    rw [hdone _ _ _ _ hread, hok _ _ _ _ hread]

end Port

/-- A socket taken from the listener and what has happened on it. -/
structure Connection where
  socket : ℕ
  peerAddr : String
  seen : List ConnectionEvent

def Connection.saw (c : Connection) (x : ConnectionEvent) : Connection :=
  { c with seen := c.seen ++ [x] }

/-- The connection that a pending `accept` holds. -/
structure Handshaking where
  conn : Connection
  stage : Stage

structure Task where
  socket : ℕ
  session : Established
  finished : Bool

/-- The state of `run_listener`, with the sockets taken so far and the
connections that became sessions or errors. -/
structure AcceptLoop where
  accepting : Option Handshaking
  tasks : List Task
  stopped : Bool
  taken : List ℕ
  spawned : List (Connection × Established)
  failed : List (Connection × IngestError)

/-- What can happen next: the listener yields a socket or an error, something
happens on the connection in its handshake, a session task finishes or is
reaped, the node shuts down. -/
inductive Happening
  | socket (id : ℕ) (peerAddr : String)
  | acceptError (kind : IoErrorKind)
  | connection (x : ConnectionEvent)
  | finish (id : ℕ)
  | reap (id : ℕ)
  | shutdown
  deriving DecidableEq

namespace AcceptLoop

def start : AcceptLoop := ⟨none, [], false, [], [], []⟩

/-- A finished task of this socket waits to be reaped. -/
def reapable (s : AcceptLoop) (id : ℕ) : Bool :=
  s.tasks.any fun t => t.socket = id && t.finished

/-- Only this error of `accept` ends the loop. -/
def closes : IngestError → Bool
  | .closed => true
  | _ => false

variable (cfg : PortConfig)

/-- The handshake in progress goes on, or it ends: `accept` returns, a session is
spawned or the error is logged, and the next `accept` begins. -/
def resolve (s : AcceptLoop) (h : Handshaking) (x : ConnectionEvent) : AcceptLoop :=
  match h.stage.advance cfg h.conn.peerAddr x with
  | .inl stage => { s with accepting := some ⟨h.conn.saw x, stage⟩ }
  | .inr (.ok established) =>
    { s with
      accepting := none
      tasks := s.tasks ++ [⟨h.conn.socket, established, false⟩]
      spawned := s.spawned ++ [(h.conn.saw x, established)] }
  | .inr (.error e) =>
    { s with
      accepting := none
      stopped := closes e
      failed := s.failed ++ [(h.conn.saw x, e)] }

/-- One round of `select!`, or a part of one: the branch that is ready first
wins, and the futures of the others are dropped. -/
def step (s : AcceptLoop) (x : Happening) : AcceptLoop :=
  if s.stopped then s
  else match x with
    | .socket id peerAddr =>
      if s.accepting.isSome || s.taken.contains id then s
      else
        { s with
          accepting := some ⟨⟨id, peerAddr, []⟩, firstStage cfg⟩
          taken := s.taken ++ [id] }
    | .acceptError _ => s
    | .connection x =>
      match s.accepting with
      | none => s
      | some h => s.resolve cfg h x
    | .finish id =>
      { s with
        tasks := s.tasks.map fun t => if t.socket = id then { t with finished := true } else t }
    | .reap id =>
      -- `join_next` wins, the future of `accept` is dropped with its socket.
      if s.reapable id then
        { s with tasks := s.tasks.filter fun t => t.socket ≠ id, accepting := none }
      else s
    | .shutdown => { s with stopped := true, accepting := none }

def run (s : AcceptLoop) (xs : List Happening) : AcceptLoop := xs.foldl (step cfg) s

/-- A task is reaped while a handshake is in progress. -/
def disturbs (s : AcceptLoop) : Happening → Bool
  | .reap id => s.reapable id && s.accepting.isSome
  | _ => false

def disturbed (s : AcceptLoop) : List Happening → Bool
  | [] => false
  | x :: xs => s.disturbs x || disturbed (s.step cfg x) xs

def InProgress (s : AcceptLoop) (id : ℕ) : Prop :=
  ∃ h, s.accepting = some h ∧ h.conn.socket = id

/-- The socket has become a session task, or its client an error; either is what
its own handshake came to. -/
def Settled (s : AcceptLoop) (id : ℕ) : Prop :=
  (∃ y ∈ s.spawned, y.1.socket = id ∧
    handshakeOf cfg y.1.peerAddr y.1.seen = .inr (.ok y.2)) ∨
  ∃ y ∈ s.failed, y.1.socket = id ∧ handshakeOf cfg y.1.peerAddr y.1.seen = .inr (.error y.2)

inductive Turn (s : AcceptLoop) : Happening → AcceptLoop → Prop
  | idle (x : Happening) : (s.stopped = false → s.disturbs x = false) → Turn s x s
  | take (id : ℕ) (peerAddr : String) : s.accepting = none → id ∉ s.taken →
      Turn s (.socket id peerAddr)
        { s with
          accepting := some ⟨⟨id, peerAddr, []⟩, firstStage cfg⟩
          taken := s.taken ++ [id] }
  | proceed (h : Handshaking) (x : ConnectionEvent) (stage : Stage) : s.accepting = some h →
      h.stage.advance cfg h.conn.peerAddr x = .inl stage →
      Turn s (.connection x) { s with accepting := some ⟨h.conn.saw x, stage⟩ }
  | spawn (h : Handshaking) (x : ConnectionEvent) (established : Established) :
      s.accepting = some h → h.stage.advance cfg h.conn.peerAddr x = .inr (.ok established) →
      Turn s (.connection x)
        { s with
          accepting := none
          tasks := s.tasks ++ [⟨h.conn.socket, established, false⟩]
          spawned := s.spawned ++ [(h.conn.saw x, established)] }
  | fail (h : Handshaking) (x : ConnectionEvent) (e : IngestError) : s.accepting = some h →
      h.stage.advance cfg h.conn.peerAddr x = .inr (.error e) →
      Turn s (.connection x)
        { s with
          accepting := none
          stopped := closes e
          failed := s.failed ++ [(h.conn.saw x, e)] }
  | finish (id : ℕ) (tasks : List Task) : Turn s (.finish id) { s with tasks := tasks }
  | reap (id : ℕ) (tasks : List Task) : s.reapable id = true →
      Turn s (.reap id) { s with tasks := tasks, accepting := none }
  | shutdown : Turn s .shutdown { s with stopped := true, accepting := none }

theorem step_turn (s : AcceptLoop) (x : Happening) : Turn cfg s x (s.step cfg x) := by
  by_cases hstopped : s.stopped = true
  · rw [step.eq_def, if_pos hstopped]
    exact .idle x fun hrunning => by simp [hstopped] at hrunning
  rw [step.eq_def, if_neg hstopped]
  cases x with
  | socket id peerAddr =>
    dsimp only
    split_ifs with hbusy
    · exact .idle _ fun _ => rfl
    · simp only [Bool.or_eq_true, List.contains_eq_mem, decide_eq_true_eq, not_or,
        Option.not_isSome_iff_eq_none] at hbusy
      exact .take id peerAddr hbusy.1 hbusy.2
  | acceptError kind => exact .idle _ fun _ => rfl
  | connection x =>
    cases haccepting : s.accepting with
    | none => exact .idle _ fun _ => rfl
    | some h =>
      dsimp only
      unfold resolve
      cases hadvance : h.stage.advance cfg h.conn.peerAddr x with
      | inl stage => exact .proceed h x stage haccepting hadvance
      | inr result =>
        cases result with
        | ok established => exact .spawn h x established haccepting hadvance
        | error e => exact .fail h x e haccepting hadvance
  | finish id => exact .finish id _
  | reap id =>
    dsimp only
    split_ifs with hreap
    · exact .reap id _ hreap
    · exact .idle _ fun _ => by simp [disturbs, hreap]
  | shutdown => exact .shutdown

/-- What ties the state to what has happened: the handshake in progress is the
one of its connection, and every socket is accounted for once. -/
structure Sound (s : AcceptLoop) : Prop where
  pending : ∀ h, s.accepting = some h →
    h.conn.socket ∈ s.taken ∧ handshakeOf cfg h.conn.peerAddr h.conn.seen = .inl h.stage
  unsettled : ∀ h, s.accepting = some h → ¬ s.Settled cfg h.conn.socket
  taken : ∀ id, s.Settled cfg id → id ∈ s.taken

theorem Sound.start : start.Sound cfg where
  pending h hnone := by simp [AcceptLoop.start] at hnone
  unsettled h hnone := by simp [AcceptLoop.start] at hnone
  taken id hsettled := by simp [Settled, AcceptLoop.start] at hsettled

theorem settled_spawned {s : AcceptLoop} {c : Connection} {established : Established}
    {tasks : List Task}
    (hown : handshakeOf cfg c.peerAddr c.seen = .inr (.ok established)) (id : ℕ) :
    Settled cfg { s with
      accepting := none
      tasks := tasks
      spawned := s.spawned ++ [(c, established)] } id ↔ s.Settled cfg id ∨ id = c.socket := by
  simp only [Settled, List.mem_append, List.mem_singleton]
  constructor
  · rintro (⟨y, hmem | rfl, hid, hy⟩ | hother)
    · exact .inl (.inl ⟨y, hmem, hid, hy⟩)
    · exact .inr hid.symm
    · exact .inl (.inr hother)
  · rintro ((⟨y, hmem, hid, hy⟩ | hother) | rfl)
    · exact .inl ⟨y, .inl hmem, hid, hy⟩
    · exact .inr hother
    · exact .inl ⟨(c, established), .inr rfl, rfl, hown⟩

theorem settled_failed {s : AcceptLoop} {c : Connection} {e : IngestError} {stopped : Bool}
    (hown : handshakeOf cfg c.peerAddr c.seen = .inr (.error e)) (id : ℕ) :
    Settled cfg { s with
      accepting := none
      stopped := stopped
      failed := s.failed ++ [(c, e)] } id ↔ s.Settled cfg id ∨ id = c.socket := by
  simp only [Settled, List.mem_append, List.mem_singleton]
  constructor
  · rintro (hother | ⟨y, hmem | rfl, hid, hy⟩)
    · exact .inl (.inl hother)
    · exact .inl (.inr ⟨y, hmem, hid, hy⟩)
    · exact .inr hid.symm
  · rintro ((hother | ⟨y, hmem, hid, hy⟩) | rfl)
    · exact .inl hother
    · exact .inr ⟨y, .inl hmem, hid, hy⟩
    · exact .inr ⟨(c, e), .inr rfl, rfl, hown⟩

variable {cfg}

theorem Sound.ended {s : AcceptLoop} (hs : s.Sound cfg) {h : Handshaking} {x : ConnectionEvent}
    {result : Except IngestError Established} (haccepting : s.accepting = some h)
    (hadvance : h.stage.advance cfg h.conn.peerAddr x = .inr result) :
    handshakeOf cfg (h.conn.saw x).peerAddr (h.conn.saw x).seen = .inr result := by
  have hpending := (hs.pending h haccepting).2
  rw [← hadvance]
  exact handshakeOf_concat cfg hpending x

/-- With no handshake in progress, the settled sockets are all there is to say. -/
theorem Sound.of_ended {s : AcceptLoop} (haccepting : s.accepting = none)
    (htaken : ∀ id, s.Settled cfg id → id ∈ s.taken) : s.Sound cfg where
  pending h hsome := by simp [haccepting] at hsome
  unsettled h hsome := by simp [haccepting] at hsome
  taken := htaken

theorem Sound.step {s : AcceptLoop} (hs : s.Sound cfg) (x : Happening) :
    (s.step cfg x).Sound cfg := by
  have hturn := step_turn cfg s x
  generalize s.step cfg x = t at hturn ⊢
  cases hturn with
  | idle _ _ => exact hs
  | take id peerAddr hnone hnew =>
    constructor
    · rintro h hsome
      obtain rfl := Option.some.inj hsome
      exact ⟨List.mem_append_right _ (List.mem_singleton_self id), rfl⟩
    · rintro h hsome hsettled
      obtain rfl := Option.some.inj hsome
      exact hnew (hs.taken id hsettled)
    · intro other hsettled
      exact List.mem_append_left _ (hs.taken other hsettled)
  | proceed h x stage haccepting hadvance =>
    obtain ⟨hmem, hpending⟩ := hs.pending h haccepting
    constructor
    · rintro h' hsome
      obtain rfl := Option.some.inj hsome
      exact ⟨hmem, (handshakeOf_concat cfg hpending x).trans hadvance⟩
    · rintro h' hsome
      obtain rfl := Option.some.inj hsome
      exact hs.unsettled h haccepting
    · exact hs.taken
  | spawn h x established haccepting hadvance =>
    apply Sound.of_ended rfl
    intro id hsettled
    have hwhich := (settled_spawned cfg (hs.ended haccepting hadvance) id).mp hsettled
    rcases hwhich with hold | rfl
    · exact hs.taken id hold
    · exact (hs.pending h haccepting).1
  | fail h x e haccepting hadvance =>
    apply Sound.of_ended rfl
    intro id hsettled
    have hwhich := (settled_failed cfg (hs.ended haccepting hadvance) id).mp hsettled
    rcases hwhich with hold | rfl
    · exact hs.taken id hold
    · exact (hs.pending h haccepting).1
  | finish id tasks => exact ⟨hs.pending, hs.unsettled, hs.taken⟩
  | reap id tasks _ => exact .of_ended rfl hs.taken
  | shutdown => exact .of_ended rfl hs.taken

/-- A taken socket that is neither in its handshake nor settled. -/
def Lost (cfg : PortConfig) (s : AcceptLoop) (id : ℕ) : Prop :=
  id ∈ s.taken ∧ ¬ s.InProgress id ∧ ¬ s.Settled cfg id

theorem Sound.lost_step {s : AcceptLoop} (hs : s.Sound cfg) {id : ℕ} (hlost : s.Lost cfg id)
    (x : Happening) : (s.step cfg x).Lost cfg id := by
  obtain ⟨hmem, hidle, hunsettled⟩ := hlost
  have hother {h : Handshaking} (haccepting : s.accepting = some h) : id ≠ h.conn.socket := by
    rintro rfl
    exact hidle ⟨h, haccepting, rfl⟩
  have hturn := step_turn cfg s x
  generalize s.step cfg x = t at hturn ⊢
  cases hturn with
  | idle _ _ => exact ⟨hmem, hidle, hunsettled⟩
  | take id' peerAddr hnone hnew =>
    refine ⟨List.mem_append_left _ hmem, ?_, hunsettled⟩
    rintro ⟨h, hsome, rfl⟩
    obtain rfl := Option.some.inj hsome
    exact hnew hmem
  | proceed h x stage haccepting hadvance =>
    refine ⟨hmem, ?_, hunsettled⟩
    rintro ⟨h', hsome, hid⟩
    obtain rfl := Option.some.inj hsome
    exact hother haccepting hid.symm
  | spawn h x established haccepting hadvance =>
    refine ⟨hmem, by simp [InProgress], fun hsettled => ?_⟩
    have hwhich := (settled_spawned cfg (hs.ended haccepting hadvance) id).mp hsettled
    rcases hwhich with hold | hid
    · exact hunsettled hold
    · exact hother haccepting hid
  | fail h x e haccepting hadvance =>
    refine ⟨hmem, by simp [InProgress], fun hsettled => ?_⟩
    have hwhich := (settled_failed cfg (hs.ended haccepting hadvance) id).mp hsettled
    rcases hwhich with hold | hid
    · exact hunsettled hold
    · exact hother haccepting hid
  | finish id' tasks => exact ⟨hmem, hidle, hunsettled⟩
  | reap id' tasks _ => exact ⟨hmem, by simp [InProgress], hunsettled⟩
  | shutdown => exact ⟨hmem, by simp [InProgress], hunsettled⟩

/-- Every socket taken is in its handshake or settled. -/
def Kept (cfg : PortConfig) (s : AcceptLoop) : Prop :=
  ∀ id ∈ s.taken, s.InProgress id ∨ s.Settled cfg id

/-- Nothing but a reaped task or the shutdown takes a connection away. -/
theorem Sound.kept_step {s : AcceptLoop} (hs : s.Sound cfg) (hkept : s.Kept cfg) {x : Happening}
    (hquiet : s.stopped = false → s.disturbs x = false)
    (hrunning : (s.step cfg x).stopped = false) : (s.step cfg x).Kept cfg := by
  have hturn := step_turn cfg s x
  generalize s.step cfg x = t at hturn hrunning ⊢
  cases hturn with
  | idle _ _ => exact hkept
  | take id peerAddr hnone hnew =>
    intro id' hmem
    rcases List.mem_append.mp hmem with hold | hthis
    · rcases hkept id' hold with ⟨h, hsome, _⟩ | hsettled
      · simp [hnone] at hsome
      · exact .inr hsettled
    · exact .inl ⟨_, rfl, (List.mem_singleton.mp hthis).symm⟩
  | proceed h x stage haccepting hadvance =>
    intro id hmem
    rcases hkept id hmem with ⟨h', hsome, hid⟩ | hsettled
    · obtain rfl := Option.some.inj (haccepting.symm.trans hsome)
      exact .inl ⟨_, rfl, hid⟩
    · exact .inr hsettled
  | spawn h x established haccepting hadvance =>
    intro id hmem
    rw [settled_spawned cfg (hs.ended haccepting hadvance) id]
    rcases hkept id hmem with ⟨h', hsome, hid⟩ | hsettled
    · obtain rfl := Option.some.inj (haccepting.symm.trans hsome)
      exact .inr (.inr hid.symm)
    · exact .inr (.inl hsettled)
  | fail h x e haccepting hadvance =>
    intro id hmem
    rw [settled_failed cfg (hs.ended haccepting hadvance) id]
    rcases hkept id hmem with ⟨h', hsome, hid⟩ | hsettled
    · obtain rfl := Option.some.inj (haccepting.symm.trans hsome)
      exact .inr (.inr hid.symm)
    · exact .inr (.inl hsettled)
  | finish id tasks => exact hkept
  | reap id tasks hreap =>
    intro id' hmem
    rcases hkept id' hmem with ⟨h, hsome, _⟩ | hsettled
    · have hdisturbs := hquiet hrunning
      simp [disturbs, hreap, hsome] at hdisturbs
    · exact .inr hsettled
  | shutdown => simp at hrunning

/-- The reaped task takes the connection in its handshake with it. -/
theorem Sound.lost_of_disturbs {s : AcceptLoop} (hs : s.Sound cfg) (hrunning : s.stopped = false)
    {x : Happening} (hdisturbs : s.disturbs x = true) : ∃ id, (s.step cfg x).Lost cfg id := by
  cases x with
  | reap id =>
    simp only [disturbs, Bool.and_eq_true, Option.isSome_iff_exists] at hdisturbs
    obtain ⟨hreap, h, haccepting⟩ := hdisturbs
    have hstep : s.step cfg (.reap id) =
        { s with tasks := s.tasks.filter fun t => t.socket ≠ id, accepting := none } := by
      simp [AcceptLoop.step, hrunning, hreap]
    refine ⟨h.conn.socket, ?_⟩
    rw [hstep]
    exact ⟨(hs.pending h haccepting).1, by simp [InProgress], hs.unsettled h haccepting⟩
  | socket | acceptError | connection | finish | shutdown => simp [disturbs] at hdisturbs

theorem step_of_stopped {s : AcceptLoop} (hstopped : s.stopped = true) (x : Happening) :
    s.step cfg x = s := by simp [AcceptLoop.step, hstopped]

theorem run_of_stopped {s : AcceptLoop} (hstopped : s.stopped = true) (xs : List Happening) :
    s.run cfg xs = s := by
  induction xs with
  | nil => rfl
  | cons x xs ih =>
    rw [run, List.foldl_cons, step_of_stopped hstopped, ← run]
    exact ih

theorem running_of_run {s : AcceptLoop} {xs : List Happening}
    (hrunning : (s.run cfg xs).stopped = false) : s.stopped = false := by
  by_contra hstopped
  rw [Bool.not_eq_false] at hstopped
  rw [run_of_stopped hstopped, hstopped] at hrunning
  cases hrunning

theorem Sound.run {s : AcceptLoop} (hs : s.Sound cfg) (xs : List Happening) :
    (s.run cfg xs).Sound cfg := by
  induction xs generalizing s with
  | nil => exact hs
  | cons x xs ih => exact ih (hs.step x)

theorem Sound.lost_run {s : AcceptLoop} (hs : s.Sound cfg) {id : ℕ} (hlost : s.Lost cfg id)
    (xs : List Happening) : (s.run cfg xs).Lost cfg id := by
  induction xs generalizing s with
  | nil => exact hlost
  | cons x xs ih => exact ih (hs.step x) (hs.lost_step hlost x)

/-- Up to the shutdown, the connections are kept exactly when no task is reaped
during a handshake. -/
theorem Sound.kept_run {s : AcceptLoop} (hs : s.Sound cfg) (hkept : s.Kept cfg)
    (xs : List Happening) (hrunning : (s.run cfg xs).stopped = false) :
    (s.run cfg xs).Kept cfg ↔ s.disturbed cfg xs = false := by
  induction xs generalizing s with
  | nil => exact ⟨fun _ => rfl, fun _ => hkept⟩
  | cons x xs ih =>
    have hnow : s.stopped = false := running_of_run hrunning
    have hnext : (s.step cfg x).stopped = false := by
      apply running_of_run
      exact hrunning
    cases hdisturbs : s.disturbs x with
    | false =>
      rw [disturbed, hdisturbs, Bool.false_or]
      exact ih (hs.step x) (hs.kept_step hkept (fun _ => hdisturbs) hnext) hrunning
    | true =>
      rw [disturbed, hdisturbs, Bool.true_or]
      obtain ⟨id, hlost⟩ := hs.lost_of_disturbs hnow hdisturbs
      obtain ⟨hmem, hidle, hunsettled⟩ := (hs.step x).lost_run hlost xs
      refine ⟨fun hall => ?_, fun habsurd => by cases habsurd⟩
      rcases hall id hmem with hprogress | hsettled
      · exact absurd hprogress hidle
      · exact absurd hsettled hunsettled

theorem Sound.settled_timeout {s : AcceptLoop} (hs : s.Sound cfg) (hkept : s.Kept cfg)
    (hrunning : s.stopped = false) {id : ℕ} (hmem : id ∈ s.taken) :
    (s.step cfg (.connection .timeout)).Settled cfg id := by
  cases haccepting : s.accepting with
  | none =>
    have hstep : s.step cfg (.connection .timeout) = s := by
      simp [AcceptLoop.step, hrunning, haccepting]
    rw [hstep]
    rcases hkept id hmem with ⟨h, hsome, _⟩ | hsettled
    · simp [haccepting] at hsome
    · exact hsettled
  | some h =>
    obtain ⟨e, hadvance⟩ := advance_timeout cfg h.conn.peerAddr h.stage
    have hstep : s.step cfg (.connection .timeout) =
        { s with
          accepting := none
          stopped := closes e
          failed := s.failed ++ [(h.conn.saw .timeout, e)] } := by
      simp [AcceptLoop.step, hrunning, haccepting, resolve, hadvance]
    rw [hstep, settled_failed cfg (hs.ended haccepting hadvance) id]
    rcases hkept id hmem with ⟨h', hsome, hid⟩ | hsettled
    · obtain rfl := Option.some.inj (haccepting.symm.trans hsome)
      exact .inr hid.symm
    · exact .inl hsettled

/-- In every run before the shutdown, each socket taken from the listener becomes
a session or an error of its own handshake, which its timeout ends at the latest,
exactly when no session task is reaped during a handshake. -/
theorem connections_kept_iff (cfg : PortConfig) (happenings : List Happening)
    (hrunning : (start.run cfg happenings).stopped = false) :
    (∀ id ∈ (start.run cfg happenings).taken,
      (start.run cfg happenings).InProgress id ∧
          (start.run cfg (happenings ++ [.connection .timeout])).Settled cfg id ∨
        (start.run cfg happenings).Settled cfg id) ↔
      start.disturbed cfg happenings = false := by
  have hsound := (Sound.start cfg).run happenings
  have hkept := (Sound.start cfg).kept_run (by simp [Kept, start]) happenings hrunning
  rw [← hkept]
  constructor
  · intro hall id hmem
    exact (hall id hmem).imp_left And.left
  · intro hall id hmem
    refine (hall id hmem).imp_left fun hprogress => ⟨hprogress, ?_⟩
    rw [run, List.foldl_append]
    exact hsound.settled_timeout hall hrunning hmem

/-- A plain listener that accepts every producer. -/
def samplePort : PortConfig := ⟨sampleWire, false, 65535, fun _ _ => .ok ()⟩

/-- Socket `0` becomes a session, which ends while socket `1` is in its handshake. -/
def sampleHappenings : List Happening :=
  [.socket 0 "first", .connection (.read (.ok ([0, 0, 0, 17] ++ connectEnvelopeBytes))),
    .connection (.written (.ok ())), .socket 1 "second", .finish 0, .reap 0]

theorem connections_kept_sample :
    (start.run samplePort sampleHappenings).stopped = false ∧
    ¬ ∀ id ∈ (start.run samplePort sampleHappenings).taken,
      (start.run samplePort sampleHappenings).InProgress id ∧
          (start.run samplePort (sampleHappenings ++ [.connection .timeout])).Settled
            samplePort id ∨
        (start.run samplePort sampleHappenings).Settled samplePort id := by
  have hrunning : (start.run samplePort sampleHappenings).stopped = false := by decide +kernel
  refine ⟨hrunning, ?_⟩
  rw [connections_kept_iff samplePort sampleHappenings hrunning]
  decide +kernel

/-- The end of one session closes the connection of another client, which has
made no error. -/
theorem reaping_loses_connection :
    (start.run samplePort sampleHappenings).stopped = false ∧
      1 ∈ (start.run samplePort sampleHappenings).taken ∧
      ¬ (start.run samplePort sampleHappenings).InProgress 1 ∧
      ¬ (start.run samplePort sampleHappenings).Settled samplePort 1 := by
  have haccepting : (start.run samplePort sampleHappenings).accepting = none :=
    Option.isNone_iff_eq_none.mp (by decide +kernel)
  have hspawned : (start.run samplePort sampleHappenings).spawned.map (·.1.socket) = [0] := by
    decide +kernel
  have hfailed : (start.run samplePort sampleHappenings).failed.map (·.1.socket) = [] := by
    decide +kernel
  refine ⟨by decide +kernel, by decide +kernel, by simp [InProgress, haccepting], ?_⟩
  rintro (⟨y, hmem, hid, -⟩ | ⟨y, hmem, hid, -⟩)
  · have hsocket := List.mem_map_of_mem (f := (·.1.socket)) hmem
    rw [hspawned, hid] at hsocket
    simp at hsocket
  · have hsocket := List.mem_map_of_mem (f := (·.1.socket)) hmem
    rw [hfailed] at hsocket
    simp at hsocket

end AcceptLoop
end OtkCore.Ingest
