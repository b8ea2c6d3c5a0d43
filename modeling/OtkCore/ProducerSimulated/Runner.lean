import OtkCore.ProducerSimulated.Adapter
import OtkCore.Ingest.Producer

/-!
# Running an adapter against a node

The loop that sends what an adapter produces until it has nothing left or a
shutdown is asked for. Each turn waits for the adapter's next event and for the
shutdown channel, and whichever comes second is dropped. For the simulator no
event gets lost or is sent twice by that.
-/
namespace OtkCore.ProducerSimulated

open FrameCodec Ingest FileIO

inductive RunError
  | adapter (e : AdapterError)
  | producer (e : ProducerError)

inductive Ending
  | returned (result : Except RunError Unit)
  | panicked
  | running

/-- One turn of the loop. `polled` says whether `next_event` is polled before the shutdown
channel is found to have changed, `changed` what that channel then holds, `none` if it is
closed. `traceparent` and `sink` are for what the turn sends. -/
structure Turn where
  polled : Bool
  clock : Clock
  woken : Bool
  changed : Option Bool
  traceparent : Option String
  sink : Option IoErrorKind

def Turn.link (turn : Turn) (p : Producer) : Producer :=
  { p with stream := { p.stream with sink := turn.sink } }

section Run

variable (w : WireCodec) {A : Type} [DetectorAdapter A]

def Turn.poll (turn : Turn) (a : A) : NextEvent × A :=
  if turn.polled then DetectorAdapter.nextEvent a turn.clock turn.woken else (.dropped, a)

/-- Behind the loop: the adapter is stopped and the connection closed. -/
def leave (a : A) (p : Producer) (turn : Turn) : Ending × A × List UInt8 :=
  match (turn.link p).disconnect w turn.traceparent with
  | (.error e, stream) =>
    (.returned (.error (.producer e)), (DetectorAdapter.stop a).2, stream.sent)
  | (.ok (), stream) => (.returned (.ok ()), (DetectorAdapter.stop a).2, stream.sent)

/-- Returns how the loop ends, the adapter and what has been written. -/
def runLoop : A → Producer → List Turn → Ending × A × List UInt8
  | a, p, [] => (.running, a, p.stream.sent)
  | a, p, turn :: turns =>
    match turn.poll a with
    | (.panicked, a) => (.panicked, a, p.stream.sent)
    | (.ready (some (.ok ev)), a) =>
      match (turn.link p).perform w (.event (adapterEventToOtk ev) turn.traceparent) with
      | (none, p) => (.panicked, a, p.stream.sent)
      | (some (.error e), p) =>
        (.returned (.error (.producer e)), (DetectorAdapter.stop a).2, p.stream.sent)
      | (some (.ok ()), p) => runLoop a p turns
    | (.ready (some (.error e)), a) =>
      (.returned (.error (.adapter e)), (DetectorAdapter.stop a).2, p.stream.sent)
    | (.ready none, a) => leave w a p turn
    | (.dropped, a) =>
      match turn.changed with
      | some false => runLoop a p turns
      | _ => leave w a p turn

/-- `Producer::connect` where the transport may fail to open, and what it has written. -/
def connectOver (config : ProducerConfig) (traceparent : Option String)
    (transport : Except IoErrorKind Stream) : Except ProducerError Producer × List UInt8 :=
  if config.maxFrameBytes = 0 then (.error (.config "max_frame_bytes must not be zero"), [])
  else
    match transport with
    | .error e => (.error (.io e), [])
    | .ok stream => (Producer.connect w config traceparent stream,
        (Producer.request w config traceparent stream).2.sent)

def run (a : A) (config : ProducerConfig) (traceparent : Option String)
    (transport : Except IoErrorKind Stream) (turns : List Turn) : Ending × A × List UInt8 :=
  match DetectorAdapter.start a with
  | (.error e, a) => (.returned (.error (.adapter e)), a, [])
  | (.ok (), a) =>
    match connectOver w config traceparent transport with
    | (.error e, sent) =>
      (.returned (.error (.producer e)), (DetectorAdapter.stop a).2, sent)
    | (.ok p, _) => runLoop w a p turns

end Run

section Written

variable {w : WireCodec} {max : ℕ}

theorem sendEncoded_cases (hmax : maxFrameBytes ≤ max) (stream : Stream)
    (envelope : OtkEnvelope) :
    (∃ e, sendEncoded w stream envelope = (.error e, stream)) ∨
    (∃ frame, encodeStream w.envelope envelope max = .ok frame ∧
      sendEncoded w stream envelope = (.ok (), { stream with sent := stream.sent ++ frame })) := by
  by_cases hfit : Fits w envelope
  · obtain ⟨payload, henc, hlen, hframe, hsend⟩ := hfit.frame hmax
    cases hsink : stream.sink with
    | none =>
      right
      rw [hsend stream hsink, hsink]
      exact ⟨_, hframe, rfl⟩
    | some e =>
      left
      have hu : maxFrameBytes ≤ u32Max := by decide
      rw [sendEncoded, henc]
      simp only [sendFrame, hsink]
      rw [if_neg (Nat.not_lt.mpr (hlen.trans hu)), if_neg (Nat.not_lt.mpr hlen)]
      exact ⟨_, rfl⟩
  · left
    have hsame := sendEncoded_not_fits hfit stream
    rw [sendEncoded] at hsame ⊢
    cases henc : w.envelope.encode envelope with
    | error e => exact ⟨_, rfl⟩
    | ok payload =>
      have hlong : payload.length > maxFrameBytes := by
        by_contra hle
        exact hfit ⟨payload, henc, Nat.not_lt.mp hle⟩
      simp only [sendFrame]
      split_ifs with hbig
      · exact ⟨_, rfl⟩
      · exact ⟨_, rfl⟩

/-- What `send_event` can do. -/
theorem perform_event_cases (hmax : maxFrameBytes ≤ max) (p : Producer) (event : OtkEvent)
    (traceparent : Option String) :
    (∃ e p', p.perform w (.event event traceparent) = (some (.error e), p') ∧
      p'.stream.sent = p.stream.sent) ∨
    (∃ payload frame, w.event.encode event = .ok payload ∧
      encodeStream w.envelope
        (Producer.eventEnvelope p.producerId p.nextSeq payload traceparent) max = .ok frame ∧
      ∃ r p', p.perform w (.event event traceparent) = (r, p') ∧
        p'.stream.sent = p.stream.sent ++ frame ∧ p'.producerId = p.producerId ∧
        (r = none ∨ r = some (.ok ()) ∧ p.nextSeq + 1 < 2 ^ 64 ∧ p'.nextSeq = p.nextSeq + 1)) := by
  rw [Producer.perform]
  cases hpay : w.event.encode event with
  | error e => exact .inl ⟨_, p, rfl, rfl⟩
  | ok payload =>
    rcases sendEncoded_cases hmax p.stream
        (Producer.eventEnvelope p.producerId p.nextSeq payload traceparent) with
      ⟨e, hsend⟩ | ⟨frame, hframe, hsend⟩
    · left
      dsimp only
      rw [hsend]
      exact ⟨e, p, rfl, rfl⟩
    · right
      refine ⟨payload, frame, rfl, hframe, ?_⟩
      dsimp only
      rw [hsend]
      dsimp only
      by_cases hroom : p.nextSeq + 1 < 2 ^ 64
      · rw [if_pos hroom]
        exact ⟨_, _, rfl, rfl, rfl, .inr ⟨rfl, hroom, rfl⟩⟩
      · rw [if_neg hroom]
        exact ⟨_, _, rfl, rfl, rfl, .inl rfl⟩

theorem writes_farewell {producerId : ProducerId} {traceparent : Option String}
    {frame : List UInt8}
    (hframe : encodeStream w.envelope (makeEnvelope producerId .disconnect none traceparent) max =
      .ok frame) : Writes w producerId max frame [] := by
  refine ⟨[_], [frame], .cons hframe .nil, by simp, .inr ?_⟩
  simp [deliver, PostHandshakeProcessor.process, makeEnvelope]

theorem request_cases (hmax : maxFrameBytes ≤ max) (config : ProducerConfig)
    (traceparent : Option String) (stream : Stream) :
    (∃ e, Producer.request w config traceparent stream = (.error e, stream)) ∨
    (∃ payload frame, w.connect.encode (connectOf config) = .ok payload ∧
      encodeStream w.envelope
        (makeEnvelope ⟨config.producerId⟩ .connect (some payload) traceparent) max = .ok frame ∧
      Producer.request w config traceparent stream =
        (.ok (), { stream with sent := stream.sent ++ frame })) := by
  rw [Producer.request]
  cases hpay : w.connect.encode (connectOf config) with
  | error e =>
    left
    simp only [connectOf] at hpay
    rw [hpay]
    exact ⟨_, rfl⟩
  | ok payload =>
    simp only [connectOf] at hpay
    rw [hpay]
    rcases sendEncoded_cases (w := w) hmax stream
        (makeEnvelope ⟨config.producerId⟩ .connect (some payload) traceparent) with
      ⟨e, hsend⟩ | ⟨frame, hframe, hsend⟩
    · exact .inl ⟨e, hsend⟩
    · exact .inr ⟨payload, frame, rfl, hframe, hsend⟩

theorem connect_ok {config : ProducerConfig} {traceparent : Option String} {stream : Stream}
    {p : Producer} (h : Producer.connect w config traceparent stream = .ok p) :
    (Producer.request w config traceparent stream).1 = .ok () ∧
      p.stream.sent = (Producer.request w config traceparent stream).2.sent ∧
      p.producerId = ⟨config.producerId⟩ ∧ p.nextSeq = 0 := by
  rw [Producer.connect] at h
  split_ifs at h
  cases hrequest : Producer.request w config traceparent stream with
  | mk result stream' =>
    rw [hrequest] at h
    cases result with
    | error e => simp at h
    | ok _ =>
      simp only at h
      refine ⟨rfl, ?_⟩
      split at h
      · simp at h
      · split at h
        · simp at h
        · rw [Producer.onResponse] at h
          split_ifs at h
          split at h
          · split at h
            · simp at h
            · split at h
              · simp at h
              · split_ifs at h
                obtain rfl := Except.ok.inj h
                exact ⟨rfl, rfl, rfl⟩
          · split at h
            · simp at h
            · split at h <;> simp at h
          · simp at h

end Written

namespace SimulatorConfig

def producerConfig (config : SimulatorConfig) : ProducerConfig :=
  { producerId := config.producerId, authToken := config.authToken }

/-- The events come next once `n` of them are made. -/
def Emits (config : SimulatorConfig) : ℕ → List OtkEvent → Prop
  | _, [] => True
  | n, event :: events =>
    n < 2 ^ 64 ∧ ¬ config.Exhausted n ∧
      (∃ clock, event = adapterEventToOtk (config.script n clock)) ∧ Emits config (n + 1) events

theorem Emits.front {config : SimulatorConfig} {n : ℕ} {events events' : List OtkEvent}
    (h : config.Emits n events') (hbegins : events <+: events') : config.Emits n events := by
  induction events generalizing n events' with
  | nil => trivial
  | cons event events ih =>
    obtain ⟨rest, rfl⟩ := hbegins
    obtain ⟨hn, hleft, hevent, hrest⟩ := h
    exact ⟨hn, hleft, hevent, ih hrest (List.prefix_append _ _)⟩

variable {w : WireCodec} {max : ℕ} {config : SimulatorConfig}

theorem leave_writes (hmax : maxFrameBytes ≤ max) (a : SimulatorAdapter) (p : Producer)
    (turn : Turn) : ∃ bytes, (leave w a p turn).2.2 = p.stream.sent ++ bytes ∧
      Writes w p.producerId max bytes [] := by
  rw [leave, Producer.disconnect]
  rcases sendEncoded_cases (w := w) hmax (turn.link p).stream
      (makeEnvelope (turn.link p).producerId .disconnect none turn.traceparent) with
    ⟨e, hsend⟩ | ⟨frame, hframe, hsend⟩
  · rw [hsend]
    exact ⟨[], (List.append_nil _).symm, writes_nil _ max⟩
  · rw [hsend]
    exact ⟨frame, rfl, writes_farewell hframe⟩

/-- From the place `n` in its script the loop has written frames that deliver the events
from there on, each once and none left out; all that are left if it ended well without a
shutdown. -/
def Wrote (w : WireCodec) (max : ℕ) (config : SimulatorConfig) (n : ℕ) (p : Producer)
    (turns : List Turn) : Prop :=
  ∃ bytes events, (runLoop w (config.after n) p turns).2.2 = p.stream.sent ++ bytes ∧
    Writes w p.producerId max bytes events ∧
    config.Emits n (events.map IncomingEvent.event) ∧
    ((runLoop w (config.after n) p turns).1 = .returned (.ok ()) →
      (∀ turn ∈ turns, turn.changed = some false) → config.Exhausted (n + events.length))

section Turns

variable {n : ℕ} {p p' : Producer} {turn : Turn} {turns : List Turn}

theorem Wrote.dropped (hmax : maxFrameBytes ≤ max) (h : Wrote w max config n p turns)
    (hpoll : turn.poll (config.after n) = (.dropped, config.after n)) :
    Wrote w max config n p (turn :: turns) := by
  unfold Wrote
  rw [runLoop, hpoll]
  by_cases hchanged : turn.changed = some false
  · simp only [hchanged]
    obtain ⟨bytes, events, hsent, hwrites, hemits, hall⟩ := h
    refine ⟨bytes, events, hsent, hwrites, hemits, ?_⟩
    intro hend hnone
    apply hall hend
    intro turn' hmem
    exact hnone turn' (List.mem_cons_of_mem _ hmem)
  · obtain ⟨bytes, hsent, hwrites⟩ := leave_writes (w := w) hmax (config.after n) p turn
    have hleave : (match turn.changed with
        | some false => runLoop w (config.after n) p turns
        | _ => leave w (config.after n) p turn) = leave w (config.after n) p turn := by
      split
      · exact absurd ‹_› hchanged
      · rfl
    refine ⟨bytes, [], ?_, hwrites, trivial, ?_⟩
    · simpa only [hleave] using hsent
    · intro _ hnone
      exact absurd (hnone turn List.mem_cons_self) hchanged

theorem Wrote.sent (hw : w.Inverts) (hmax : maxFrameBytes ≤ max) (hn : n < 2 ^ 64)
    (hseq : p.nextSeq = n) (hleft : ¬ config.Exhausted n)
    (hpoll : turn.poll (config.after n) =
      (.ready (some (.ok (config.script n turn.clock))), config.after (n + 1)))
    (h : n + 1 < 2 ^ 64 → ∀ p' : Producer, p'.nextSeq = n + 1 →
      Wrote w max config (n + 1) p' turns) :
    Wrote w max config n p (turn :: turns) := by
  unfold Wrote
  rw [runLoop, hpoll]
  rcases perform_event_cases (w := w) hmax (turn.link p)
      (adapterEventToOtk (config.script n turn.clock)) turn.traceparent with
    ⟨e, p', hsend, hsame⟩ | ⟨payload, frame, hpay, hframe, r, p', hsend, hsent, hid, hr⟩
  · simp only [hsend]
    refine ⟨[], [], ?_, writes_nil _ max, trivial, ?_⟩
    · rw [hsame]
      exact (List.append_nil _).symm
    · intro hend
      cases hend
  · rcases hr with rfl | ⟨rfl, hroom, hseq'⟩
    · simp only [hsend]
      refine ⟨frame ++ [], _, ?_,
        (writes_nil p.producerId max).event hw.event hpay turn.traceparent hframe,
        ⟨hn, hleft, ⟨turn.clock, rfl⟩, trivial⟩, ?_⟩
      · rw [hsent, List.append_nil]
        rfl
      · intro hend
        cases hend
    · simp only [hsend]
      have hlink : (turn.link p).nextSeq = n := hseq
      rw [hlink] at hroom hseq'
      obtain ⟨bytes, events, hmore, hwrites, hemits, hall⟩ := h hroom p' hseq'
      rw [hid] at hwrites
      refine ⟨frame ++ bytes, _, ?_, hwrites.event hw.event hpay turn.traceparent hframe,
        ⟨hn, hleft, ⟨turn.clock, rfl⟩, hemits⟩, ?_⟩
      · rw [hmore, hsent, List.append_assoc]
        rfl
      · intro hend hnone
        have hspent : config.Exhausted (n + 1 + events.length) := by
          apply hall hend
          intro turn' hmem
          exact hnone turn' (List.mem_cons_of_mem _ hmem)
        rwa [List.length_cons, Nat.add_comm events.length 1, ← Nat.add_assoc]

end Turns

theorem runLoop_writes (config : SimulatorConfig) (hw : w.Inverts) (hmax : maxFrameBytes ≤ max)
    (turns : List Turn) {n : ℕ} (hn : n < 2 ^ 64) (p : Producer) (hseq : p.nextSeq = n) :
    Wrote w max config n p turns := by
  induction turns generalizing n p with
  | nil =>
    refine ⟨[], [], (List.append_nil _).symm, writes_nil _ max, trivial, ?_⟩
    intro hend
    rw [runLoop] at hend
    cases hend
  | cons turn turns ih =>
    cases hpolled : turn.polled with
    | false =>
      apply (ih hn p hseq).dropped hmax
      rw [Turn.poll, hpolled]
      rfl
    | true =>
      have hpoll : turn.poll (config.after n) =
          (config.after n).nextEvent turn.clock turn.woken := by
        rw [Turn.poll, hpolled]
        rfl
      rcases config.nextEvent_after hn turn.clock turn.woken with
        ⟨hspent, a, hnext⟩ | ⟨-, -, hnext⟩ | ⟨hleft, hnext⟩
      · -- There are no events left.
        unfold Wrote
        rw [runLoop, hpoll, hnext]
        obtain ⟨bytes, hsent, hwrites⟩ := leave_writes (w := w) hmax a p turn
        exact ⟨bytes, [], hsent, hwrites, trivial, fun _ _ => hspent⟩
      · exact (ih hn p hseq).dropped hmax (hpoll.trans hnext)
      · apply Wrote.sent hw hmax hn hseq hleft (hpoll.trans hnext)
        intro hroom p' hseq'
        exact ih hroom p' hseq'

/-- A simulator that is started writes nothing, or its Connect and then frames that
deliver its events from the first on; all of them if it ends well without a shutdown. -/
theorem run_writes (hw : w.Inverts) (hmax : maxFrameBytes ≤ max) (config : SimulatorConfig)
    (traceparent : Option String) {transport : Except IoErrorKind Stream}
    (hfresh : ∀ stream, transport = .ok stream → stream.sent = []) (turns : List Turn) :
    let r := run w (SimulatorAdapter.new config) config.producerConfig traceparent transport turns
    (r.2.2 = [] ∧ r.1 ≠ .returned (.ok ())) ∨
    ∃ payload frame bytes events,
      w.connect.encode (connectOf config.producerConfig) = .ok payload ∧
      encodeStream w.envelope
        (makeEnvelope ⟨config.producerId⟩ .connect (some payload) traceparent) max = .ok frame ∧
      r.2.2 = frame ++ bytes ∧ Writes w ⟨config.producerId⟩ max bytes events ∧
      config.Emits 0 (events.map IncomingEvent.event) ∧
      (r.1 = .returned (.ok ()) → (∀ turn ∈ turns, turn.changed = some false) →
        config.Exhausted events.length) := by
  intro r
  have hstart : DetectorAdapter.start (SimulatorAdapter.new config) =
      if config.timingPointIds = [] then
        (.error (.configuration "timing_point_ids must not be empty"), .new config)
      else (.ok (), config.after 0) := config.start_new
  by_cases hempty : config.timingPointIds = []
  · left
    have hr : r = (.returned (.error (.adapter (.configuration
        "timing_point_ids must not be empty"))), .new config, []) := by
      simp only [r, run, hstart, if_pos hempty]
    rw [hr]
    exact ⟨rfl, fun h => by cases h⟩
  · rw [if_neg hempty] at hstart
    cases transport with
    | error e =>
      left
      have hr : r = (.returned (.error (.producer (.io e))),
          (DetectorAdapter.stop (config.after 0)).2, []) := by
        simp only [r, run, hstart]
        rfl
      rw [hr]
      exact ⟨rfl, fun h => by cases h⟩
    | ok stream =>
      have hsent := hfresh stream rfl
      have hconnect : connectOver w config.producerConfig traceparent (.ok stream) =
          (Producer.connect w config.producerConfig traceparent stream,
            (Producer.request w config.producerConfig traceparent stream).2.sent) := rfl
      have hfailed : ∀ e, Producer.connect w config.producerConfig traceparent stream =
          .error e → r = (.returned (.error (.producer e)),
            (DetectorAdapter.stop (config.after 0)).2,
            (Producer.request w config.producerConfig traceparent stream).2.sent) := by
        intro e he
        simp only [r, run, hstart, hconnect, he]
      rcases request_cases (w := w) hmax config.producerConfig traceparent stream with
        ⟨e, hrequest⟩ | ⟨payload, frame, hpay, hframe, hrequest⟩
      · left
        cases hresult : Producer.connect w config.producerConfig traceparent stream with
        | error e' =>
          rw [hfailed e' hresult, hrequest]
          exact ⟨hsent, fun h => by cases h⟩
        | ok p =>
          have hok := (connect_ok hresult).1
          rw [hrequest] at hok
          cases hok
      · right
        cases hresult : Producer.connect w config.producerConfig traceparent stream with
        | error e =>
          rw [hfailed e hresult, hrequest]
          refine ⟨payload, frame, [], [], hpay, hframe, by simp [hsent], writes_nil _ max,
            trivial, fun h => ?_⟩
          cases h
        | ok p =>
          obtain ⟨-, hp, hid, hseq⟩ := connect_ok hresult
          have hr : r = runLoop w (config.after 0) p turns := by
            simp only [r, run, hstart, hconnect, hresult]
          obtain ⟨bytes, events, hloop, hwrites, hemits, hall⟩ :=
            config.runLoop_writes hw hmax turns (by norm_num) p hseq
          rw [hid] at hwrites
          refine ⟨payload, frame, bytes, events, hpay, hframe, ?_, hwrites, hemits, ?_⟩
          · rw [hr, hloop, hp, hrequest, hsent, List.nil_append]
          · intro hend hnone
            rw [hr] at hend
            simpa using hall hend hnone

end SimulatorConfig

end OtkCore.ProducerSimulated
