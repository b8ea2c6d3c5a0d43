import OtkCore.ProducerSimulated.Runner
import OtkCore.Ingest.Resume

/-!
# A simulator that is started again

Every start of the simulator counts its detections from zero. Against one node, a
detection whose number the node holds is taken for a repeated one, so what the
node stores over all the starts is one row of detections numbered from zero,
whatever cuts the connections, makes appends fail, restarts the node or comes
from other producers.
-/
namespace OtkCore.ProducerSimulated

open FrameCodec Ingest FileIO

namespace SimulatorConfig

/-- Detections of the simulator, numbered from zero and no more than it is to make. -/
def Makes (config : SimulatorConfig) (dets : List Detection) : Prop :=
  ∀ j det, dets[j]? = some det → j < 2 ^ 64 ∧ (∀ c ∈ config.count, j < c.toNat) ∧
    ∃ clock, det = config.detection j clock

variable {config : SimulatorConfig}

theorem Makes.front {dets dets' : List Detection} (h : config.Makes dets')
    (hbegins : dets <+: dets') : config.Makes dets := by
  intro j det hget
  obtain ⟨rest, rfl⟩ := hbegins
  obtain ⟨hlen, -⟩ := List.getElem?_eq_some_iff.mp hget
  exact h j det (by rw [List.getElem?_append_left hlen, hget])

theorem Makes.length_le {dets : List Detection} (h : config.Makes dets) :
    ∀ c ∈ config.count, dets.length ≤ c.toNat := by
  intro c hc
  by_contra hmore
  have hget : dets[c.toNat]? = some dets[c.toNat] := List.getElem?_eq_getElem (by omega)
  exact absurd ((h _ _ hget).2.1 c hc) (Nat.lt_irrefl _)

theorem Makes.rising {dets : List Detection} (h : config.Makes dets) : Rising dets := by
  apply List.pairwise_iff_getElem.mpr
  intro i j hi hj hij _
  obtain ⟨hi', -, clock, hdet⟩ := h i _ (List.getElem?_eq_getElem hi)
  obtain ⟨hj', -, clock', hdet'⟩ := h j _ (List.getElem?_eq_getElem hj)
  rw [hdet, hdet', detection_sequenceNumber, detection_sequenceNumber, UInt64.lt_iff_toNat_lt,
    toNat_ofNat hi', toNat_ofNat hj']
  exact hij

/-- What the second run makes behind the `k` detections of the first. -/
theorem Makes.append_drop {dets dets' : List Detection} (h : config.Makes dets)
    (h' : config.Makes dets') : config.Makes (dets ++ dets'.drop dets.length) := by
  intro j det hget
  by_cases hj : j < dets.length
  · rw [List.getElem?_append_left hj] at hget
    exact h j det hget
  · rw [List.getElem?_append_right (Nat.not_lt.mp hj), List.getElem?_drop,
      Nat.add_sub_cancel' (Nat.not_lt.mp hj)] at hget
    exact h' j det hget

theorem Makes.follows {dets dets' : List Detection} (h : config.Makes dets)
    (h' : config.Makes dets') :
    Follows (dets ++ dets'.drop dets.length) dets.length 0 dets' := by
  intro j det hget
  rw [Nat.zero_add]
  by_cases hj : j < dets.length
  · obtain ⟨-, -, clock, hold⟩ := h j _ (List.getElem?_eq_getElem hj)
    obtain ⟨-, -, clock', hnew⟩ := h' j det hget
    refine ⟨dets[j], ?_, ?_, ?_, fun hle => absurd hj (Nat.not_lt.mpr hle)⟩
    · rw [List.getElem?_append_left hj, List.getElem?_eq_getElem hj]
    · rw [hold, hnew, detection_detectorId, detection_detectorId]
    · rw [hold, hnew, detection_sequenceNumber, detection_sequenceNumber]
  · refine ⟨det, ?_, rfl, rfl, fun _ => rfl⟩
    rw [List.getElem?_append_right (Nat.not_lt.mp hj), List.getElem?_drop,
      Nat.add_sub_cancel' (Nat.not_lt.mp hj), hget]

theorem Emits.detections {n : ℕ} {events : List OtkEvent} (h : config.Emits (n + 2) events) :
    ∃ dets : List Detection, events = dets.map .detection ∧ ∀ i det, dets[i]? = some det →
      n + i < 2 ^ 64 ∧ (∀ c ∈ config.count, n + i < c.toNat) ∧
        ∃ clock, det = config.detection (n + i) clock := by
  induction events generalizing n with
  | nil => exact ⟨[], rfl, fun i det hget => by simp at hget⟩
  | cons event events ih =>
    obtain ⟨hn, hleft, ⟨clock, hevent⟩, hrest⟩ := h
    obtain ⟨dets, hdets, hmade⟩ := ih hrest
    refine ⟨config.detection n clock :: dets, by rw [hevent, hdets]; rfl, ?_⟩
    rintro (- | i) det hget
    · obtain rfl : config.detection n clock = det := by simpa using hget
      refine ⟨by omega, fun c hc => ?_, clock, rfl⟩
      by_contra hmore
      exact hleft ⟨c, hc, by omega⟩
    · have hplace : n + (i + 1) = n + 1 + i := by omega
      rw [hplace]
      exact hmade i det (by simpa using hget)

/-- A run makes its detections from zero on, behind at most two other events. -/
theorem Emits.makes {events : List OtkEvent} (h : config.Emits 0 events) :
    config.Makes (events.filterMap OtkEvent.detection?) ∧
      events.length ≤ (events.filterMap OtkEvent.detection?).length + 2 := by
  rcases events with - | ⟨first, - | ⟨second, events⟩⟩
  · exact ⟨fun j det hget => by simp at hget, by simp⟩
  · obtain ⟨-, -, ⟨clock, rfl⟩, -⟩ := h
    have hnone : [adapterEventToOtk (config.script 0 clock)].filterMap OtkEvent.detection? = [] :=
      rfl
    rw [hnone]
    exact ⟨fun j det hget => by simp at hget, by simp⟩
  · obtain ⟨-, -, ⟨clock, rfl⟩, -, -, ⟨clock', rfl⟩, hrest⟩ := h
    obtain ⟨dets, rfl, hmade⟩ := Emits.detections hrest
    have hall : (adapterEventToOtk (config.script 0 clock) ::
        adapterEventToOtk (config.script 1 clock') :: dets.map OtkEvent.detection).filterMap
          OtkEvent.detection? = dets := by
      rw [List.filterMap_cons_none rfl, List.filterMap_cons_none rfl, List.filterMap_map]
      exact List.filterMap_some
    rw [hall]
    refine ⟨fun j det hget => ?_, by simp⟩
    have hj := hmade j det hget
    rwa [Nat.zero_add] at hj

/-- The node holds a row of the simulator's detections. -/
structure Kept (config : SimulatorConfig) (s : EventIngestService) : Prop where
  settled : Settled s
  made : config.Makes (storedOf config.producerId s)

/-- A session that delivers the front of a run adds to the row what is new in it. -/
theorem Kept.submit {s : EventIngestService} (h : config.Kept s) (env : ℕ → IngestEnv)
    {events : List OtkEvent} (hemits : config.Emits 0 events) :
    config.Kept (submit config.producerId env s events) ∧
      storedOf config.producerId s <+: storedOf config.producerId
        (Ingest.submit config.producerId env s events) ∧
      (config.producerId ≠ "" → (∀ n, (env n).append.failure = none) →
        (storedOf config.producerId (Ingest.submit config.producerId env s events)).length =
          max (storedOf config.producerId s).length
            (events.filterMap OtkEvent.detection?).length) := by
  obtain ⟨hmakes, -⟩ := hemits.makes
  have hboth := h.made.append_drop hmakes
  have hholds : Holds config.producerId (storedOf config.producerId s ++
      (events.filterMap OtkEvent.detection?).drop (storedOf config.producerId s).length)
      (storedOf config.producerId s).length s := by
    refine ⟨h.settled, by simp, ?_⟩
    rw [List.take_left']
    rfl
  obtain ⟨k, hle, hlast, hall⟩ :=
    hholds.submit hboth.rising env (Nat.zero_le _) events (h.made.follows hmakes)
  refine ⟨⟨hlast.settled, ?_⟩, ?_, fun hpid hclean => ?_⟩
  · rw [hlast.stored]
    exact hboth.front (List.take_prefix k _)
  · rw [hlast.stored, List.take_append, List.take_of_length_le hle]
    exact List.prefix_append _ _
  · rw [hlast.length_stored, hall hpid hclean, Nat.zero_add]

end SimulatorConfig

section Life

variable (w : WireCodec) (l : Listener) (config : SimulatorConfig) (max : ℕ)
  (authoriser : ConnectAuthoriser) (processor : ProcessorConfig)

/-- A start of the simulator, of which the node reads `chunks`; a call of another
producer; or a restart of the node. -/
inductive Life
  | start (traceparent : Option String) (transport : Except IoErrorKind Stream)
    (turns : List Turn) (chunks : List (List UInt8)) (sink : Option IoErrorKind)
    (peerAddr : String) (env : ℕ → IngestEnv)
  | other (call : IngestCall)
  | restart

def simulate (traceparent : Option String) (transport : Except IoErrorKind Stream)
    (turns : List Turn) : Ending × SimulatorAdapter × List UInt8 :=
  run w (SimulatorAdapter.new config) config.producerConfig traceparent transport turns

def Life.apply (s : EventIngestService) : Life → EventIngestService
  | start _ _ _ chunks sink peerAddr env => serve w l max authoriser s chunks sink peerAddr env
  | other call => s.ingest call
  | restart => OtkCore.restart processor s.log

/-- The node reads the front of what the simulator writes. -/
def Life.Sound : Life → Prop
  | start traceparent transport turns chunks _ _ _ =>
    (∀ stream, transport = .ok stream → stream.sent = []) ∧ (∀ chunk ∈ chunks, chunk ≠ []) ∧
      chunks.flatten <+: (simulate w config traceparent transport turns).2.2
  | other call => call.producerId ≠ config.producerId
  | restart => True

variable {w l config max authoriser processor}

theorem serve_nothing {chunks : List (List UInt8)} (hchunks : ∀ chunk ∈ chunks, chunk ≠ [])
    (hempty : chunks.flatten = []) (s : EventIngestService) (sink : Option IoErrorKind)
    (peerAddr : String) (env : ℕ → IngestEnv) :
    serve w l max authoriser s chunks sink peerAddr env = s := by
  obtain rfl : chunks = [] := by
    apply List.eq_nil_iff_forall_not_mem.mpr
    intro chunk hmem
    exact hchunks chunk hmem (List.flatten_eq_nil_iff.mp hempty chunk hmem)
  rfl

theorem SimulatorConfig.Kept.life (l : Listener) (authoriser : ConnectAuthoriser)
    (processor : ProcessorConfig) (hw : w.Inverts) (hmax : maxFrameBytes ≤ max)
    {s : EventIngestService}
    (h : config.Kept s) {life : Life} (hlife : life.Sound w config) :
    config.Kept (life.apply w l max authoriser processor s) ∧
      storedOf config.producerId s <+:
        storedOf config.producerId (life.apply w l max authoriser processor s) := by
  cases life with
  | start traceparent transport turns chunks sink peerAddr env =>
    obtain ⟨hfresh, hchunks, hcut⟩ := hlife
    rw [Life.apply]
    rcases config.run_writes (w := w) hw hmax traceparent hfresh turns with
      ⟨hnone, -⟩ | ⟨payload, frame, bytes, events, -, hframe, hsent, hwrites, hemits, -⟩
    · rw [simulate, hnone] at hcut
      rw [serve_nothing hchunks (List.prefix_nil.mp hcut)]
      exact ⟨h, List.prefix_refl _⟩
    · rw [simulate, hsent] at hcut
      rcases serve_cut hw l config.producerConfig authoriser
          hframe hwrites hchunks hcut s sink peerAddr env with hsame | ⟨first, hfirst, hserve⟩
      · rw [hsame]
        exact ⟨h, List.prefix_refl _⟩
      · rw [hserve]
        obtain ⟨hkept, hgrows, -⟩ :=
          h.submit env (hemits.front (hfirst.map IncomingEvent.event))
        exact ⟨hkept, hgrows⟩
  | other call =>
    have hholds : Holds config.producerId (storedOf config.producerId s)
        (storedOf config.producerId s).length s :=
      ⟨h.settled, Nat.le_refl _, List.take_length.symm⟩
    have hnext : Holds config.producerId (storedOf config.producerId s)
        (storedOf config.producerId s).length (s.ingest call) :=
      hholds.appendEvent_other (.inl hlife) call.env
    have hsame : storedOf config.producerId (s.ingest call) = storedOf config.producerId s :=
      hnext.stored.trans List.take_length
    rw [Life.apply]
    refine ⟨⟨hnext.settled, ?_⟩, ?_⟩
    · rw [hsame]
      exact h.made
    · rw [hsame]
  | restart => exact ⟨⟨settled_restart processor s.log, h.made⟩, List.prefix_refl _⟩

theorem SimulatorConfig.Kept.lives (l : Listener) (authoriser : ConnectAuthoriser)
    (processor : ProcessorConfig) (hw : w.Inverts) (hmax : maxFrameBytes ≤ max)
    {s : EventIngestService}
    (h : config.Kept s) {lives : List Life} (hlives : ∀ life ∈ lives, life.Sound w config) :
    config.Kept (lives.foldl (Life.apply w l max authoriser processor) s) ∧
      storedOf config.producerId s <+: storedOf config.producerId
        (lives.foldl (Life.apply w l max authoriser processor) s) := by
  induction lives generalizing s with
  | nil => exact ⟨h, List.prefix_refl _⟩
  | cons life lives ih =>
    obtain ⟨hnext, hgrows⟩ := h.life l authoriser processor hw hmax (hlives life List.mem_cons_self)
    obtain ⟨hlast, hmore⟩ := ih hnext fun later hmem => hlives later (List.mem_cons_of_mem _ hmem)
    exact ⟨hlast, hgrows.trans hmore⟩

def sampleConfig : SimulatorConfig :=
  { detectorId := "d", timingPointIds := ["t"], timebaseId := "l", count := some 2,
    producerId := "p" }

def sampleDetectionBytes (n : ℕ) : List UInt8 :=
  [0x82, 0x00, 0x81, 0x8c, 0x63, 0x64, 0x2d, 0x30 + .ofNat n, 0x61, 0x64, 0x61, 0x74, 0xf6, 0x05,
  0xf6, 0x06, 0x82, 0x02, 0x80, 0x61, 0x6c, 0x82, 0x01, 0x80, .ofNat n, 0x82, 0x00, 0x80]

/-- What is written for its events when the clock says 5, and 6 to the builders. -/
def sampleEvents : List (OtkEvent × List UInt8) :=
  [(adapterEventToOtk (sampleConfig.script 0 ⟨5, 6⟩),
      [0x82, 0x03, 0x81, 0x86, 0x61, 0x64, 0x61, 0x74, 0x61, 0x6c, 0x82, 0x01, 0x80, 0x06, 0x82,
      0x80, 0x82, 0x02, 0x80]),
    (adapterEventToOtk (sampleConfig.script 1 ⟨5, 6⟩),
      [0x82, 0x01, 0x81, 0x83, 0x61, 0x64, 0x06, 0x82, 0x00, 0x80]),
    (.detection (sampleConfig.detection 0 ⟨5, 6⟩), sampleDetectionBytes 0),
    (.detection (sampleConfig.detection 1 ⟨5, 6⟩), sampleDetectionBytes 1)]

def simulatorWire : WireCodec := eventWire sampleEvents

/-- Five turns of the loop: the four events, and the end. -/
def sampleLoop : List Turn := List.replicate 5 ⟨true, ⟨5, 6⟩, true, some false, none, none⟩

/-- The node's stream when the Connect is accepted. -/
def sampleStream : Stream := ⟨[.ok ([0, 0, 0, 19] ++ ackEnvelopeBytes)], none, []⟩

def sampleWritten : List UInt8 :=
  (simulate simulatorWire sampleConfig none (.ok sampleStream) sampleLoop).2.2

/-- A start of which the node reads so many bytes. -/
def sampleStart (n : ℕ) : Life :=
  .start none (.ok sampleStream) sampleLoop [sampleWritten.take n] none "peer"
    fun _ => ⟨⟨"a"⟩, ⟨"b"⟩, ⟨0, none⟩⟩

def sampleLives (s : EventIngestService) (lives : List Life) : EventIngestService :=
  lives.foldl (Life.apply simulatorWire tcp 65535 (fun _ _ => .ok ()) ⟨2⟩) s

end Life

end OtkCore.ProducerSimulated
