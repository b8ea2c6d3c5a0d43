import OtkCore.Ingest.Authenticity
import OtkCore.Ingest.Producer
import OtkCore.Core.Restart

/-!
# A producer that comes back

A producer keeps its detections and sends them again from some place on when it
reconnects. Its connections are cut anywhere, the node is restarted between
them, appends fail, and other producers are served meanwhile. As long as it
never skips a detection that is not stored, its detections are stored in order,
each once.
-/
namespace OtkCore.Ingest

open EventIngestService FrameCodec Decoding FileIO

/-- Append events under a producer id until an append fails. -/
def submit (producerId : String) : (ℕ → IngestEnv) → EventIngestService → List OtkEvent →
    EventIngestService
  | _, s, [] => s
  | env, s, event :: events =>
    match s.appendEvent producerId event (env 0) with
    | (.ok _, s') => submit producerId (fun n => env (n + 1)) s' events
    | (.error _, s') => s'

theorem drain_of_event {l : Listener} {w : WireCodec} {session session' : Session}
    {incoming : IncomingEvent} (h : nextEvent l w session = (.ok (some incoming), session')) :
    (drain l w session).1 = incoming :: (drain l w session').1 := by
  rw [drain_eq, h]

theorem drain_of_end {l : Listener} {w : WireCodec} {session session' : Session}
    (h : nextEvent l w session = (.ok none, session')) : (drain l w session).1 = [] := by
  rw [drain_eq, h]

theorem drain_of_error {l : Listener} {w : WireCodec} {session session' : Session}
    {e : IngestError} (h : nextEvent l w session = (.error e, session')) :
    (drain l w session).1 = [] := by
  rw [drain_eq, h]

theorem handleSession_eq_submit (l : Listener) (w : WireCodec) (producerId : String)
    (env : ℕ → IngestEnv) (s : EventIngestService) (session : Session) :
    handleSession l w producerId env s session =
      submit producerId env s ((drain l w session).1.map IncomingEvent.event) := by
  fun_induction handleSession l w producerId env s session with
  | case1 env s session incoming session' hnext outcome s' happ ih =>
    rw [drain_of_event hnext, List.map_cons, submit, happ]
    exact ih
  | case2 env s session incoming session' hnext e s' happ =>
    rw [drain_of_event hnext, List.map_cons, submit, happ]
  | case3 env s session session' hnext =>
    rw [drain_of_end hnext, List.map_nil, submit]
  | case4 env s session e session' hnext =>
    rw [drain_of_error hnext, List.map_nil, submit]

section Cut

variable {w : WireCodec}

/-- The frames of the front of a stream are the first ones of the stream. -/
theorem resultsOf_prefix (w : WireCodec) (max : ℕ) {bytes bytes' : List UInt8}
    (h : bytes <+: bytes') : resultsOf w max bytes <+: resultsOf w max bytes' := by
  obtain ⟨rest, rfl⟩ := h
  have hresumes := resumes_parseFrames w.envelope max bytes rest
  rw [resultsOf, resultsOf, hresumes]
  exact List.prefix_append _ _

theorem deliver_isPrefix (w : WireCodec) (p : PostHandshakeProcessor)
    {envelopes envelopes' : List OtkEnvelope} (h : envelopes <+: envelopes') :
    (deliver w p envelopes).1 <+: (deliver w p envelopes').1 := by
  obtain ⟨rest, rfl⟩ := h
  rw [deliver_append]
  cases deliver w p envelopes with
  | mk events ending =>
    cases ending with
    | some ending => exact List.prefix_refl events
    | none => exact List.prefix_append events _

theorem isPrefix_of_map_ok {envelopes envelopes' : List OtkEnvelope}
    (h : envelopes.map (Except.ok : OtkEnvelope → FrameResult) <+: envelopes'.map .ok) :
    envelopes <+: envelopes' := by
  obtain ⟨rest, hrest⟩ := h
  obtain ⟨front, back, rfl, hfront, -⟩ := List.map_eq_append_iff.mp hrest.symm
  obtain rfl : front = envelopes := List.map_injective_iff.mpr (fun _ _ => Except.ok.inj) hfront
  exact List.prefix_append _ _

/-- A session over the front of what a producer writes belongs to that producer and
delivers the first of its events. -/
theorem cut_session (hw : w.Inverts) (l : Listener) {config : ProducerConfig} {max : ℕ}
    {traceparent : Option String} {authoriser : ConnectAuthoriser} {payload frame : List UInt8}
    (hframe : encodeStream w.envelope
      (makeEnvelope ⟨config.producerId⟩ .connect (some payload) traceparent) max = .ok frame)
    {bytes : List UInt8} {events : List IncomingEvent}
    (hwrites : Writes w ⟨config.producerId⟩ max bytes events) {chunks : List (List UInt8)}
    (hchunks : ∀ chunk ∈ chunks, chunk ≠ []) (hcut : chunks.flatten <+: frame ++ bytes)
    {sink : Option IoErrorKind} {sent : List UInt8} {peerAddr : String} {session : Session}
    {stream : Stream}
    (h : handshake l w ⟨chunks.map .ok, sink, sent⟩ peerAddr max authoriser =
      (.ok session, stream)) :
    session.producerId = config.producerId ∧ (drain l w session).1 <+: events := by
  obtain ⟨connectEnv, rest, err, reply, hclean, hauth, hpid, hdrain⟩ :=
    handshake_ok l w hchunks h
  obtain ⟨-, hproc, -⟩ := handshake_accepted w hauth
  obtain ⟨envelopes, frames, hframes, rfl, hdeliver⟩ := hwrites
  have hparse := parseFrames_encoded hw.envelope max (.cons hframe hframes) []
  rw [List.append_nil, parseFrames_nil, List.append_nil, List.flatten_cons] at hparse
  have hread := (clean_spec (batches (StreamFrameDecoder.push w.envelope) (.new max) chunks)).1
  rw [hclean, batches_flatten_eq] at hread
  have hall : (connectEnv :: rest).map (Except.ok : OtkEnvelope → FrameResult) <+:
      (makeEnvelope ⟨config.producerId⟩ .connect (some payload) traceparent :: envelopes).map
        .ok := by
    have hwhole := resultsOf_prefix w max hcut
    rw [resultsOf, resultsOf, hparse] at hwhole
    exact ((hread.map _).trans (goodPrefix_isPrefix _)).trans hwhole
  obtain ⟨rfl, hrest⟩ := List.cons_prefix_cons.mp (isPrefix_of_map_ok hall)
  rw [hproc] at hpid hdrain
  refine ⟨hpid, ?_⟩
  rw [hdrain]
  have hbegins := deliver_isPrefix w ⟨⟨config.producerId⟩, protocolVersion⟩ hrest
  rcases hdeliver with hdeliver | hdeliver
  · rwa [hdeliver] at hbegins
  · rwa [hdeliver] at hbegins

end Cut

/-- The gate covers what is in the log and nothing else. -/
def Settled (s : EventIngestService) : Prop :=
  ∀ key seq, s.gate.Covers key seq ↔
    ∃ det, (key.1, det) ∈ s.log.detections ∧ det.detectorId = key.2 ∧ seq ≤ det.sequenceNumber

theorem settled_restart (config : ProcessorConfig) (log : EventHistory) :
    Settled (restart config log) := by
  intro key seq
  have hgate : (restart config log).gate = SequenceGate.new.seedFromLog log.entries := by
    simp only [restart, EventIngestService.new, SequenceGate.seedFromPort_eq]
  have htracks := SequenceGate.tracks_seed log key
  rw [hgate]
  constructor
  · rintro ⟨hw, hlook, hle⟩
    obtain ⟨det, hdet, hid, rfl⟩ := (htracks.1 hw hlook).1
    exact ⟨det, hdet, hid, hle⟩
  · rintro ⟨det, hdet, hid, hle⟩
    cases hlook : (SequenceGate.new.seedFromLog log.entries).highWater.lookup key with
    | none =>
      have hmem : det.sequenceNumber ∈ log.sequenceNumbers key := ⟨det, hdet, hid, rfl⟩
      rw [htracks.2 hlook] at hmem
      exact absurd hmem (Set.notMem_empty _)
    | some hw =>
      have hgreatest := (htracks.1 hw hlook).2 ⟨det, hdet, hid, rfl⟩
      exact ⟨hw, hlook, UInt64.le_trans hle hgreatest⟩

theorem appendEvent_detections (s : EventIngestService) (producerId : String) (event : OtkEvent)
    (env : IngestEnv) :
    (s.Persists producerId event env →
      (s.appendEvent producerId event env).2.log.detections =
        s.log.detections ++ (event.detection?.toList.map fun det => (producerId, det))) ∧
    (¬ s.Persists producerId event env →
      (s.appendEvent producerId event env).2.log.detections = s.log.detections) := by
  constructor
  · intro h
    obtain ⟨hlog, -, -⟩ := appendEvent_of_persists h
    rw [hlog, EventHistory.detections_snoc, List.filterMap_cons,
      filterMap_detection?_derive]
    cases event.detection? <;> rfl
  · intro h
    rw [(appendEvent_of_not_persists h).1]

theorem Settled.appendEvent {s : EventIngestService} (h : Settled s) (producerId : String)
    (event : OtkEvent) (env : IngestEnv) : Settled (s.appendEvent producerId event env).2 := by
  intro key seq
  obtain ⟨hadd, hkeep⟩ := appendEvent_detections s producerId event env
  by_cases hp : s.Persists producerId event env
  · obtain ⟨-, hgate, -⟩ := appendEvent_of_persists hp
    rw [hadd hp, hgate]
    cases event with
    | detection det =>
      rw [commitGate, SequenceGate.covers_commit, h key seq]
      simp only [OtkEvent.detection?_detection, Option.toList_some, List.map_cons, List.map_nil,
        List.mem_append, List.mem_singleton, Prod.mk.injEq]
      grind
    | _ => simpa [commitGate, OtkEvent.detection?] using h key seq
  · obtain ⟨-, hgate, -⟩ := appendEvent_of_not_persists hp
    rw [hkeep hp, hgate]
    exact h key seq

def Rising (backlog : List Detection) : Prop :=
  backlog.Pairwise fun a b => a.detectorId = b.detectorId → a.sequenceNumber < b.sequenceNumber

instance (backlog : List Detection) : Decidable (Rising backlog) :=
  inferInstanceAs (Decidable (List.Pairwise _ backlog))

def storedOf (producerId : String) (s : EventIngestService) : List Detection :=
  (s.log.detections.filter fun x => x.1 = producerId).map Prod.snd

theorem mem_storedOf {producerId : String} {s : EventIngestService} {det : Detection} :
    det ∈ storedOf producerId s ↔ (producerId, det) ∈ s.log.detections := by
  simp [storedOf]

/-- The first `k` detections of the backlog are stored, and no others. -/
structure Holds (producerId : String) (backlog : List Detection) (k : ℕ)
    (s : EventIngestService) : Prop where
  settled : Settled s
  le_length : k ≤ backlog.length
  stored : storedOf producerId s = backlog.take k

section Backlog

variable {producerId : String} {backlog : List Detection} {k : ℕ} {s : EventIngestService}

theorem Holds.length_stored (h : Holds producerId backlog k s) :
    (storedOf producerId s).length = k := by
  rw [h.stored, List.length_take, Nat.min_eq_left h.le_length]

/-- A call that is not for the producer, or adds no detection, changes nothing for it. -/
theorem Holds.appendEvent_other (h : Holds producerId backlog k s) {producerId' : String}
    {event : OtkEvent} (hother : producerId' ≠ producerId ∨ event.detection? = none)
    (env : IngestEnv) : Holds producerId backlog k (s.appendEvent producerId' event env).2 where
  settled := h.settled.appendEvent producerId' event env
  le_length := h.le_length
  stored := by
    obtain ⟨hadd, hkeep⟩ := appendEvent_detections s producerId' event env
    rw [← h.stored]
    by_cases hp : s.Persists producerId' event env
    · rw [storedOf, hadd hp]
      rcases hother with hne | hnone
      · simp [storedOf, hne]
      · simp [storedOf, hnone]
    · rw [storedOf, hkeep hp, storedOf]

theorem Holds.restart (h : Holds producerId backlog k s) (config : ProcessorConfig) :
    Holds producerId backlog k (restart config s.log) where
  settled := settled_restart config s.log
  le_length := h.le_length
  stored := h.stored

theorem Holds.appendEvent_known (h : Holds producerId backlog k s) {j : ℕ} {old det : Detection}
    (hj : backlog[j]? = some old) (hlt : j < k) (hid : old.detectorId = det.detectorId)
    (hseq : old.sequenceNumber = det.sequenceNumber) (env : IngestEnv) :
    (s.appendEvent producerId (.detection det) env).1 = .ok .droppedDuplicate ∧
      Holds producerId backlog k (s.appendEvent producerId (.detection det) env).2 := by
  have hmem : old ∈ storedOf producerId s := by
    rw [h.stored]
    apply List.mem_of_getElem? (i := j)
    rw [List.getElem?_take, if_pos hlt, hj]
  have hcovers : s.gate.Covers (producerId, det.detectorId) det.sequenceNumber :=
    (h.settled _ _).mpr ⟨old, mem_storedOf.mp hmem, hid, by rw [hseq]; exact UInt64.le_refl _⟩
  have hnone : gateVerdict s.gate producerId (.detection det) = none := by
    rw [← Option.not_isSome_iff_eq_none, gateVerdict_isSome]
    exact fun hnot => hnot det rfl hcovers
  have hnot : ¬ s.Persists producerId (.detection det) env := by
    rw [persists_iff, hnone]
    simp
  refine ⟨by simp [appendEvent, hnone], h.settled.appendEvent _ _ _, h.le_length, ?_⟩
  rw [storedOf, (appendEvent_detections s producerId (.detection det) env).2 hnot]
  exact h.stored

theorem Holds.next_accepted (h : Holds producerId backlog k s) (hrising : Rising backlog)
    {det : Detection} (hk : backlog[k]? = some det) :
    (gateVerdict s.gate producerId (.detection det)).isSome = true := by
  rw [gateVerdict_isSome]
  rintro det' ⟨⟩ hcovers
  obtain ⟨old, hold, hid, hle⟩ := (h.settled _ _).mp hcovers
  have hmem := mem_storedOf.mpr hold
  rw [h.stored] at hmem
  obtain ⟨j, hj⟩ := List.mem_iff_getElem?.mp hmem
  rw [List.getElem?_take] at hj
  split_ifs at hj with hlt
  obtain ⟨hjlen, hjget⟩ := List.getElem?_eq_some_iff.mp hj
  obtain ⟨hklen, hkget⟩ := List.getElem?_eq_some_iff.mp hk
  have hless := List.pairwise_iff_getElem.mp hrising j k hjlen hklen hlt
  rw [hjget, hkget] at hless
  exact UInt64.not_le.mpr (hless hid) hle

/-- The next detection of the backlog is stored unless the append fails. -/
theorem Holds.appendEvent_next (h : Holds producerId backlog k s) (hrising : Rising backlog)
    {det : Detection} (hk : backlog[k]? = some det) (env : IngestEnv) :
    (s.Persists producerId (.detection det) env ∧
      Holds producerId backlog (k + 1) (s.appendEvent producerId (.detection det) env).2) ∨
    ((producerId = "" ∨ env.append.failure ≠ none) ∧
      ∃ e, s.appendEvent producerId (.detection det) env = (.error e, s)) := by
  have hsome := h.next_accepted hrising hk
  by_cases hp : s.Persists producerId (.detection det) env
  · refine .inl ⟨hp, h.settled.appendEvent _ _ _, ?_, ?_⟩
    · obtain ⟨hklen, -⟩ := List.getElem?_eq_some_iff.mp hk
      omega
    · have hadd := (appendEvent_detections s producerId (.detection det) env).1 hp
      have hstored := h.stored
      rw [storedOf] at hstored ⊢
      rw [hadd, List.take_add_one, hk, List.filter_append, List.map_append, hstored]
      simp
  · have hwhy := mt (persists_iff s producerId (.detection det) env).mpr hp
    rcases s.appendEvent_cases producerId (.detection det) env with
      ⟨hnone, -⟩ | herror | ⟨-, o, -, hok, -⟩
    · simp [hnone] at hsome
    · refine .inr ⟨?_, herror⟩
      by_contra hboth
      rw [not_or, not_not] at hboth
      exact hwhy ⟨hsome, hboth⟩
    · exact absurd ⟨o, hok⟩ hp

theorem submit_cons_ok {env : ℕ → IngestEnv} {event : OtkEvent} {events : List OtkEvent}
    {outcome : AppendOutcome} (h : (s.appendEvent producerId event (env 0)).1 = .ok outcome) :
    submit producerId env s (event :: events) = submit producerId (fun n => env (n + 1))
      (s.appendEvent producerId event (env 0)).2 events := by
  rw [submit]
  cases hcall : s.appendEvent producerId event (env 0) with
  | mk r s' =>
    rw [hcall] at h
    obtain rfl : r = .ok outcome := h
    rfl

theorem submit_cons_error {env : ℕ → IngestEnv} {event : OtkEvent} {events : List OtkEvent}
    {e : StorageError} (h : s.appendEvent producerId event (env 0) = (.error e, s)) :
    submit producerId env s (event :: events) = s := by
  rw [submit, h]

/-- An event that is no detection is stored unless the append fails. -/
theorem Holds.appendEvent_plain (h : Holds producerId backlog k s) {event : OtkEvent}
    (hplain : event.detection? = none) (env : IngestEnv) :
    ((∃ o, (s.appendEvent producerId event env).1 = .ok (.appended o)) ∧
      Holds producerId backlog k (s.appendEvent producerId event env).2) ∨
    ((producerId = "" ∨ env.append.failure ≠ none) ∧
      ∃ e, s.appendEvent producerId event env = (.error e, s)) := by
  have hsome : (gateVerdict s.gate producerId event).isSome = true := by
    rw [gateVerdict_isSome]
    rintro det rfl
    simp at hplain
  by_cases hp : s.Persists producerId event env
  · exact .inl ⟨hp, h.appendEvent_other (.inr hplain) env⟩
  · have hwhy := mt (persists_iff s producerId event env).mpr hp
    rcases s.appendEvent_cases producerId event env with
      ⟨hnone, -⟩ | herror | ⟨-, o, -, hok, -⟩
    · simp [hnone] at hsome
    · refine .inr ⟨?_, herror⟩
      by_contra hboth
      rw [not_or, not_not] at hboth
      exact hwhy ⟨hsome, hboth⟩
    · exact absurd ⟨o, hok⟩ hp

/-- Detections that are numbered as those of the backlog from `start` on, and are the
very ones from `k` on. -/
def Follows (backlog : List Detection) (k start : ℕ) (dets : List Detection) : Prop :=
  ∀ i det, dets[i]? = some det → ∃ old, backlog[start + i]? = some old ∧
    old.detectorId = det.detectorId ∧ old.sequenceNumber = det.sequenceNumber ∧
      (k ≤ start + i → old = det)

theorem follows_front {start : ℕ} {dets : List Detection} (h : dets <+: backlog.drop start) :
    Follows backlog k start dets := by
  intro i det hget
  obtain ⟨rest, hrest⟩ := h
  obtain ⟨hlen, -⟩ := List.getElem?_eq_some_iff.mp hget
  have hold : backlog[start + i]? = some det := by
    rw [← List.getElem?_drop, ← hrest, List.getElem?_append_left hlen, hget]
  exact ⟨det, hold, rfl, rfl, fun _ => rfl⟩

theorem Follows.tail {start : ℕ} {det : Detection} {dets : List Detection}
    (h : Follows backlog k start (det :: dets)) {k' : ℕ} (hk : k ≤ k') :
    Follows backlog k' (start + 1) dets := by
  intro i later hget
  obtain ⟨old, hold, hid, hseq, hsame⟩ := h (i + 1) later (by simpa using hget)
  have hplace : start + 1 + i = start + (i + 1) := by omega
  rw [hplace]
  exact ⟨old, hold, hid, hseq, fun hle => hsame (hk.trans hle)⟩

/-- A session that resumes at a place up to which everything is stored moves on in
the backlog; if no append fails, to the last detection it delivers. -/
theorem Holds.submit (h : Holds producerId backlog k s) (hrising : Rising backlog)
    (env : ℕ → IngestEnv) {start : ℕ} (hstart : start ≤ k) (events : List OtkEvent)
    (hevents : Follows backlog k start (events.filterMap OtkEvent.detection?)) :
    ∃ k', k ≤ k' ∧ Holds producerId backlog k' (submit producerId env s events) ∧
      (producerId ≠ "" → (∀ n, (env n).append.failure = none) →
        k' = max k (start + (events.filterMap OtkEvent.detection?).length)) := by
  induction events generalizing s k start env with
  | nil =>
    refine ⟨k, Nat.le_refl k, h, fun _ _ => ?_⟩
    simpa using hstart
  | cons event events ih =>
    cases hdet : event.detection? with
    | none =>
      rw [List.filterMap_cons_none hdet] at hevents ⊢
      rcases h.appendEvent_plain hdet (env 0) with ⟨⟨o, hok⟩, hnext⟩ | ⟨hwhy, e, herror⟩
      · obtain ⟨k', hle, hholds, hall⟩ := ih hnext (fun n => env (n + 1)) hstart hevents
        refine ⟨k', hle, ?_, fun hpid hclean => hall hpid fun n => hclean (n + 1)⟩
        rwa [submit_cons_ok hok]
      · refine ⟨k, Nat.le_refl k, by rwa [submit_cons_error herror], fun hpid hclean => ?_⟩
        rcases hwhy with hempty | hfailed
        · exact absurd hempty hpid
        · exact absurd (hclean 0) hfailed
    | some det =>
      obtain rfl := OtkEvent.eq_of_detection? hdet
      rw [List.filterMap_cons_some hdet] at hevents ⊢
      obtain ⟨old, hget, hid, hseq, hsame⟩ := hevents 0 det rfl
      rw [Nat.add_zero] at hget hsame
      by_cases hknown : start < k
      · -- The detection is sent again.
        obtain ⟨hdrop, hkeep⟩ := h.appendEvent_known hget hknown hid hseq (env 0)
        obtain ⟨k', hle, hholds, hall⟩ :=
          ih hkeep (fun n => env (n + 1)) hknown (hevents.tail (Nat.le_refl k))
        refine ⟨k', hle, by rwa [submit_cons_ok hdrop], fun hpid hclean => ?_⟩
        have hk' := hall hpid fun n => hclean (n + 1)
        rw [List.length_cons]
        omega
      · -- It is the first one that is not stored.
        obtain rfl : start = k := by omega
        obtain rfl := hsame (Nat.le_refl start)
        rcases h.appendEvent_next hrising hget (env 0) with
          ⟨⟨o, hok⟩, hnext⟩ | ⟨hwhy, e, herror⟩
        · obtain ⟨k', hle, hholds, hall⟩ :=
            ih hnext (fun n => env (n + 1)) (Nat.le_refl _) (hevents.tail (Nat.le_succ start))
          refine ⟨k', by omega, by rwa [submit_cons_ok hok], fun hpid hclean => ?_⟩
          have hk' := hall hpid fun n => hclean (n + 1)
          rw [List.length_cons]
          omega
        · refine ⟨start, Nat.le_refl _, by rwa [submit_cons_error herror], fun hpid hclean => ?_⟩
          rcases hwhy with hempty | hfailed
          · exact absurd hempty hpid
          · exact absurd (hclean 0) hfailed

end Backlog

section Life

variable (w : WireCodec) (l : Listener) (config : ProducerConfig) (max : ℕ)
  (authoriser : ConnectAuthoriser) (processor : ProcessorConfig)

/-- What a producer writes over one connection: its Connect, the messages of its
calls, and a Disconnect. -/
def written (traceparent last : Option String) (calls : List Producer.Call) : List UInt8 :=
  (Producer.runCalls w ⟨(Producer.request w config traceparent ⟨[], none, []⟩).2,
    ⟨config.producerId⟩, 0⟩ last calls).sent

def eventsOf (calls : List Producer.Call) : List OtkEvent :=
  (calls.filterMap Producer.Call.incoming).map IncomingEvent.event

/-- A connection of the producer that resumes at `start`, of which the node reads
`chunks`; a call of another producer; or a restart of the node. -/
inductive Turn
  | connection (start : ℕ) (traceparent last : Option String) (calls : List Producer.Call)
    (chunks : List (List UInt8)) (sink : Option IoErrorKind) (peerAddr : String)
    (env : ℕ → IngestEnv)
  | other (call : IngestCall)
  | restart

/-- The node reads `chunks` from a connection and ingests what it finds. -/
def serve (s : EventIngestService) (chunks : List (List UInt8)) (sink : Option IoErrorKind)
    (peerAddr : String) (env : ℕ → IngestEnv) : EventIngestService :=
  match handshake l w ⟨chunks.map .ok, sink, []⟩ peerAddr max authoriser with
  | (.error _, _) => s
  | (.ok session, _) => handleSession l w session.producerId env s session

def Turn.apply (s : EventIngestService) : Turn → EventIngestService
  | connection _ _ _ _ chunks sink peerAddr env =>
    serve w l max authoriser s chunks sink peerAddr env
  | other call => s.ingest call
  | restart => OtkCore.restart processor s.log

def runTurns (s : EventIngestService) (turns : List Turn) : EventIngestService :=
  turns.foldl (Turn.apply w l max authoriser processor) s

/-- The node reads the front of what the producer writes, whose detections come next
in the backlog from a place on that is not behind the `k` stored ones. -/
def Turn.Sound (backlog : List Detection) (k : ℕ) : Turn → Prop
  | connection start traceparent last calls chunks _ _ _ =>
    start ≤ k ∧ ConnectFits w config traceparent ∧ AllFit w ⟨config.producerId⟩ 0 calls ∧
      (eventsOf calls).filterMap OtkEvent.detection? <+: backlog.drop start ∧
      (∀ chunk ∈ chunks, chunk ≠ []) ∧ chunks.flatten <+: written w config traceparent last calls
  | other call => call.producerId ≠ config.producerId
  | restart => True

def Sound (backlog : List Detection) : EventIngestService → List Turn → Prop
  | _, [] => True
  | s, turn :: turns =>
    turn.Sound w config backlog (storedOf config.producerId s).length ∧
      Sound backlog (turn.apply w l max authoriser processor s) turns

variable {w l config max authoriser processor}

/-- The bytes of a connection are the frame of the Connect and frames that deliver the
events of the calls. -/
theorem written_eq (hw : w.Inverts) (hmax : maxFrameBytes ≤ max) {traceparent : Option String}
    (hconnect : ConnectFits w config traceparent) (last : Option String)
    {calls : List Producer.Call} (hcalls : AllFit w ⟨config.producerId⟩ 0 calls) :
    ∃ payload frame bytes, w.connect.encode (connectOf config) = .ok payload ∧
      encodeStream w.envelope
        (makeEnvelope ⟨config.producerId⟩ .connect (some payload) traceparent) max = .ok frame ∧
      written w config traceparent last calls = frame ++ bytes ∧
      Writes w ⟨config.producerId⟩ max bytes
        ((calls.filterMap Producer.Call.incoming).take (2 ^ 64)) := by
  obtain ⟨payload, frame, hpay, hframe, hrequest⟩ := hconnect.request hmax
  obtain ⟨bytes, hsent, hwrites⟩ := runCalls_writes hw hmax last calls
    ⟨⟨[], none, frame⟩, ⟨config.producerId⟩, 0⟩ rfl (by norm_num) hcalls
  refine ⟨payload, frame, bytes, hpay, hframe, ?_, hwrites⟩
  rw [written, hrequest []]
  exact hsent

/-- A connection that is accepted and read to its end delivers all its events. -/
theorem accepted_session (hw : w.Inverts) (hreplies : RepliesFit w) (hmax : maxFrameBytes ≤ max)
    (hauth : authoriser ⟨config.producerId⟩ config.authToken = .ok ())
    {traceparent : Option String} {payload frame : List UInt8}
    (hpay : w.connect.encode (connectOf config) = .ok payload)
    (hframe : encodeStream w.envelope
      (makeEnvelope ⟨config.producerId⟩ .connect (some payload) traceparent) max = .ok frame)
    {bytes : List UInt8} {events : List IncomingEvent}
    (hwrites : Writes w ⟨config.producerId⟩ max bytes events) {chunks : List (List UInt8)}
    (hcut : Cuts chunks (frame ++ bytes)) (peerAddr : String) :
    ∃ session stream,
      handshake l w ⟨chunks.map .ok, none, []⟩ peerAddr max authoriser = (.ok session, stream) ∧
      session.producerId = config.producerId ∧ (drain l w session).1 = events := by
  obtain ⟨ack, hack, hfit⟩ := hreplies.ack
  obtain ⟨reply, -, -, hreply, -⟩ := hfit.frame hmax
  have hperform := performServerHandshake_connect hw.connect hpay traceparent authoriser
  simp only [hauth, buildAckEnvelope, hack, bind, Except.bind, pure, Except.pure] at hperform
  have hbegins : chunks.flatten <+: frame ++ bytes := by
    rw [hcut.2]
  obtain ⟨envelopes, frames, hframes, rfl, hdeliver⟩ := hwrites
  obtain ⟨hclean, -⟩ := clean_encoded w max hw.envelope (.cons hframe hframes) hcut.2
  obtain ⟨pending, decoder, later, hlater, hread, -⟩ := readConnect_some l w hcut.1 hclean
  have hshake : ∃ session stream,
      handshake l w ⟨chunks.map .ok, none, []⟩ peerAddr max authoriser =
        (.ok session, stream) := by
    simp only [handshake, hread, hperform, sendEnvelope, hreply]
    exact ⟨_, _, rfl⟩
  obtain ⟨session, stream, hshake⟩ := hshake
  refine ⟨session, stream, hshake, ?_, ?_⟩
  · exact (cut_session hw l hframe ⟨envelopes, frames, hframes, rfl, hdeliver⟩ hcut.1 hbegins
      hshake).1
  · obtain ⟨connectEnv, rest, err, _, hclean', hauth', -, hdrain⟩ := handshake_ok l w hcut.1 hshake
    rw [hclean] at hclean'
    obtain ⟨hhead, -⟩ := Prod.mk.inj hclean'
    obtain ⟨rfl, rfl⟩ := List.cons.inj hhead
    obtain ⟨-, hproc, -⟩ := handshake_accepted w hauth'
    rw [hdrain, hproc]
    rcases hdeliver with hdeliver | hdeliver
    · exact congrArg Prod.fst hdeliver
    · exact congrArg Prod.fst hdeliver

/-- Of the front of what a producer writes the node ingests the first events. -/
theorem serve_cut (hw : w.Inverts) (l : Listener) (config : ProducerConfig)
    (authoriser : ConnectAuthoriser) {traceparent : Option String} {payload frame : List UInt8}
    (hframe : encodeStream w.envelope
      (makeEnvelope ⟨config.producerId⟩ .connect (some payload) traceparent) max = .ok frame)
    {bytes : List UInt8} {events : List IncomingEvent}
    (hwrites : Writes w ⟨config.producerId⟩ max bytes events) {chunks : List (List UInt8)}
    (hchunks : ∀ chunk ∈ chunks, chunk ≠ []) (hcut : chunks.flatten <+: frame ++ bytes)
    (s : EventIngestService) (sink : Option IoErrorKind) (peerAddr : String)
    (env : ℕ → IngestEnv) :
    serve w l max authoriser s chunks sink peerAddr env = s ∨
    ∃ first, first <+: events ∧ serve w l max authoriser s chunks sink peerAddr env =
      submit config.producerId env s (first.map IncomingEvent.event) := by
  rw [serve]
  split
  · exact .inl rfl
  · rename_i session stream hshake
    obtain ⟨hpid, hdrain⟩ := cut_session hw l hframe hwrites hchunks hcut hshake
    right
    rw [hpid, handleSession_eq_submit]
    exact ⟨_, hdrain, rfl⟩

/-- Of all that an accepted producer writes the node ingests all events. -/
theorem serve_whole (hw : w.Inverts) (config : ProducerConfig) (hreplies : RepliesFit w)
    (hmax : maxFrameBytes ≤ max)
    (hauth : authoriser ⟨config.producerId⟩ config.authToken = .ok ())
    {traceparent : Option String} {payload frame : List UInt8}
    (hpay : w.connect.encode (connectOf config) = .ok payload)
    (hframe : encodeStream w.envelope
      (makeEnvelope ⟨config.producerId⟩ .connect (some payload) traceparent) max = .ok frame)
    {bytes : List UInt8} {events : List IncomingEvent}
    (hwrites : Writes w ⟨config.producerId⟩ max bytes events) {chunks : List (List UInt8)}
    (hcut : Cuts chunks (frame ++ bytes)) (s : EventIngestService) (peerAddr : String)
    (env : ℕ → IngestEnv) :
    serve w l max authoriser s chunks none peerAddr env =
      submit config.producerId env s (events.map IncomingEvent.event) := by
  obtain ⟨session, stream, hshake, hown, hdrain⟩ :=
    accepted_session (l := l) hw hreplies hmax hauth hpay hframe hwrites hcut peerAddr
  rw [serve, hshake]
  dsimp only
  rw [hown, handleSession_eq_submit, hdrain]

/-- After a connection the detections stored are still the first of the backlog. -/
theorem Holds.connection (hw : w.Inverts) (hmax : maxFrameBytes ≤ max) {backlog : List Detection}
    (hrising : Rising backlog) {k : ℕ} {s : EventIngestService}
    (h : Holds config.producerId backlog k s) {turn : Turn}
    (hturn : turn.Sound w config backlog k) :
    ∃ k', k ≤ k' ∧
      Holds config.producerId backlog k' (turn.apply w l max authoriser processor s) := by
  cases turn with
  | connection start traceparent last calls chunks sink peerAddr env =>
    obtain ⟨hstart, hconnect, hcalls, hevents, hchunks, hcut⟩ := hturn
    obtain ⟨payload, frame, bytes, -, hframe, hwritten, hwrites⟩ :=
      written_eq hw hmax hconnect last hcalls
    rw [hwritten] at hcut
    rw [Turn.apply]
    rcases serve_cut hw l config authoriser hframe hwrites hchunks hcut s sink
        peerAddr env with hsame | ⟨first, hfirst, hserve⟩
    · rw [hsame]
      exact ⟨k, Nat.le_refl k, h⟩
    · have hall := hfirst.trans (List.take_prefix _ _)
      have hbegins := ((hall.map IncomingEvent.event).filterMap OtkEvent.detection?).trans hevents
      obtain ⟨k', hle, hholds, -⟩ :=
        h.submit hrising env hstart _ (follows_front hbegins)
      rw [hserve]
      exact ⟨k', hle, hholds⟩
  | other call => exact ⟨k, Nat.le_refl k, h.appendEvent_other (.inl hturn) call.env⟩
  | restart => exact ⟨k, Nat.le_refl k, h.restart processor⟩

theorem Holds.turns (hw : w.Inverts) (hmax : maxFrameBytes ≤ max) {backlog : List Detection}
    (hrising : Rising backlog) {k : ℕ} {s : EventIngestService}
    (h : Holds config.producerId backlog k s) {turns : List Turn}
    (hturns : Sound w l config max authoriser processor backlog s turns) :
    ∃ k', k ≤ k' ∧ Holds config.producerId backlog k'
      (runTurns w l max authoriser processor s turns) := by
  induction turns generalizing s k with
  | nil => exact ⟨k, Nat.le_refl k, h⟩
  | cons turn turns ih =>
    obtain ⟨hturn, hrest⟩ := hturns
    rw [h.length_stored] at hturn
    obtain ⟨k₁, hle, hnext⟩ := h.connection hw hmax hrising hturn
    obtain ⟨k₂, hle', hlast⟩ := ih hnext hrest
    exact ⟨k₂, hle.trans hle', hlast⟩

/-- Event `n` of a connection with its payload, and what is written for it. -/
def eventEnvelope (n : ℕ) (payload : List UInt8) : OtkEnvelope :=
  ⟨0, .event, ⟨"p"⟩, none, some (.ofNat n), none, some payload, none⟩

def eventEnvelopeBytes (n : ℕ) (payload : List UInt8) : List UInt8 :=
  [0x87, 0x00, 0x82, 0x00, 0x80, 0x61, 0x70, 0xf6, .ofNat n, 0xf6] ++
    (if payload.length < 24 then [0x80 + .ofNat payload.length]
      else [0x98, .ofNat payload.length]) ++
    payload.flatMap fun b => if b < 24 then [b] else [0x18, b]

/-- The sample wire for a producer of these few events. -/
def eventWire (events : List (OtkEvent × List UInt8)) : WireCodec :=
  { producerWire with
    envelope := .ofTable ([(connectEnvelope, connectEnvelopeBytes),
      (ackEnvelope, ackEnvelopeBytes), (disconnectEnvelope, disconnectEnvelopeBytes),
      (rejectEnvelope 0, rejectEnvelopeBytes 0), (rejectEnvelope 1, rejectEnvelopeBytes 1),
      (rejectEnvelope 2, rejectEnvelopeBytes 2), (rejectEnvelope 3, rejectEnvelopeBytes 3)] ++
      events.zipIdx.map fun x => (eventEnvelope x.2 x.1.2, eventEnvelopeBytes x.2 x.1.2))
    event := .ofTable events }

theorem eventWire_inverts {events : List (OtkEvent × List UInt8)}
    (hevents : (events.map Prod.snd).Nodup)
    (henvelopes : ([connectEnvelopeBytes, ackEnvelopeBytes, disconnectEnvelopeBytes,
      rejectEnvelopeBytes 0, rejectEnvelopeBytes 1, rejectEnvelopeBytes 2, rejectEnvelopeBytes 3] ++
      events.zipIdx.map fun x => eventEnvelopeBytes x.2 x.1.2).Nodup) :
    (eventWire events).Inverts :=
  { producerWire_inverts with
    envelope := Cbor.inverts_ofTable (by simpa [Function.comp_def] using henvelopes)
    event := Cbor.inverts_ofTable hevents }

theorem eventWire_repliesFit (events : List (OtkEvent × List UInt8)) :
    RepliesFit (eventWire events) where
  ack := ⟨ackBytes, rfl, ackEnvelopeBytes, rfl, by decide⟩
  reject reason := by
    cases reason with
    | versionNotSupported => exact ⟨rejectBytes 0, rfl, rejectEnvelopeBytes 0, rfl, by decide⟩
    | producerIdAlreadyConnected =>
      exact ⟨rejectBytes 1, rfl, rejectEnvelopeBytes 1, rfl, by decide⟩
    | unauthorized => exact ⟨rejectBytes 2, rfl, rejectEnvelopeBytes 2, rfl, by decide⟩
    | serverFull => exact ⟨rejectBytes 3, rfl, rejectEnvelopeBytes 3, rfl, by decide⟩

/-- Two detections of a producer, and what is written for them. -/
def sampleDetection (n : ℕ) : Detection :=
  ⟨⟨"1"⟩, ⟨"d"⟩, ⟨"tp"⟩, none, 0, none, none, .manualEntry, ⟨"tb"⟩, .operatorAsserted, .ofNat n,
    .beamBreak⟩

def sampleDetectionBytes (n : ℕ) : List UInt8 :=
  [0x82, 0x00, 0x81, 0x8c, 0x61, 0x31, 0x61, 0x64, 0x62, 0x74, 0x70, 0xf6, 0x00, 0xf6, 0xf6, 0x82,
  0x03, 0x80, 0x62, 0x74, 0x62, 0x82, 0x01, 0x80, .ofNat n, 0x82, 0x01, 0x80]

def sampleBacklog : List Detection := [sampleDetection 0, sampleDetection 1]

def backlogWire : WireCodec :=
  eventWire [(.detection (sampleDetection 0), sampleDetectionBytes 0),
    (.detection (sampleDetection 1), sampleDetectionBytes 1)]

def backlogCalls : List Producer.Call :=
  [.event (.detection (sampleDetection 0)) none, .event (.detection (sampleDetection 1)) none]

def sampleEnv : ℕ → IngestEnv := fun _ => ⟨⟨"a"⟩, ⟨"b"⟩, ⟨0, none⟩⟩

def sampleWritten (calls : List Producer.Call) : List UInt8 :=
  written backlogWire ⟨"p", [], 65535, none⟩ none none calls

/-- A connection that is cut in the middle of the second detection, and a restart. -/
def sampleTurns : List Turn :=
  [.connection 0 none none backlogCalls [(sampleWritten backlogCalls).take 100] none "peer"
    sampleEnv, .restart]

/-- A connection with the first of the calls, or with all of them, that is read to its end. -/
def sampleConnection (n : ℕ) : Turn :=
  .connection 0 none none (backlogCalls.take n) [sampleWritten (backlogCalls.take n)] none "peer"
    sampleEnv

def sampleNode (s : EventIngestService) (turns : List Turn) : EventIngestService :=
  runTurns backlogWire tcp 65535 (fun _ _ => .ok ()) ⟨2⟩ s turns

end Life

end OtkCore.Ingest
