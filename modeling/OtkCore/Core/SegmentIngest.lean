import OtkCore.Core.EventCbor
import OtkCore.Core.SequentialIngest
import OtkCore.Ingest.Protocol
import OtkCore.SegmentLog.Acceptance
import OtkCore.SegmentLog.History

/-!
# Ingest into a segment log

`append_event` over the segment log itself. Where the log stands for an abstract
one this is the ingest service on that abstract log. Whether a detection is
stored depends on the group that it closes: the crossing lists every detection
of the group, and a group may have grown until no record can hold that list.
-/
namespace OtkCore

open Effect FileIO SegmentLog EventIngestService CrossingProcessor Minicbor

/-- The ingest service with a segment log as its event log. -/
structure SegmentIngest where
  log : Log
  processor : CrossingProcessor
  gate : SequenceGate
  metrics : List IngestMetric

namespace SegmentIngest

def new (log : Log) (config : ProcessorConfig) (gate : SequenceGate) : SegmentIngest :=
  ⟨log, .new config, gate, []⟩

/-- What the service makes of the outcome of its append. -/
def finish (s : SegmentIngest) (producerId : String) (pendingGap : Option (UInt64 × UInt64))
    (batch : List OtkEvent) (discardedId : CrossingId) (x : Except StorageError ℕ × Log) :
    Except StorageError AppendOutcome × SegmentIngest :=
  match x.1 with
  | .error e => (.error e, { s with log := x.2 })
  | .ok offset =>
    (.ok (.appended offset),
      { log := x.2
        gate := commitGate s.gate producerId batch
        processor := commitProcessor s.processor discardedId batch
        metrics := s.metrics ++ appendedMetrics producerId pendingGap batch })

/-- `append_event`; the two ids are those that the call draws. -/
def appendEvent (c : Codec) (s : SegmentIngest) (producerId : String) (event : OtkEvent)
    (crossingId discardedId : CrossingId) :
    Prog (Resp (N := FileName)) (Except StorageError AppendOutcome × SegmentIngest) :=
  match gateVerdict s.gate producerId event with
  | none =>
    .pure (.ok .droppedDuplicate,
      { s with metrics := s.metrics ++ duplicateMetrics producerId event })
  | some pendingGap =>
    let batch := event :: deriveCrossings s.processor crossingId event
    append c producerId batch s.log >>= fun x =>
      .pure (s.finish producerId pendingGap batch discardedId x)

end SegmentIngest

theorem finishes_bind_pure {α β : Type} {fails : Op FileName → Prop}
    {p : Prog (Resp (N := FileName)) α} {f : α → β} {d d' : Disk FileName} {b : β} :
    Finishes (Step fails) d (p >>= fun a => .pure (f a)) d' b ↔
      ∃ a, Finishes (Step fails) d p d' a ∧ f a = b := by
  constructor
  · rintro ⟨tr, hx⟩
    induction p generalizing d tr with
    | pure a =>
      cases hx
      exact ⟨a, ⟨[], .refl _ _⟩, rfl⟩
    | step o k ih =>
      cases hx with
      | step hs hrest =>
        obtain ⟨a, ⟨tr', hx'⟩, ha⟩ := ih _ _ hrest
        exact ⟨a, ⟨_, .step hs hx'⟩, ha⟩
  · rintro ⟨a, ⟨tr, hx⟩, rfl⟩
    exact ⟨tr, hx.bind _⟩

/-- Where the segment log stands for an abstract log, so does the service for the
ingest service on that log. -/
theorem SegmentIngest.refines {c : Codec} {s : SegmentIngest} {d d' : Disk FileName}
    {h : EventHistory} {w : World} (ht : Tracks c s.log d h w) {producerId : String}
    {event : OtkEvent} {crossingId discardedId : CrossingId}
    (hcod : Decodes c (event :: deriveCrossings s.processor crossingId event))
    {r : Except StorageError AppendOutcome} {s' : SegmentIngest}
    (hx : Finishes (Step NoFail) d (s.appendEvent c producerId event crossingId discardedId) d'
      (r, s')) :
    ∃ env w' h', Tracks c s'.log d' h' w' ∧
      EventIngestService.appendEvent ⟨h, s.processor, s.gate, s.metrics⟩ producerId event env =
        (r, ⟨h', s'.processor, s'.gate, s'.metrics⟩) := by
  unfold appendEvent at hx
  cases hgate : gateVerdict s.gate producerId event with
  | none =>
    rw [hgate] at hx
    obtain ⟨tr, hx⟩ := hx
    cases hx
    refine ⟨⟨crossingId, discardedId, 0, none⟩, w, h, ht, ?_⟩
    simp [EventIngestService.appendEvent, hgate]
  | some pendingGap =>
    rw [hgate] at hx
    obtain ⟨⟨r₀, l'⟩, happ, hfin⟩ := finishes_bind_pure.mp hx
    obtain ⟨ts, w', hr, ht'⟩ | ⟨err, w', hr, -, ht'⟩ := ht.append hcod happ
    · have hname : producerId ≠ "" := by
        rintro rfl
        obtain ⟨err, herr⟩ := append_refused (Or.inr rfl) happ
        rw [hr] at herr
        cases herr
      obtain rfl := hr
      obtain ⟨rfl, rfl⟩ := Prod.mk.inj hfin
      refine ⟨⟨crossingId, discardedId, ts, none⟩, w', _, ht', ?_⟩
      simp [EventIngestService.appendEvent, hgate, EventHistory.append, hname]
    · obtain rfl := hr
      obtain ⟨rfl, rfl⟩ := Prod.mk.inj hfin
      by_cases hname : producerId = ""
      · subst hname
        have hprog : append c "" (event :: deriveCrossings s.processor crossingId event) s.log =
            .pure (.error (.invalidInput "producer_id must not be empty"), s.log) := by
          unfold append appendCommit
          simp only [Proc.bind_apply, Proc.get_apply, Prog.pure_bind, ht.clean]
          rfl
        rw [hprog] at happ
        obtain ⟨tr, happ⟩ := happ
        cases happ
        refine ⟨⟨crossingId, discardedId, 0, none⟩, w', h, ht', ?_⟩
        simp [EventIngestService.appendEvent, hgate, EventHistory.append]
      · refine ⟨⟨crossingId, discardedId, 0, some err⟩, w', h, ht', ?_⟩
        simp [EventIngestService.appendEvent, hgate, EventHistory.append, hname]

def maxFrame : ℕ := 65535

/-- An event that a frame can carry: its CBOR, which is the shortest encoding of
it, fits into one. -/
def Framed (event : OtkEvent) : Prop := event.cbor.length ≤ maxFrame

def ProducerNamed (producerId : String) : Prop :=
  producerId ≠ "" ∧ (producerIdBytes producerId).length ≤ maxProducerIdBytes

def Drawn (crossingId : CrossingId) : Prop := crossingId.asStr.toByteArray.data.size = 36

/-- Events that arrive in frames are framed, if no encoding of an event is shorter
than the one the log uses. -/
theorem framed_of_process {w : WireCodec} {p : Ingest.PostHandshakeProcessor}
    {envelope : OtkEnvelope} {event : OtkEvent} {traceparent : Option String}
    (hshortest : ∀ bytes event, w.event.decode bytes = .ok event →
      event.cbor.length ≤ bytes.length)
    (hframe : ∀ payload, envelope.payload = some payload → payload.length ≤ maxFrame)
    (h : p.process w envelope = .ok (.event event traceparent)) : Framed event := by
  obtain ⟨-, -, -, -, payload, hpayload, hdecode⟩ := Ingest.process_eq_ok w h
  exact (hshortest payload event hdecode).trans (hframe payload hpayload)

def CrossingProcessor.closing (p : CrossingProcessor) (det : Detection) : Option PendingGroup :=
  det.subjectId.bind fun s =>
    if p.outsideWindow (det.timingPointId, s) det then p.pending.lookup (det.timingPointId, s)
    else none

/-- The length of the CBOR of a group's crossing, with an id of 36 bytes. -/
def PendingGroup.crossingLen (g : PendingGroup) : ℕ :=
  (OtkEvent.crossing (mapCrossing (g.commit ⟨String.ofList (List.replicate 36 '0')⟩))).cbor.length

theorem PendingGroup.length_commit (g : PendingGroup) {crossingId : CrossingId}
    (hdrawn : Drawn crossingId) :
    (OtkEvent.crossing (mapCrossing (g.commit crossingId))).cbor.length = g.crossingLen := by
  have hsize : (String.ofList (List.replicate 36 '0')).toByteArray.data.size = 36 := by decide
  unfold Drawn at hdrawn
  rw [crossingLen, CrossingEvent.length_cbor, CrossingEvent.length_cbor]
  simp only [mapCrossing, PendingGroup.commit, length_text, hdrawn, hsize]

/-- The groups whose crossings are stored with a detection: the one it closes, or
itself if it has no subject. -/
def CrossingProcessor.emitted (p : CrossingProcessor) (det : Detection) : List PendingGroup :=
  match det.subjectId with
  | none => [.single det]
  | some _ => (p.closing det).toList

theorem deriveCrossings_detection (p : CrossingProcessor) (crossingId : CrossingId)
    (det : Detection) :
    deriveCrossings p crossingId (.detection det) =
      (p.emitted det).map fun g => .crossing (mapCrossing (g.commit crossingId)) := by
  cases hs : det.subjectId with
  | none => simp [deriveCrossings, peekDetection, emitted, hs]
  | some s =>
    simp only [deriveCrossings, peekDetection, emitted, closing, hs, Option.bind_some]
    split_ifs
    · cases p.pending.lookup (det.timingPointId, s) <;> rfl
    · rfl

theorem length_optional_le (n : Option UInt64) :
    ((n.map fun n => uint n.toNat).getD null).length ≤ 9 := by
  cases n with
  | none => decide
  | some n => exact length_head_le _ _

/-- The crossing of a single detection is hardly longer than the detection. -/
theorem crossingLen_single_le {det : Detection} (hframed : Framed (.detection det)) :
    (PendingGroup.single det).crossingLen ≤ maxEventCbor := by
  have hsize : (String.ofList (List.replicate 36 '0')).toByteArray.data.size = 36 := by decide
  have hpeak : (PendingGroup.single det).detections.get ⟨pickPeakIndex [det],
      pickPeakIndex_lt (PendingGroup.single det).nonempty⟩ = det :=
    List.mem_singleton.mp (List.get_mem _ _)
  unfold Framed at hframed
  rw [Detection.length_cbor] at hframed
  rw [PendingGroup.crossingLen, CrossingEvent.length_cbor]
  generalize hcommit : (PendingGroup.single det).commit
    ⟨String.ofList (List.replicate 36 '0')⟩ = x
  have hid : x.crossingId.asStr = String.ofList (List.replicate 36 '0') := by rw [← hcommit]; rfl
  have htp : x.timingPointId = det.timingPointId := by rw [← hcommit]; rfl
  have hsubject : x.subjectId = det.subjectId := by rw [← hcommit]; rfl
  have hbase : x.timebaseId = det.timebaseId := by
    rw [← hcommit]
    exact congrArg Detection.timebaseId hpeak
  have hmethod : x.timestampingMethod = det.timestampingMethod := by
    rw [← hcommit]
    exact congrArg Detection.timestampingMethod hpeak
  have hattest : x.sourceAttestation = det.sourceAttestation := by
    rw [← hcommit]
    exact congrArg Detection.sourceAttestation hpeak
  have hids : x.detectionIds = [det.detectionId] := by rw [← hcommit]; rfl
  have hcrossed := length_head_le 0 x.crossedAtNs.toNat
  have hspan := length_optional_le x.crossedAtUncertaintyNs
  have hone := length_head_le 4 1
  have htext := length_head_le 3 36
  simp only [mapCrossing, hid, htp, hsubject, hbase, hmethod, hattest, hids, length_array,
    List.map_cons, List.map_nil, List.length_cons, List.length_nil, List.sum_cons, List.sum_nil,
    Nat.zero_add, length_text (String.ofList _), hsize, maxEventCbor, maxFrame, uint]
    at hframed hcrossed hspan ⊢
  omega

/-- What the log can still store of a detection: the crossing of the group that it
closes fits into a record, and there are offsets for it and its crossings. -/
structure Storable (s : SegmentIngest) (det : Detection) : Prop where
  crossing : ∀ g, s.processor.closing det = some g → g.crossingLen ≤ maxEventCbor
  offsets : s.log.nextOffset + (s.processor.emitted det).length + 1 < 2 ^ 64

section Storing

variable {c : Codec} (hc : c.encode = OtkEvent.cbor)

include hc

theorem accepts_detection_iff {s : SegmentIngest} {producerId : String}
    (hname : ProducerNamed producerId) {det : Detection} (hframed : Framed (.detection det))
    {crossingId : CrossingId} (hdrawn : Drawn crossingId) :
    Accepts c producerId s.log.nextOffset
        (.detection det :: deriveCrossings s.processor crossingId (.detection det)) ↔
      Storable s det := by
  have hown : (OtkEvent.detection det).cbor.length ≤ maxEventCbor :=
    le_trans hframed (by decide)
  have hcrossings : (∀ g ∈ s.processor.emitted det, g.crossingLen ≤ maxEventCbor) ↔
      ∀ g, s.processor.closing det = some g → g.crossingLen ≤ maxEventCbor := by
    cases hsub : det.subjectId with
    | none =>
      have hsingle := crossingLen_single_le hframed
      simp [CrossingProcessor.emitted, CrossingProcessor.closing, hsub, hsingle]
    | some subject => simp [CrossingProcessor.emitted, hsub]
  have hunfit : ¬ Unfit c producerId
      (.detection det :: deriveCrossings s.processor crossingId (.detection det)) ↔
      ∀ g ∈ s.processor.emitted det, g.crossingLen ≤ maxEventCbor := by
    have hlong : ¬ maxProducerIdBytes < (producerIdBytes producerId).length :=
      not_lt.mpr hname.2
    simp only [Unfit, hname.1, hlong, false_or, hc, deriveCrossings_detection, List.mem_cons,
      List.mem_map, exists_eq_or_imp, not_or, not_exists, not_and, not_lt]
    constructor
    · rintro ⟨-, hall⟩ g hg
      exact (g.length_commit hdrawn).symm.le.trans (hall _ ⟨g, hg, rfl⟩)
    · intro hall
      refine ⟨hown, ?_⟩
      rintro _ ⟨g, hg, rfl⟩
      exact (g.length_commit hdrawn).le.trans (hall g hg)
  have hlen : (OtkEvent.detection det :: deriveCrossings s.processor crossingId
      (.detection det)).length = (s.processor.emitted det).length + 1 := by
    simp [deriveCrossings_detection]
  constructor
  · rintro ⟨-, hfit, hroom⟩
    rw [hlen] at hroom
    exact ⟨hcrossings.mp (hunfit.mp hfit), by omega⟩
  · rintro ⟨hfit, hroom⟩
    refine ⟨List.cons_ne_nil _ _, hunfit.mpr (hcrossings.mpr hfit), ?_⟩
    rw [hlen]
    omega

omit hc in
theorem SegmentIngest.appendEvent_outcome {s : SegmentIngest} (hclean : s.log.poisoned = false)
    (hnext : s.log.nextOffset < 2 ^ 64) {producerId : String} {event : OtkEvent}
    {crossingId discardedId : CrossingId} {d d' : Disk FileName}
    {r : Except StorageError AppendOutcome} {s' : SegmentIngest}
    (hx : Finishes (Step NoFail) d (s.appendEvent c producerId event crossingId discardedId) d'
      (r, s')) :
    (s'.log.poisoned = false ∧ s'.log.nextOffset < 2 ^ 64) ∧
      ((gateVerdict s.gate producerId event).isSome = true →
        ((∃ n, r = .ok (.appended n)) ↔ Accepts c producerId s.log.nextOffset
          (event :: deriveCrossings s.processor crossingId event))) := by
  unfold appendEvent at hx
  cases hgate : gateVerdict s.gate producerId event with
  | none =>
    rw [hgate] at hx
    obtain ⟨tr, hx⟩ := hx
    cases hx
    exact ⟨⟨hclean, hnext⟩, fun hsome => by simp at hsome⟩
  | some pendingGap =>
    rw [hgate] at hx
    obtain ⟨⟨r₀, l'⟩, happ, hfin⟩ := finishes_bind_pure.mp hx
    obtain ⟨hclean', ⟨n, rfl, ⟨-, hnext'⟩, hacc⟩ | ⟨e, rfl, hnot⟩, hkept, -⟩ :=
      finishes_bare happ (calm_append hclean hnext producerId _)
    · obtain ⟨rfl, rfl⟩ := Prod.mk.inj hfin
      refine ⟨⟨hclean', ?_⟩, fun _ => ⟨fun _ => hacc, fun _ => ⟨n, rfl⟩⟩⟩
      have hroom := hacc.2.2
      change l'.nextOffset < 2 ^ 64
      rw [hnext']
      exact hroom
    · obtain ⟨rfl, rfl⟩ := Prod.mk.inj hfin
      refine ⟨⟨hclean', ?_⟩, fun _ => ⟨fun ⟨n, hn⟩ => (by cases hn), fun hacc => absurd hacc hnot⟩⟩
      change l'.nextOffset < 2 ^ 64
      rw [hkept e rfl]
      exact hnext

omit hc in
theorem SegmentIngest.appendEvent_appended {s : SegmentIngest} (hclean : s.log.poisoned = false)
    (hnext : s.log.nextOffset < 2 ^ 64) {producerId : String} {event : OtkEvent}
    {crossingId discardedId : CrossingId} {d d' : Disk FileName} {n : ℕ} {s' : SegmentIngest}
    (hx : Finishes (Step NoFail) d (s.appendEvent c producerId event crossingId discardedId) d'
      (.ok (.appended n), s')) :
    let batch := event :: deriveCrossings s.processor crossingId event
    s'.gate = commitGate s.gate producerId batch ∧
      s'.processor = commitProcessor s.processor discardedId batch ∧
      s'.log.nextOffset = s.log.nextOffset + batch.length ∧
      ∀ n k, headerLen ≤ n → Within n k s.log →
        Within (n + eventsLen c producerId batch) (k + batch.length) s'.log := by
  unfold appendEvent at hx
  cases hgate : gateVerdict s.gate producerId event with
  | none =>
    rw [hgate] at hx
    obtain ⟨tr, hx⟩ := hx
    cases hx
  | some pendingGap =>
    rw [hgate] at hx
    obtain ⟨⟨r₀, l'⟩, happ, hfin⟩ := finishes_bind_pure.mp hx
    obtain ⟨-, ⟨n, rfl, ⟨-, hnext'⟩, -⟩ | ⟨e, rfl, -⟩, -, hroom⟩ :=
      finishes_bare happ (calm_append hclean hnext producerId _)
    · obtain ⟨-, rfl⟩ := Prod.mk.inj hfin
      exact ⟨rfl, rfl, hnext', hroom⟩
    · obtain ⟨hr, -⟩ := Prod.mk.inj hfin
      cases hr

end Storing

/-- The service states that calls lead to, with the directory: the log has been
opened on some directory, no operation fails, and every event came in a frame
of a named producer. -/
inductive Reached (c : Codec) (config : ProcessorConfig) : SegmentIngest → Disk FileName → Prop
  | opened {logConfig : SegmentLogConfig} {l : Log} {gate : SequenceGate} {d₀ d : Disk FileName} :
      Finishes (Step NoFail) d₀ (openDir c logConfig) d (.ok l) →
      Reached c config (.new l config gate) d
  | call {s s' : SegmentIngest} {d d' : Disk FileName} {producerId : String} {event : OtkEvent}
      {crossingId discardedId : CrossingId} {r : Except StorageError AppendOutcome} :
      Reached c config s d → ProducerNamed producerId → Framed event → Drawn crossingId →
      Finishes (Step NoFail) d (s.appendEvent c producerId event crossingId discardedId) d'
        (r, s') →
      Reached c config s' d'

theorem Reached.usable {c : Codec} {config : ProcessorConfig} {s : SegmentIngest}
    {d : Disk FileName} (h : Reached c config s d) :
    s.log.poisoned = false ∧ s.log.nextOffset < 2 ^ 64 := by
  induction h with
  | opened hx => exact openDir_usable hx
  | call _ _ _ _ hx ih => exact (SegmentIngest.appendEvent_outcome ih.1 ih.2 hx).1

theorem gateVerdict_detection {gate : SequenceGate} {producerId : String} {det : Detection}
    (hnew : ¬ gate.Covers (producerId, det.detectorId) det.sequenceNumber) :
    (gateVerdict gate producerId (.detection det)).isSome = true := by
  rw [gateVerdict_isSome]
  rintro det' heq
  obtain rfl := OtkEvent.detection.inj heq
  exact hnew

section Deciding

variable {c : Codec} (hc : c.encode = OtkEvent.cbor) {config : ProcessorConfig}
  {s : SegmentIngest} {d : Disk FileName} (hs : Reached c config s d) {producerId : String}
  (hname : ProducerNamed producerId) {det : Detection} (hframed : Framed (.detection det))
  {crossingId discardedId : CrossingId} (hdrawn : Drawn crossingId)
  (hnew : ¬ s.gate.Covers (producerId, det.detectorId) det.sequenceNumber)

include hc hs hname hframed hdrawn hnew in
theorem Reached.appended_iff {d' : Disk FileName} {r : Except StorageError AppendOutcome}
    {s' : SegmentIngest}
    (hx : Finishes (Step NoFail) d
      (s.appendEvent c producerId (.detection det) crossingId discardedId) d' (r, s')) :
    (∃ n, r = .ok (.appended n)) ↔ Storable s det := by
  obtain ⟨hclean, hnext⟩ := hs.usable
  rw [(SegmentIngest.appendEvent_outcome hclean hnext hx).2 (gateVerdict_detection hnew)]
  exact accepts_detection_iff hc hname hframed hdrawn

include hnew in
theorem SegmentIngest.finishes_appendEvent
    (hroomy : Roomy c producerId (.detection det :: deriveCrossings s.processor crossingId
      (.detection det)) s.log) :
    ∃ d' x, Finishes (Step NoFail) d
      (s.appendEvent c producerId (.detection det) crossingId discardedId) d' x := by
  obtain ⟨pendingGap, hgate⟩ := Option.isSome_iff_exists.mp (gateVerdict_detection hnew)
  obtain ⟨d', x, hx, -⟩ := (flows_append hroomy).finishes d
  refine ⟨d', s.finish producerId pendingGap (.detection det :: deriveCrossings s.processor
    crossingId (.detection det)) discardedId x, ?_⟩
  unfold SegmentIngest.appendEvent
  rw [hgate]
  exact finishes_bind_pure.mpr ⟨x, hx, rfl⟩

end Deciding

/-- In every reachable state a detection that is no duplicate is stored exactly
when the crossing of the group that it closes fits into a record and offsets are
left; and while the files stay below the largest one, the call comes to its end. -/
theorem detection_appended_iff {c : Codec} (hc : c.encode = OtkEvent.cbor)
    {config : ProcessorConfig} {s : SegmentIngest} {d : Disk FileName} (hs : Reached c config s d)
    {producerId : String} (hname : ProducerNamed producerId) {det : Detection}
    (hframed : Framed (.detection det)) {crossingId discardedId : CrossingId}
    (hdrawn : Drawn crossingId)
    (hnew : ¬ s.gate.Covers (producerId, det.detectorId) det.sequenceNumber) :
    (∀ d' r s', Finishes (Step NoFail) d
        (s.appendEvent c producerId (.detection det) crossingId discardedId) d' (r, s') →
      ((∃ n, r = .ok (.appended n)) ↔ Storable s det)) ∧
    (Roomy c producerId (.detection det :: deriveCrossings s.processor crossingId
        (.detection det)) s.log →
      ∃ d' x, Finishes (Step NoFail) d
        (s.appendEvent c producerId (.detection det) crossingId discardedId) d' x) := by
  constructor
  · intro d' r s' hx
    exact hs.appended_iff hc hname hframed hdrawn hnew hx
  · intro hroomy
    exact SegmentIngest.finishes_appendEvent hnew hroomy

theorem size_replicate (n : ℕ) :
    (String.ofList (List.replicate n 'x')).toByteArray.data.size = n := by
  induction n with
  | zero => rfl
  | succ n ih =>
    have hcons : String.ofList (List.replicate (n + 1) 'x') =
        String.ofList ['x'] ++ String.ofList (List.replicate n 'x') := by
      rw [← String.ofList_append]
      rfl
    have hsize : ∀ b : ByteArray, b.data.size = b.size := fun _ => rfl
    rw [hsize] at ih ⊢
    rw [hcons, String.toByteArray_append, ByteArray.size_append, ih]
    have hone : (String.ofList ['x']).toByteArray.size = 1 := by decide
    omega

@[irreducible] def bulkyId : String :=
  String.ofList (List.replicate 60000 'x')

theorem length_bulkyId : 60000 ≤ (text bulkyId).length ∧ (text bulkyId).length ≤ 60009 := by
  have hsize := size_replicate 60000
  have hhead := length_head_le 3 60000
  unfold bulkyId
  rw [length_text, hsize]
  omega

def bulky (at' seq : UInt64) : Detection :=
  { loopDetection "" at' seq with detectionId := ⟨bulkyId⟩ }

/-- The texts, methods and sensor data of `bulky`. -/
theorem length_bulkyFields :
    (text "loop-1").length = 7 ∧ (text "tp").length = 3 ∧ (text "s").length = 2 ∧
      (text "gps-1").length = 6 ∧ null.length = 1 ∧
      TimestampingMethod.hardwareEventCapture.cbor.length = 3 ∧
      SourceAttestation.runtimeDiscovered.cbor.length = 3 ∧
      (SensorData.loopTransponder (some (-60)) none).cbor.length = 5 := by
  decide

theorem length_bulky (at' seq : UInt64) :
    (OtkEvent.detection (bulky at' seq)).cbor.length ≤ 60200 := by
  obtain ⟨-, hid⟩ := length_bulkyId
  obtain ⟨hdetector, htp, hsubject, hbase, hnull, hmethod, hattest, hsensor⟩ := length_bulkyFields
  have hat := length_head_le 0 at'.toNat
  have hseq := length_head_le 0 seq.toNat
  rw [Detection.length_cbor]
  change _ + ((text bulkyId).length + (text "loop-1").length + (text "tp").length + (text "s").length +
    (head 0 at'.toNat).length + null.length + null.length +
    TimestampingMethod.hardwareEventCapture.cbor.length + (text "gps-1").length +
    SourceAttestation.runtimeDiscovered.cbor.length + (head 0 seq.toNat).length +
    (SensorData.loopTransponder (some (-60)) none).cbor.length) ≤ _
  omega

theorem framed_bulky (at' seq : UInt64) : Framed (.detection (bulky at' seq)) :=
  (length_bulky at' seq).trans (by decide)

def Bulk (n : ℕ) (g : PendingGroup) : Prop :=
  g.detections.length = n ∧ ∀ det ∈ g.detections, ∃ seq, det = bulky 0 seq

theorem Bulk.length_ids {n : ℕ} {g : PendingGroup} (h : Bulk n g) :
    n * 60000 ≤ ((g.detections.map fun det => text det.detectionId.asStr).map List.length).sum ∧
      ((g.detections.map fun det => text det.detectionId.asStr).map List.length).sum ≤ n * 60009 := by
  have hids : (g.detections.map fun det => text det.detectionId.asStr) =
      List.replicate n (text bulkyId) := by
    refine List.eq_replicate_iff.mpr ⟨(List.length_map _).trans h.1, ?_⟩
    intro id hid
    obtain ⟨det, hdet, rfl⟩ := List.mem_map.mp hid
    obtain ⟨seq, rfl⟩ := h.2 det hdet
    rfl
  obtain ⟨hlow, hhigh⟩ := length_bulkyId
  rw [hids, List.map_replicate, List.sum_replicate_nat]
  exact ⟨Nat.mul_le_mul_left n hlow, Nat.mul_le_mul_left n hhigh⟩

theorem Bulk.crossingLen {n : ℕ} {g : PendingGroup} (h : Bulk n g) :
    n * 60000 ≤ g.crossingLen ∧ g.crossingLen ≤ n * 60009 + 200 := by
  have hsize : (String.ofList (List.replicate 36 '0')).toByteArray.data.size = 36 := by decide
  obtain ⟨-, htp, hsubject, hbase, -, hmethod, hattest, -⟩ := length_bulkyFields
  obtain ⟨hlow, hhigh⟩ := h.length_ids
  obtain ⟨seq, hfirst⟩ := h.2 _ (List.head_mem g.nonempty)
  obtain ⟨seq', hpeak⟩ := h.2 _ (List.get_mem g.detections
    ⟨pickPeakIndex g.detections, pickPeakIndex_lt g.nonempty⟩)
  rw [PendingGroup.crossingLen, CrossingEvent.length_cbor]
  generalize hcommit : g.commit ⟨String.ofList (List.replicate 36 '0')⟩ = x
  have hid : x.crossingId.asStr = String.ofList (List.replicate 36 '0') := by rw [← hcommit]; rfl
  have htp' : x.timingPointId = ⟨"tp"⟩ := by
    rw [← hcommit]
    exact congrArg Detection.timingPointId hfirst
  have hsubject' : x.subjectId = some ⟨"s"⟩ := by
    rw [← hcommit]
    exact congrArg Detection.subjectId hfirst
  have hbase' : x.timebaseId = ⟨"gps-1"⟩ := by
    rw [← hcommit]
    exact congrArg Detection.timebaseId hpeak
  have hmethod' : x.timestampingMethod = .hardwareEventCapture := by
    rw [← hcommit]
    exact congrArg Detection.timestampingMethod hpeak
  have hattest' : x.sourceAttestation = .runtimeDiscovered := by
    rw [← hcommit]
    exact congrArg Detection.sourceAttestation hpeak
  have hids : x.detectionIds.map (fun id => text id.asStr) =
      g.detections.map fun det => text det.detectionId.asStr := by
    rw [← hcommit]
    exact List.map_map
  have hcrossed := length_head_le 0 x.crossedAtNs.toNat
  have hspan := length_optional_le x.crossedAtUncertaintyNs
  have hcount := length_head_le 4 (g.detections.map fun det => text det.detectionId.asStr).length
  have htext := length_head_le 3 36
  simp only [mapCrossing, hid, htp', hsubject', hbase', hmethod', hattest', hids, length_array,
    Option.map_some, Option.getD_some, htp, hsubject, hbase, hmethod, hattest,
    length_text (String.ofList _), hsize, uint] at hcrossed hspan ⊢
  omega

def cborCodec : Codec := ⟨OtkEvent.cbor, fun _ => .error "", crc32, fun _ => ""⟩

def bulkKey : GroupKey := (⟨"tp"⟩, ⟨"s"⟩)

def bulkCrossingId : CrossingId := ⟨String.ofList (List.replicate 36 '0')⟩

theorem drawn_bulkCrossingId : Drawn bulkCrossingId := by
  unfold Drawn bulkCrossingId
  decide

theorem producerNamed_p : ProducerNamed "p" := by
  unfold ProducerNamed
  decide

/-- The service after `n` of the bulky detections. -/
structure Grown (n : ℕ) (s : SegmentIngest) (d : Disk FileName) : Prop where
  reached : Reached cborCodec {} s d
  gate : ∀ seq, s.gate.Covers ("p", ⟨"loop-1"⟩) seq → seq.toNat ≤ n
  config : s.processor.config = {}
  group : (n = 0 ∧ s.processor.pending.lookup bulkKey = none) ∨
    ∃ g, s.processor.pending.lookup bulkKey = some g ∧ Bulk n g
  offset : s.log.nextOffset = n
  room : Within (headerLen + n * 61000) n s.log

theorem grown_zero :
    Grown 0 (.new ⟨{}, [], none, 0, false⟩ {} .new) .empty where
  reached := .opened (finishes_openDir_empty {})
  gate := by
    rintro seq ⟨hw, hlookup, -⟩
    cases hlookup
  config := rfl
  group := Or.inl ⟨rfl, rfl⟩
  offset := rfl
  room := fun a ha => by cases ha

theorem Bulk.first {n : ℕ} {g : PendingGroup} (h : Bulk n g) : g.firstDetectedAtNs = 0 := by
  obtain ⟨seq, hfirst⟩ := h.2 _ (List.head_mem g.nonempty)
  exact congrArg Detection.detectedAtNs hfirst

theorem Grown.outsideWindow {n : ℕ} {s : SegmentIngest} {d : Disk FileName} (h : Grown n s d)
    (seq : UInt64) : s.processor.outsideWindow bulkKey (bulky 0 seq) = false := by
  obtain ⟨-, hlookup⟩ | ⟨g, hlookup, hbulk⟩ := h.group
  · simp [CrossingProcessor.outsideWindow, hlookup]
  · simp only [CrossingProcessor.outsideWindow, hlookup, hbulk.first, h.config]
    change decide ((2000000000 : UInt64) < satSub 0 0) = false
    decide

theorem Grown.new {n : ℕ} {s : SegmentIngest} {d : Disk FileName} (h : Grown n s d)
    {m : ℕ} (hn : n < m) (hm : m < 2 ^ 64) (at' : UInt64) :
    ¬ s.gate.Covers ("p", (bulky at' (UInt64.ofNat m)).detectorId)
      (bulky at' (UInt64.ofNat m)).sequenceNumber := by
  intro hcovers
  have hle : (UInt64.ofNat m).toNat ≤ n := h.gate _ hcovers
  rw [UInt64.toNat_ofNat_of_lt' hm] at hle
  omega

theorem eventsLen_p (events : List OtkEvent) :
    eventsLen cborCodec "p" events = (events.map fun event => 31 + event.cbor.length).sum := by
  have hp : (producerIdBytes "p").length = 1 := by decide
  unfold eventsLen
  rw [hp]
  rfl

theorem length_bulkyEvents (at' seq : UInt64) :
    eventsLen cborCodec "p" [.detection (bulky at' seq)] ≤ 61000 := by
  have hbulky := length_bulky at' seq
  rw [eventsLen_p, List.map_cons, List.map_nil, List.sum_cons, List.sum_nil]
  omega

section Step

variable {n : ℕ} {s : SegmentIngest} {d : Disk FileName} (h : Grown n s d)

include h

theorem Grown.closing (seq : UInt64) : s.processor.closing (bulky 0 seq) = none := by
  have hsubject : (bulky 0 seq).subjectId = some ⟨"s"⟩ := rfl
  have hkey : ((bulky 0 seq).timingPointId, (⟨"s"⟩ : SubjectId)) = bulkKey := rfl
  simp [CrossingProcessor.closing, hsubject, hkey, h.outsideWindow seq]

theorem Grown.emitted (seq : UInt64) : s.processor.emitted (bulky 0 seq) = [] := by
  have hsubject : (bulky 0 seq).subjectId = some ⟨"s"⟩ := rfl
  simp [CrossingProcessor.emitted, hsubject, h.closing seq]

theorem Grown.roomy (hn : n < 2 ^ 32) (seq : UInt64) :
    Roomy cborCodec "p" [.detection (bulky 0 seq)] s.log := by
  have hlen := length_bulkyEvents 0 seq
  refine h.room.roomy (Nat.le_add_right _ _) ?_ ?_
  · unfold headerLen maxFileLen
    omega
  · unfold maxFileLen
    simp only [List.length_singleton]
    omega

theorem Grown.group_step (seq : UInt64) (discardedId : CrossingId) :
    ∃ g, (s.processor.commitDetection (bulky 0 seq) discardedId).2.pending.lookup bulkKey = some g ∧
      Bulk (n + 1) g := by
  have hkey : CrossingProcessor.groupKey (bulky 0 seq) = some bulkKey := rfl
  rw [CrossingProcessor.lookup_commitDetection, if_pos hkey, CrossingProcessor.opensGroup,
    h.outsideWindow seq, Bool.or_false]
  obtain ⟨rfl, hgroup⟩ | ⟨g, hgroup, hlength, hall⟩ := h.group
  · refine ⟨.single (bulky 0 seq), by simp [hgroup], rfl, ?_⟩
    intro det hdet
    exact ⟨seq, List.mem_singleton.mp hdet⟩
  · refine ⟨g.push (bulky 0 seq), by simp [hgroup], by simp [PendingGroup.push, hlength], ?_⟩
    intro det hdet
    rcases List.mem_append.mp hdet with hdet | hdet
    · exact hall det hdet
    · exact ⟨seq, List.mem_singleton.mp hdet⟩

theorem Grown.step (hn : n < 2 ^ 32) : ∃ s' d', Grown (n + 1) s' d' := by
  have hnew := h.new (Nat.lt_succ_self n) (by omega) 0
  have hseq : (UInt64.ofNat (n + 1)).toNat = n + 1 :=
    UInt64.toNat_ofNat_of_lt' (show n + 1 < 2 ^ 64 by omega)
  generalize UInt64.ofNat (n + 1) = seq at hnew hseq
  have hcrossings : deriveCrossings s.processor bulkCrossingId (.detection (bulky 0 seq)) = [] := by
    rw [deriveCrossings_detection, h.emitted seq, List.map_nil]
  have hroomy := h.roomy hn seq
  rw [← hcrossings] at hroomy
  obtain ⟨d', ⟨r, s'⟩, hx⟩ : ∃ d' x, Finishes (Step NoFail) d
      (s.appendEvent cborCodec "p" (.detection (bulky 0 seq)) bulkCrossingId ⟨""⟩) d' x :=
    SegmentIngest.finishes_appendEvent hnew hroomy
  have hstorable : Storable s (bulky 0 seq) := by
    constructor
    · intro g hg
      rw [h.closing seq] at hg
      cases hg
    · rw [h.emitted seq, h.offset, List.length_nil]
      omega
  obtain ⟨k, rfl⟩ := (h.reached.appended_iff rfl producerNamed_p (framed_bulky 0 seq)
    drawn_bulkCrossingId hnew hx).mpr hstorable
  obtain ⟨hclean, hnext⟩ := h.reached.usable
  obtain ⟨hgate, hprocessor, hoffset, hwithin⟩ :=
    SegmentIngest.appendEvent_appended hclean hnext hx
  rw [hcrossings] at hgate hprocessor hoffset hwithin
  refine ⟨s', d', ?_⟩
  constructor
  · exact h.reached.call producerNamed_p (framed_bulky 0 seq) drawn_bulkCrossingId hx
  · intro seq' hcovers
    rw [hgate] at hcovers
    rcases (SequenceGate.covers_commit _ _ _ _ _).mp hcovers with hold | ⟨-, hle⟩
    · exact (h.gate seq' hold).trans (Nat.le_succ n)
    · have hseq' : seq'.toNat ≤ seq.toNat := hle
      rwa [hseq] at hseq'
  · rw [hprocessor]
    exact (CrossingProcessor.config_commitDetection _ _ _).trans h.config
  · right
    rw [hprocessor]
    exact h.group_step seq _
  · rw [hoffset, h.offset]
    rfl
  · have hlen := length_bulkyEvents 0 seq
    refine (hwithin _ _ (Nat.le_add_right _ _) h.room).mono ?_ (Nat.le_refl _)
    omega

end Step

theorem exists_grown (n : ℕ) (hn : n < 2 ^ 32) : ∃ s d, Grown n s d := by
  induction n with
  | zero => exact ⟨_, _, grown_zero⟩
  | succ n ih =>
    obtain ⟨s, d, h⟩ := ih (by omega)
    exact h.step (by omega)

theorem Grown.closing_far {n : ℕ} {s : SegmentIngest} {d : Disk FileName} (h : Grown n s d)
    {g : PendingGroup} (hlookup : s.processor.pending.lookup bulkKey = some g) (hbulk : Bulk n g)
    (seq : UInt64) : s.processor.closing (bulky 10000000000 seq) = some g := by
  have hsubject : (bulky 10000000000 seq).subjectId = some ⟨"s"⟩ := rfl
  have hkey : ((bulky 10000000000 seq).timingPointId, (⟨"s"⟩ : SubjectId)) = bulkKey := rfl
  have hout : s.processor.outsideWindow bulkKey (bulky 10000000000 seq) = true := by
    simp only [CrossingProcessor.outsideWindow, hlookup, hbulk.first, h.config]
    change decide ((2000000000 : UInt64) < satSub 10000000000 0) = true
    decide
  rw [CrossingProcessor.closing, hsubject, Option.bind_some, hkey, hout, if_pos rfl, hlookup]

theorem Grown.emitted_far {n : ℕ} {s : SegmentIngest} {d : Disk FileName} (h : Grown n s d)
    {g : PendingGroup} (hlookup : s.processor.pending.lookup bulkKey = some g) (hbulk : Bulk n g)
    (seq : UInt64) : s.processor.emitted (bulky 10000000000 seq) = [g] := by
  have hsubject : (bulky 10000000000 seq).subjectId = some ⟨"s"⟩ := rfl
  have hclosing := h.closing_far hlookup hbulk seq
  simp [CrossingProcessor.emitted, hsubject, hclosing]

/-- The files stay far from the largest one when the group is closed. -/
theorem Grown.roomy_far {n : ℕ} {s : SegmentIngest} {d : Disk FileName} (h : Grown n s d)
    (hn : n ≤ 70) {g : PendingGroup} (hlookup : s.processor.pending.lookup bulkKey = some g)
    (hbulk : Bulk n g) (seq : UInt64) :
    Roomy cborCodec "p" (.detection (bulky 10000000000 seq) ::
      deriveCrossings s.processor bulkCrossingId (.detection (bulky 10000000000 seq))) s.log := by
  have hemitted := h.emitted_far hlookup hbulk seq
  obtain ⟨-, hhigh⟩ := hbulk.crossingLen
  have hbulky := length_bulky 10000000000 seq
  have hcommit := g.length_commit drawn_bulkCrossingId
  have hlen : eventsLen cborCodec "p" (.detection (bulky 10000000000 seq) ::
      deriveCrossings s.processor bulkCrossingId (.detection (bulky 10000000000 seq))) ≤
        5000000 := by
    rw [deriveCrossings_detection, hemitted, eventsLen_p]
    simp only [List.map_cons, List.map_nil, List.sum_cons, List.sum_nil, hcommit]
    omega
  refine h.room.roomy (Nat.le_add_right _ _) ?_ ?_
  · unfold headerLen maxFileLen
    omega
  · have hcount : (deriveCrossings s.processor bulkCrossingId
        (.detection (bulky 10000000000 seq))).length = 1 := by
      rw [deriveCrossings_detection, hemitted]
      rfl
    rw [List.length_cons, hcount]
    unfold maxFileLen
    omega

/-- Seventy detections that frames can carry, for one key at one time: the next one
outside the window is no duplicate, its append comes to an end without a failed
operation, and it is not stored. -/
theorem grown_group_wedges :
    ∃ s d det, Reached cborCodec {} s d ∧ Framed (.detection det) ∧
      ¬ s.gate.Covers ("p", det.detectorId) det.sequenceNumber ∧
      (∃ d' x, Finishes (Step NoFail) d
        (s.appendEvent cborCodec "p" (.detection det) bulkCrossingId ⟨""⟩) d' x) ∧
      ∀ d' r s', Finishes (Step NoFail) d
          (s.appendEvent cborCodec "p" (.detection det) bulkCrossingId ⟨""⟩) d' (r, s') →
        ¬ ∃ n, r = .ok (.appended n) := by
  obtain ⟨s, d, h⟩ := exists_grown 70 (by decide)
  obtain ⟨hzero, -⟩ | ⟨g, hlookup, hbulk⟩ := h.group
  · cases hzero
  have hnew := h.new (show 70 < 71 by decide) (by decide) 10000000000
  generalize UInt64.ofNat 71 = seq at hnew
  have hclosing := h.closing_far hlookup hbulk seq
  obtain ⟨hlow, hhigh⟩ := hbulk.crossingLen
  refine ⟨s, d, bulky 10000000000 seq, h.reached, framed_bulky _ _, hnew, ?_, ?_⟩
  · exact SegmentIngest.finishes_appendEvent hnew (h.roomy_far (Nat.le_refl _) hlookup hbulk seq)
  · intro d' r s' hx happended
    have hstorable := (h.reached.appended_iff rfl producerNamed_p (framed_bulky _ _)
      drawn_bulkCrossingId hnew hx).mp happended
    have hfits := hstorable.crossing g hclosing
    unfold maxEventCbor at hfits
    omega

/-- A detection that closes a group of two is stored with the crossing of the group. -/
theorem detection_appended_closing :
    ∃ (s : SegmentIngest) (d : Disk FileName) (det : Detection),
      deriveCrossings s.processor bulkCrossingId (.detection det) ≠ [] ∧
      ∃ d' n s', Finishes (Step NoFail) d
        (s.appendEvent cborCodec "p" (.detection det) bulkCrossingId ⟨""⟩) d'
          (.ok (.appended n), s') := by
  obtain ⟨s, d, h⟩ := exists_grown 2 (by decide)
  obtain ⟨hzero, -⟩ | ⟨g, hlookup, hbulk⟩ := h.group
  · cases hzero
  have hnew := h.new (show 2 < 3 by decide) (by decide) 10000000000
  generalize UInt64.ofNat 3 = seq at hnew
  have hemitted := h.emitted_far hlookup hbulk seq
  obtain ⟨-, hhigh⟩ := hbulk.crossingLen
  obtain ⟨hiff, hends⟩ := detection_appended_iff rfl h.reached producerNamed_p
    (framed_bulky 10000000000 seq) drawn_bulkCrossingId hnew
  obtain ⟨d', ⟨r, s'⟩, hx⟩ := hends (h.roomy_far (by decide) hlookup hbulk seq)
  have hstorable : Storable s (bulky 10000000000 seq) := by
    constructor
    · intro g' hg'
      rw [h.closing_far hlookup hbulk seq] at hg'
      obtain rfl := Option.some.inj hg'
      unfold maxEventCbor
      omega
    · rw [hemitted, h.offset, List.length_singleton]
      decide
  obtain ⟨n, rfl⟩ := (hiff d' r s' hx).mpr hstorable
  refine ⟨s, d, bulky 10000000000 seq, ?_, d', n, s', hx⟩
  rw [deriveCrossings_detection, hemitted]
  simp

end OtkCore
