import OtkCore.Core.SequenceGate
import OtkCore.Core.CrossingProcessor

/-!
# Event ingest service

`appendEvent` decides with the gate, derives crossings with a processor peek,
appends one batch, and only then commits gate, processor and metrics. The five
accesses to shared state are also available one at a time (`advance`), since
no lock spans them; the whole call is their sequential composition.
-/
namespace OtkCore

inductive AppendOutcome
  | appended (offset : ℕ)
  | droppedDuplicate
  deriving DecidableEq, Repr

inductive IngestMetric
  | eventAppended (producerId kind : String)
  | duplicateDropped (producerId detectorId : String)
  | sequenceGap (producerId detectorId : String)
  deriving DecidableEq, Repr

structure EventIngestService where
  log : EventHistory
  processor : CrossingProcessor
  gate : SequenceGate
  metrics : List IngestMetric

def eventKindLabel : OtkEvent → String
  | .detection _ => "Detection"
  | .detectorHealth _ => "DetectorHealth"
  | .timebaseStatus _ => "TimebaseStatus"
  | .adapterMetadata _ => "AdapterMetadata"
  | .crossing _ => "Crossing"

def mapCrossing (c : Crossing) : CrossingEvent :=
  { crossingId := c.crossingId
    timingPointId := c.timingPointId
    subjectId := c.subjectId
    crossedAtNs := c.crossedAtNs
    crossedAtUncertaintyNs := c.crossedAtUncertaintyNs
    timebaseId := c.timebaseId
    timestampingMethod := c.timestampingMethod
    sourceAttestation := c.sourceAttestation
    detectionIds := c.detectionIds }

/-- What is not determined by the service: the two crossing ids drawn at random
(the second one's crossing is discarded) and the outcome of the append. -/
structure IngestEnv where
  crossingId : CrossingId
  discardedId : CrossingId
  append : EventHistory.AppendEnv
  deriving DecidableEq

namespace EventIngestService

def new (log : EventHistory) (config : ProcessorConfig) (gate : SequenceGate) :
    EventIngestService :=
  ⟨log, CrossingProcessor.new config, gate, []⟩

/-- Phase 1. `none` drops the event as a duplicate; otherwise the observed gap
is remembered until the append has succeeded. -/
def gateVerdict (gate : SequenceGate) (producerId : String) : OtkEvent →
    Option (Option (UInt64 × UInt64))
  | .detection det =>
    match gate.peek producerId det with
    | .accept | .advance _ => some none
    | .gap expected got => some (some (expected, got))
    | .duplicate _ _ => none
  | _ => some none

/-- Phase 2: the crossings a commit of the event would emit. -/
def deriveCrossings (p : CrossingProcessor) (crossingId : CrossingId) : OtkEvent → List OtkEvent
  | .detection det => (p.peekDetection det crossingId).map fun c => .crossing (mapCrossing c)
  | _ => []

def commitGate (gate : SequenceGate) (producerId : String) : List OtkEvent → SequenceGate
  | .detection det :: _ => gate.commit producerId det
  | _ => gate

/-- Phase 3, second half; the returned crossings are discarded. -/
def commitProcessor (p : CrossingProcessor) (discardedId : CrossingId) :
    List OtkEvent → CrossingProcessor
  | .detection det :: _ => (p.commitDetection det discardedId).2
  | _ => p

def duplicateMetrics (producerId : String) : OtkEvent → List IngestMetric
  | .detection det => [.duplicateDropped producerId det.detectorId.asStr]
  | _ => []

/-- Metrics of a persisted batch: a deferred gap, the event, its crossings. -/
def appendedMetrics (producerId : String) (pendingGap : Option (UInt64 × UInt64)) :
    List OtkEvent → List IngestMetric
  | [] => []
  | event :: derived =>
    (match event, pendingGap with
      | .detection det, some _ => [.sequenceGap producerId det.detectorId.asStr]
      | _, _ => []) ++
    .eventAppended producerId (eventKindLabel event) ::
      (derived.filterMap OtkEvent.crossing?).map
        fun _ => .eventAppended "<timing-core>" "Crossing"

def appendEvent (s : EventIngestService) (producerId : String) (event : OtkEvent)
    (env : IngestEnv) : Except StorageError AppendOutcome × EventIngestService :=
  match gateVerdict s.gate producerId event with
  | none =>
    (.ok .droppedDuplicate, { s with metrics := s.metrics ++ duplicateMetrics producerId event })
  | some pendingGap =>
    let batch := event :: deriveCrossings s.processor env.crossingId event
    match s.log.append producerId batch env.append with
    | (.error e, log) => (.error e, { s with log := log })
    | (.ok offset, log) =>
      (.ok (.appended offset),
        { log := log
          gate := commitGate s.gate producerId batch
          processor := commitProcessor s.processor env.discardedId batch
          metrics := s.metrics ++ appendedMetrics producerId pendingGap batch })

theorem gateVerdict_isSome (gate : SequenceGate) (producerId : String) (event : OtkEvent) :
    (gateVerdict gate producerId event).isSome = true ↔
      ∀ det, event = .detection det →
        ¬ gate.Covers (producerId, det.detectorId) det.sequenceNumber := by
  cases event with
  | detection det =>
    have h := gate.peek_persist_iff producerId det
    simp only [OtkEvent.detection.injEq, forall_eq', ← h, gateVerdict]
    cases gate.peek producerId det <;> simp [GateDecision.persist]
  | _ => simp [gateVerdict]

/-- A call drops a duplicate, fails and leaves log, gate and processor alone,
or persists one batch and commits. -/
theorem appendEvent_cases (s : EventIngestService) (producerId : String) (event : OtkEvent)
    (env : IngestEnv) :
    (gateVerdict s.gate producerId event = none ∧
      (s.appendEvent producerId event env).1 = .ok .droppedDuplicate ∧
      (s.appendEvent producerId event env).2.log = s.log ∧
      (s.appendEvent producerId event env).2.gate = s.gate ∧
      (s.appendEvent producerId event env).2.processor = s.processor) ∨
    (∃ e, s.appendEvent producerId event env = (.error e, s)) ∨
    ((gateVerdict s.gate producerId event).isSome = true ∧ ∃ o,
      let batch := event :: deriveCrossings s.processor env.crossingId event
      s.log.append producerId batch env.append =
        (.ok o, ⟨s.log.batches ++ [⟨producerId, env.append.appendedAtNs, batch⟩]⟩) ∧
      (s.appendEvent producerId event env).1 = .ok (.appended o) ∧
      (s.appendEvent producerId event env).2.log =
        ⟨s.log.batches ++ [⟨producerId, env.append.appendedAtNs, batch⟩]⟩ ∧
      (s.appendEvent producerId event env).2.gate = commitGate s.gate producerId batch ∧
      (s.appendEvent producerId event env).2.processor =
        commitProcessor s.processor env.discardedId batch) := by
  cases ha : gateVerdict s.gate producerId event with
  | none => exact Or.inl ⟨rfl, by simp [appendEvent, ha]⟩
  | some gap =>
    right
    rcases s.log.append_cases producerId
      (event :: deriveCrossings s.processor env.crossingId event) env.append with ⟨e, h⟩ | ⟨o, h⟩
    · exact Or.inl ⟨e, by simp [appendEvent, ha, h]⟩
    · exact Or.inr ⟨rfl, o, h, by simp [appendEvent, ha, h]⟩

def Persists (s : EventIngestService) (producerId : String) (event : OtkEvent)
    (env : IngestEnv) : Prop :=
  ∃ o, (s.appendEvent producerId event env).1 = .ok (.appended o)

/-- A call persists its event when the gate lets it through, the producer is
named and the backend does not fail. -/
theorem persists_iff (s : EventIngestService) (producerId : String) (event : OtkEvent)
    (env : IngestEnv) :
    s.Persists producerId event env ↔ (gateVerdict s.gate producerId event).isSome = true ∧
      producerId ≠ "" ∧ env.append.failure = none := by
  have happ := s.log.append_eq_ok_iff producerId
    (List.cons_ne_nil event (deriveCrossings s.processor env.crossingId event)) env.append
  unfold Persists appendEvent
  cases ha : gateVerdict s.gate producerId event with
  | none => simp
  | some gap =>
    rw [← happ]
    dsimp only
    cases hr : s.log.append producerId (event :: deriveCrossings s.processor env.crossingId event)
        env.append with
    | mk r log => cases r <;> simp

theorem appendEvent_of_persists {s : EventIngestService} {producerId : String} {event : OtkEvent}
    {env : IngestEnv} (h : s.Persists producerId event env) :
    let batch := event :: deriveCrossings s.processor env.crossingId event
    (s.appendEvent producerId event env).2.log =
      ⟨s.log.batches ++ [⟨producerId, env.append.appendedAtNs, batch⟩]⟩ ∧
    (s.appendEvent producerId event env).2.gate = commitGate s.gate producerId batch ∧
    (s.appendEvent producerId event env).2.processor =
      commitProcessor s.processor env.discardedId batch := by
  obtain ⟨o, ho⟩ := h
  rcases s.appendEvent_cases producerId event env with
    ⟨-, hd, -⟩ | ⟨e, he⟩ | ⟨-, o', -, -, hl, hg, hp⟩
  · simp [hd] at ho
  · simp [he] at ho
  · exact ⟨hl, hg, hp⟩

/-- A call that did not persist its event left log, gate and processor alone. -/
theorem appendEvent_of_not_persists {s : EventIngestService} {producerId : String}
    {event : OtkEvent} {env : IngestEnv} (h : ¬ s.Persists producerId event env) :
    (s.appendEvent producerId event env).2.log = s.log ∧
    (s.appendEvent producerId event env).2.gate = s.gate ∧
    (s.appendEvent producerId event env).2.processor = s.processor := by
  rcases s.appendEvent_cases producerId event env with
    ⟨-, -, hl, hg, hp⟩ | ⟨e, he⟩ | ⟨-, o, -, ho, -⟩
  · exact ⟨hl, hg, hp⟩
  · simp [he]
  · exact absurd ⟨o, ho⟩ h

/-- How far a call has come, with the locals it carries. -/
inductive Progress
  | ready
  | decided (pendingGap : Option (UInt64 × UInt64))
  | batched (pendingGap : Option (UInt64 × UInt64)) (batch : List OtkEvent)
  | persisted (pendingGap : Option (UInt64 × UInt64)) (batch : List OtkEvent) (offset : ℕ)
  | gated (pendingGap : Option (UInt64 × UInt64)) (batch : List OtkEvent) (offset : ℕ)
  | finished (result : Except StorageError AppendOutcome)
  deriving DecidableEq

/-- The next access of a call: `gate.peek`, `processor.peek_detection`,
`log.append`, `gate.commit`, `processor.commit_detection`. -/
def advance (s : EventIngestService) (producerId : String) (event : OtkEvent) (env : IngestEnv) :
    Progress → EventIngestService × Progress
  | .ready =>
    match gateVerdict s.gate producerId event with
    | none => ({ s with metrics := s.metrics ++ duplicateMetrics producerId event },
        .finished (.ok .droppedDuplicate))
    | some pendingGap => (s, .decided pendingGap)
  | .decided pendingGap =>
    (s, .batched pendingGap (event :: deriveCrossings s.processor env.crossingId event))
  | .batched pendingGap batch =>
    match s.log.append producerId batch env.append with
    | (.error e, log) => ({ s with log := log }, .finished (.error e))
    | (.ok offset, log) => ({ s with log := log }, .persisted pendingGap batch offset)
  | .persisted pendingGap batch offset =>
    ({ s with gate := commitGate s.gate producerId batch }, .gated pendingGap batch offset)
  | .gated pendingGap batch offset =>
    ({ s with
        processor := commitProcessor s.processor env.discardedId batch
        metrics := s.metrics ++ appendedMetrics producerId pendingGap batch },
      .finished (.ok (.appended offset)))
  | .finished result => (s, .finished result)

def advanceAll (s : EventIngestService) (producerId : String) (event : OtkEvent)
    (env : IngestEnv) : EventIngestService × Progress :=
  (fun p => p.1.advance producerId event env p.2)^[5] (s, .ready)

/-- A call that is not interleaved with others is `appendEvent`. -/
theorem advanceAll_eq_appendEvent (s : EventIngestService) (producerId : String)
    (event : OtkEvent) (env : IngestEnv) :
    s.advanceAll producerId event env =
      ((s.appendEvent producerId event env).2,
        .finished (s.appendEvent producerId event env).1) := by
  simp only [advanceAll, Function.iterate_succ, Function.iterate_zero, Function.comp_apply, id_eq]
  cases ha : gateVerdict s.gate producerId event with
  | none => simp [advance, appendEvent, ha]
  | some gap =>
    rcases s.log.append_cases producerId
      (event :: deriveCrossings s.processor env.crossingId event) env.append with ⟨e, h⟩ | ⟨o, h⟩ <;>
    simp [advance, appendEvent, ha, h]

end EventIngestService
end OtkCore
