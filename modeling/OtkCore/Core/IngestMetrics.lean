import OtkCore.Core.SequentialIngest

/-!
# Ingest metrics against the log

The metrics port only ever receives increments, so what the counters show is
the list of calls made on it. `Metered` relates that list to the batches a run
has added: the mark of a key is the last number stored under it, hence a gap the
gate observes is a jump of the stored numbers, however often it was observed.
-/
namespace OtkCore

open EventIngestService

namespace IngestMetric

def appended? : IngestMetric → Option (String × String)
  | .eventAppended producerId kind => some (producerId, kind)
  | _ => none

def duplicate? : IngestMetric → Option (String × String)
  | .duplicateDropped producerId detectorId => some (producerId, detectorId)
  | _ => none

def gap? : IngestMetric → Option (String × String)
  | .sequenceGap producerId detectorId => some (producerId, detectorId)
  | _ => none

end IngestMetric

/-- The label of every entry of a batch: the submitted event comes first, the
crossings derived from it follow. -/
def Batch.labels (b : Batch) : List (String × String) :=
  b.events.mapIdx fun i e =>
    if i = 0 then (b.producerId, eventKindLabel e) else ("<timing-core>", "Crossing")

def IngestCall.Stores (c : IngestCall) (b : Batch) : Prop :=
  b.producerId = c.producerId ∧ ∃ xs : List CrossingEvent, b.events = c.event :: xs.map .crossing

/-- A dropped call is a detection, counted under its producer and detector. -/
def IngestCall.DropsAs (c : IngestCall) (label : String × String) : Prop :=
  ∃ det, c.event = .detection det ∧ label = (c.producerId, det.detectorId.asStr)

namespace EventIngestService

/-- The call was answered with `DroppedDuplicate`. -/
def drops (s : EventIngestService) (c : IngestCall) : Bool :=
  match (s.appendEvent c.producerId c.event c.env).1 with
  | .ok .droppedDuplicate => true
  | _ => false

/-- The calls of a run that were answered with `DroppedDuplicate`, in order. -/
def droppedCalls : EventIngestService → List IngestCall → List IngestCall
  | _, [] => []
  | s, c :: cs =>
    if s.drops c then c :: droppedCalls (s.ingest c) cs else droppedCalls (s.ingest c) cs

end EventIngestService

def Apart (m n : UInt64) : Prop := 1 < ((n.toNat : ℤ) - m.toNat).natAbs

instance (m n : UInt64) : Decidable (Apart m n) := inferInstanceAs (Decidable (1 < _))

/-- How many neighbours of a list differ by more than one. -/
def jumps : List UInt64 → ℕ
  | m :: n :: rest => (if Apart m n then 1 else 0) + jumps (n :: rest)
  | _ => 0

example : jumps [1, 2, 5, 6, 9] = 2 := by decide

/-- The numbers of a key: the mark it was seeded with, then what was stored. -/
def marks (gate : SequenceGate) (added : List Batch) (key : GateKey) : List UInt64 :=
  (gate.highWater.lookup key).toList ++ sequenceNumbers ⟨added⟩ key

theorem jumps_snoc (ns : List UInt64) (n : UInt64) :
    jumps (ns ++ [n]) = jumps ns + if ∃ m ∈ ns.getLast?, Apart m n then 1 else 0 := by
  induction ns with
  | nil => simp [jumps]
  | cons a ns ih =>
    cases ns with
    | nil => simp [jumps]
    | cons b ns =>
      rw [List.cons_append, List.cons_append, jumps, ← List.cons_append, ih, jumps,
        List.getLast?_cons_cons, Nat.add_assoc]

/-- A batch adds to a key the number of the detection that opens it. -/
theorem marks_snoc {gate : SequenceGate} {added : List Batch} {c : IngestCall} {b : Batch}
    (h : c.Stores b) (key : GateKey) :
    marks gate (added ++ [b]) key = marks gate added key ++
      (c.event.detection?.toList.filter fun det => (c.producerId, det.detectorId) = key).map
        Detection.sequenceNumber := by
  obtain ⟨hp, xs, hb⟩ := h
  have hderived : (xs.map OtkEvent.crossing).filterMap OtkEvent.detection? = [] := by
    simp [List.filterMap_map, Function.comp_def]
  rw [marks, marks, sequenceNumbers, sequenceNumbers, EventHistory.detections_snoc, hb,
    List.filterMap_cons, hderived, hp]
  cases c.event.detection? with
  | none => simp
  | some det => by_cases hk : (c.producerId, det.detectorId) = key <;> simp [hk]

/-- A number that the mark of its key does not cover becomes the mark. -/
theorem SequenceGate.highWater_commit_self {gate : SequenceGate} {producerId : String}
    {det : Detection} (h : ¬ gate.Covers (producerId, det.detectorId) det.sequenceNumber) :
    (gate.commit producerId det).highWater.lookup (producerId, det.detectorId) =
      some det.sequenceNumber := by
  rw [highWater_commit, if_pos rfl]
  cases hl : gate.highWater.lookup (producerId, det.detectorId) with
  | none => rfl
  | some hw =>
    have hlt : hw < det.sequenceNumber := UInt64.not_le.mp fun hle => h ⟨hw, hl, hle⟩
    simp [hlt]

theorem label_eq_iff (key key' : GateKey) :
    (key.1, key.2.asStr) = (key'.1, key'.2.asStr) ↔ key = key' := by
  obtain ⟨p, ⟨d⟩⟩ := key
  obtain ⟨p', ⟨d'⟩⟩ := key'
  simp

/-- A gap is pending exactly when the number is apart from a mark below it. -/
theorem pendingGap_isSome_iff {gate : SequenceGate} {producerId : String} {det : Detection}
    {pendingGap : Option (UInt64 × UInt64)}
    (h : gateVerdict gate producerId (.detection det) = some pendingGap) :
    pendingGap.isSome = true ↔
      ∃ hw ∈ gate.highWater.lookup (producerId, det.detectorId), Apart hw det.sequenceNumber := by
  unfold gateVerdict SequenceGate.peek at h
  cases hl : gate.highWater.lookup (producerId, det.detectorId) with
  | none =>
    simp only [hl, Option.some.injEq] at h
    simp [← h]
  | some hw =>
    simp only [hl] at h
    by_cases hle : det.sequenceNumber ≤ hw
    · simp [hle] at h
    · have hlt : hw.toNat < det.sequenceNumber.toNat := by
        rwa [← UInt64.lt_iff_toNat_lt, ← UInt64.not_le]
      have hbound := det.sequenceNumber.toNat_lt
      have hsucc : (hw + 1).toNat = hw.toNat + 1 := by
        rw [UInt64.toNat_add]
        exact Nat.mod_eq_of_lt (by simp; omega)
      have hnext : det.sequenceNumber = hw + 1 ↔ det.sequenceNumber.toNat = hw.toNat + 1 := by
        rw [← UInt64.toNat_inj, hsucc]
      by_cases hs : det.sequenceNumber = hw + 1
      · have heq := hnext.mp hs
        have hnot : ¬ Apart hw det.sequenceNumber := by unfold Apart; omega
        rw [if_neg hle, if_pos hs, Option.some.injEq] at h
        simp [← h, hnot]
      · simp only [hle, if_false, hs, Option.some.injEq] at h
        have hne := mt hnext.mpr hs
        have hapart : Apart hw det.sequenceNumber := by unfold Apart; omega
        simp [← h, hapart]

section Labels

variable (producerId : String) (pendingGap : Option (UInt64 × UInt64)) (event : OtkEvent)
  (xs : List CrossingEvent)

theorem appended?_appendedMetrics :
    (appendedMetrics producerId pendingGap (event :: xs.map .crossing)).filterMap
        IngestMetric.appended? =
      (producerId, eventKindLabel event) ::
        List.replicate xs.length ("<timing-core>", "Crossing") := by
  cases event <;> cases pendingGap <;>
    simp [appendedMetrics, IngestMetric.appended?, List.filterMap_cons, List.filterMap_map,
      Function.comp_def, List.filterMap_replicate]

theorem duplicate?_appendedMetrics :
    (appendedMetrics producerId pendingGap (event :: xs.map .crossing)).filterMap
      IngestMetric.duplicate? = [] := by
  cases event <;> cases pendingGap <;>
    simp [appendedMetrics, IngestMetric.duplicate?, List.filterMap_map, Function.comp_def]

theorem gap?_appendedMetrics :
    (appendedMetrics producerId pendingGap (event :: xs.map .crossing)).filterMap
        IngestMetric.gap? =
      if pendingGap.isSome then
        event.detection?.toList.map fun det => (producerId, det.detectorId.asStr)
      else [] := by
  cases event <;> cases pendingGap <;>
    simp [appendedMetrics, IngestMetric.gap?, List.filterMap_map, Function.comp_def,
      OtkEvent.detection?]

end Labels

theorem Batch.labels_eq {b : Batch} {event : OtkEvent} {xs : List CrossingEvent}
    (h : b.events = event :: xs.map .crossing) :
    b.labels = (b.producerId, eventKindLabel event) ::
      List.replicate xs.length ("<timing-core>", "Crossing") := by
  have hderived : ∀ l : List OtkEvent, (l.mapIdx fun _ _ => ("<timing-core>", "Crossing")) =
      List.replicate l.length ("<timing-core>", "Crossing") := by
    intro l
    exact List.eq_replicate_iff.mpr ⟨by simp, by simp +contextual [List.mem_mapIdx]⟩
  simp [Batch.labels, h, List.mapIdx_cons, hderived]

/-- The metrics of `s`, against the calls persisted and dropped since `start`
and the batches they added. -/
structure Metered (start : EventIngestService) (persisted dropped : List IngestCall)
    (added : List Batch) (s : EventIngestService) : Prop where
  log : s.log.batches = start.log.batches ++ added
  stored : List.Forall₂ IngestCall.Stores persisted added
  appended : s.metrics.filterMap IngestMetric.appended? = added.flatMap Batch.labels
  duplicates : List.Forall₂ IngestCall.DropsAs dropped
    (s.metrics.filterMap IngestMetric.duplicate?)
  mark : ∀ key, s.gate.highWater.lookup key = (marks start.gate added key).getLast?
  gaps : ∀ key : GateKey, (s.metrics.filterMap IngestMetric.gap?).count (key.1, key.2.asStr) =
    jumps (marks start.gate added key)

section Persisted

variable {gate₀ gate : SequenceGate} {added : List Batch} {c : IngestCall} {b : Batch}
  {pendingGap : Option (UInt64 × UInt64)}

theorem lookup_commitGate (hc : c.Stores b)
    (hv : gateVerdict gate c.producerId c.event = some pendingGap) (key : GateKey)
    (hmark : gate.highWater.lookup key = (marks gate₀ added key).getLast?) :
    (commitGate gate c.producerId b.events).highWater.lookup key =
      (marks gate₀ (added ++ [b]) key).getLast? := by
  rw [marks_snoc hc]
  obtain ⟨-, xs, hb⟩ := hc
  rw [hb]
  cases hev : c.event with
  | detection det =>
    rw [hev] at hv
    have hcov := (gateVerdict_isSome gate c.producerId _).mp (by rw [hv]; rfl) det rfl
    by_cases hk : (c.producerId, det.detectorId) = key
    · subst hk
      simp [commitGate, SequenceGate.highWater_commit_self hcov]
    · simp [commitGate, SequenceGate.highWater_commit, hk, Ne.symm hk, hmark]
  | _ => simpa [commitGate, OtkEvent.detection?] using hmark

/-- The deferred gap of a persisted call is counted under its key exactly when
the stored numbers of that key jump. -/
theorem count_gap (hc : c.Stores b)
    (hv : gateVerdict gate c.producerId c.event = some pendingGap) (key : GateKey)
    (hmark : gate.highWater.lookup key = (marks gate₀ added key).getLast?) :
    jumps (marks gate₀ added key) +
        ((appendedMetrics c.producerId pendingGap b.events).filterMap IngestMetric.gap?).count
          (key.1, key.2.asStr) =
      jumps (marks gate₀ (added ++ [b]) key) := by
  rw [marks_snoc hc]
  obtain ⟨-, xs, hb⟩ := hc
  rw [hb, gap?_appendedMetrics]
  cases hev : c.event with
  | detection det =>
    rw [hev] at hv
    have hgap := pendingGap_isSome_iff hv
    have hlabel := label_eq_iff (c.producerId, det.detectorId) key
    by_cases hk : (c.producerId, det.detectorId) = key
    · rw [hk, hmark] at hgap
      simp only [hk, iff_true] at hlabel
      simp only [Option.mem_def] at hgap
      by_cases hp : pendingGap.isSome = true
      · simpa [hk, hp, jumps_snoc, hlabel] using hgap.mp hp
      · have hnone := mt hgap.mpr hp
        simp only [not_exists, not_and] at hnone
        simpa [hk, hp, jumps_snoc] using hnone
    · have hne : ¬ (c.producerId, det.detectorId.asStr) = (key.1, key.2.asStr) :=
        mt hlabel.mp hk
      by_cases hp : pendingGap.isSome = true <;> simp [hk, hp, hne]
  | _ => simp [OtkEvent.detection?]

end Persisted

theorem exists_deriveCrossings (p : CrossingProcessor) (cid : CrossingId) (event : OtkEvent) :
    ∃ xs : List CrossingEvent, deriveCrossings p cid event = xs.map .crossing := by
  cases event with
  | detection det =>
    exact ⟨(p.peekDetection det cid).map mapCrossing, by simp [deriveCrossings]⟩
  | _ => exact ⟨[], rfl⟩

theorem ingest_of_persists {s : EventIngestService} {c : IngestCall}
    (h : s.persists c = true) :
    ∃ pendingGap, gateVerdict s.gate c.producerId c.event = some pendingGap ∧
      let batch := c.event :: deriveCrossings s.processor c.env.crossingId c.event
      s.ingest c =
        { log := ⟨s.log.batches ++ [⟨c.producerId, c.env.append.appendedAtNs, batch⟩]⟩
          gate := commitGate s.gate c.producerId batch
          processor := commitProcessor s.processor c.env.discardedId batch
          metrics := s.metrics ++ appendedMetrics c.producerId pendingGap batch } := by
  unfold persists at h
  unfold ingest
  cases hv : gateVerdict s.gate c.producerId c.event with
  | none => simp [appendEvent, hv] at h
  | some pendingGap =>
    rcases s.log.append_cases c.producerId
      (c.event :: deriveCrossings s.processor c.env.crossingId c.event) c.env.append with
      ⟨e, ha⟩ | ⟨o, ha⟩
    · simp [appendEvent, hv, ha] at h
    · exact ⟨pendingGap, rfl, by simp [appendEvent, hv, ha]⟩

/-- A dropped call is a detection and only counts the duplicate. -/
theorem ingest_of_drops {s : EventIngestService} {c : IngestCall} (h : s.drops c = true) :
    ∃ det, c.event = .detection det ∧
      s.ingest c =
        { s with metrics := s.metrics ++
            [.duplicateDropped c.producerId det.detectorId.asStr] } := by
  unfold drops at h
  unfold ingest
  cases hv : gateVerdict s.gate c.producerId c.event with
  | none =>
    cases hev : c.event with
    | detection det =>
      rw [hev] at hv
      exact ⟨det, rfl, by simp [appendEvent, hv, duplicateMetrics]⟩
    | _ => simp [hev, gateVerdict] at hv
  | some pendingGap =>
    rcases s.log.append_cases c.producerId
      (c.event :: deriveCrossings s.processor c.env.crossingId c.event) c.env.append with
      ⟨e, ha⟩ | ⟨o, ha⟩ <;>
    simp [appendEvent, hv, ha] at h

theorem ingest_of_fails {s : EventIngestService} {c : IngestCall} (hp : s.persists c = false)
    (hd : s.drops c = false) : s.ingest c = s := by
  unfold persists at hp
  unfold drops at hd
  unfold ingest
  rcases s.appendEvent_cases c.producerId c.event c.env with
    ⟨-, ho, -⟩ | ⟨e, he⟩ | ⟨-, o, -, ho, -⟩
  · simp [ho] at hd
  · rw [he]
  · simp [ho] at hp

namespace Metered

variable {start s : EventIngestService} {persisted dropped : List IngestCall}
  {added : List Batch}

theorem ingest_persisted (h : Metered start persisted dropped added s) {c : IngestCall}
    (hc : s.persists c = true) :
    ∃ b, Metered start (persisted ++ [c]) dropped (added ++ [b]) (s.ingest c) := by
  obtain ⟨pendingGap, hv, heq⟩ := ingest_of_persists hc
  obtain ⟨xs, hxs⟩ := exists_deriveCrossings s.processor c.env.crossingId c.event
  rw [hxs] at heq
  let b : Batch := ⟨c.producerId, c.env.append.appendedAtNs, c.event :: xs.map .crossing⟩
  have hstores : c.Stores b := ⟨rfl, xs, rfl⟩
  refine ⟨b, ?_⟩
  rw [heq]
  constructor
  case log => simp [h.log, b]
  case stored => exact List.rel_append h.stored (.cons hstores .nil)
  case appended =>
    rw [List.filterMap_append, h.appended, appended?_appendedMetrics, List.flatMap_append,
      List.flatMap_singleton, Batch.labels_eq rfl]
  case duplicates =>
    rw [List.filterMap_append, duplicate?_appendedMetrics, List.append_nil]
    exact h.duplicates
  case mark =>
    intro key
    exact lookup_commitGate hstores hv key (h.mark key)
  case gaps =>
    intro key
    rw [List.filterMap_append, List.count_append, h.gaps key]
    exact count_gap hstores hv key (h.mark key)

theorem ingest_dropped (h : Metered start persisted dropped added s) {c : IngestCall}
    (hc : s.drops c = true) : Metered start persisted (dropped ++ [c]) added (s.ingest c) := by
  obtain ⟨det, hev, heq⟩ := ingest_of_drops hc
  rw [heq]
  exact
    { log := h.log
      stored := h.stored
      appended := by simp [h.appended, IngestMetric.appended?]
      duplicates := by
        rw [List.filterMap_append]
        exact List.rel_append h.duplicates (.cons ⟨det, hev, rfl⟩ .nil)
      mark := h.mark
      gaps := by
        intro key
        simp [h.gaps key, IngestMetric.gap?, List.filterMap_cons] }

theorem ingest (h : Metered start persisted dropped added s) (c : IngestCall) :
    ∃ more, Metered start (persisted ++ if s.persists c then [c] else [])
      (dropped ++ if s.drops c then [c] else []) (added ++ more) (s.ingest c) := by
  cases hp : s.persists c with
  | true =>
    have hd : s.drops c = false := by
      unfold persists at hp
      unfold drops
      split at hp <;> simp_all
    obtain ⟨b, hb⟩ := h.ingest_persisted hp
    exact ⟨[b], by simpa [hd] using hb⟩
  | false =>
    cases hd : s.drops c with
    | true => exact ⟨[], by simpa using h.ingest_dropped hd⟩
    | false => exact ⟨[], by simpa [ingest_of_fails hp hd] using h⟩

theorem ingestAll (h : Metered start persisted dropped added s) (cs : List IngestCall) :
    ∃ more, Metered start (persisted ++ s.persistedCalls cs) (dropped ++ s.droppedCalls cs)
      (added ++ more) (s.ingestAll cs) := by
  induction cs generalizing s persisted dropped added with
  | nil => exact ⟨[], by simpa [persistedCalls, droppedCalls, EventIngestService.ingestAll] using h⟩
  | cons c cs ih =>
    obtain ⟨first, hfirst⟩ := h.ingest c
    obtain ⟨rest, hrest⟩ := ih hfirst
    refine ⟨first ++ rest, ?_⟩
    rw [persistedCalls, droppedCalls]
    cases hp : s.persists c <;> cases hd : s.drops c <;>
      simpa [hp, hd, EventIngestService.ingestAll] using hrest

end Metered

/-- Over any run from any seeded gate the metrics count exactly what the run did:
one append per stored entry, one duplicate per dropped call, and under every key
one gap per jump of its stored numbers. -/
theorem ingestMetrics_faithful (log : EventHistory) (config : ProcessorConfig)
    (gate : SequenceGate) (cs : List IngestCall) :
    let start := EventIngestService.new log config gate
    let final := start.ingestAll cs
    ∃ added : List Batch, final.log.batches = log.batches ++ added ∧
      List.Forall₂ IngestCall.Stores (start.persistedCalls cs) added ∧
      final.metrics.filterMap IngestMetric.appended? = added.flatMap Batch.labels ∧
      List.Forall₂ IngestCall.DropsAs (start.droppedCalls cs)
        (final.metrics.filterMap IngestMetric.duplicate?) ∧
      ∀ key : GateKey,
        (final.metrics.filterMap IngestMetric.gap?).count (key.1, key.2.asStr) =
          jumps ((gate.highWater.lookup key).toList ++ sequenceNumbers ⟨added⟩ key) := by
  intro start final
  have hnil : ∀ key, marks gate [] key = (gate.highWater.lookup key).toList := by
    intro key
    simp [marks, sequenceNumbers, EventHistory.detections, EventHistory.entries,
      EventHistory.entriesFrom]
  have hstart : Metered start [] [] [] start := by
    constructor
    case log => simp
    case stored => exact .nil
    case appended => rfl
    case duplicates => exact .nil
    case mark =>
      intro key
      simp only [start, EventIngestService.new, hnil]
      cases gate.highWater.lookup key <;> rfl
    case gaps =>
      intro key
      simp only [start, EventIngestService.new, hnil]
      cases gate.highWater.lookup key <;> rfl
  obtain ⟨added, h⟩ := hstart.ingestAll cs
  exact ⟨added, h.log, h.stored, h.appended, h.duplicates, h.gaps⟩

end OtkCore
