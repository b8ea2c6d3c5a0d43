import OtkCore.Core.EventIngest

/-!
# Ingest calls executed one after another

`Ingested` is the derivation of a log by accepted calls alone: one constructor
adds an event that is neither detection nor crossing, the other a detection
with the crossings it causes. A run of calls with failures, duplicates and
retries reaches exactly what its accepted calls derive, so the properties of
the log are inductions on the derivation.
-/
namespace OtkCore

/-- One `append_event` call with what its environment decides. -/
structure IngestCall where
  producerId : String
  event : OtkEvent
  env : IngestEnv
  deriving DecidableEq

namespace EventIngestService

def ingest (s : EventIngestService) (c : IngestCall) : EventIngestService :=
  (s.appendEvent c.producerId c.event c.env).2

def ingestAll (s : EventIngestService) (cs : List IngestCall) : EventIngestService :=
  cs.foldl ingest s

def persists (s : EventIngestService) (c : IngestCall) : Bool :=
  match (s.appendEvent c.producerId c.event c.env).1 with
  | .ok (.appended _) => true
  | _ => false

theorem persists_eq_true (s : EventIngestService) (c : IngestCall) :
    s.persists c = true ↔ s.Persists c.producerId c.event c.env := by
  unfold persists Persists
  split <;> simp_all

/-- The calls of a run whose append succeeded, in order. -/
def persistedCalls : EventIngestService → List IngestCall → List IngestCall
  | _, [] => []
  | s, c :: cs =>
    if s.persists c then c :: persistedCalls (s.ingest c) cs else persistedCalls (s.ingest c) cs

end EventIngestService

/-- The same call, possibly with other random draws. -/
def IngestCall.SameInput (c d : IngestCall) : Prop :=
  c.producerId = d.producerId ∧ c.event = d.event ∧ c.env.append = d.env.append

def OtkEvent.eraseId : OtkEvent → OtkEvent
  | .crossing c => .crossing { c with crossingId := ⟨""⟩ }
  | e => e

def EventHistory.eraseIds (h : EventHistory) : EventHistory :=
  ⟨h.batches.map fun b => { b with events := b.events.map OtkEvent.eraseId }⟩

open EventIngestService CrossingProcessor

/-- Equal log, gate and processor, up to the random crossing ids of the log. -/
structure EventIngestService.Agree (s t : EventIngestService) : Prop where
  log : s.log.eraseIds = t.log.eraseIds
  gate : s.gate = t.gate
  processor : s.processor = t.processor

theorem commitDetection_snd (p : CrossingProcessor) (det : Detection) (a b : CrossingId) :
    (p.commitDetection det a).2 = (p.commitDetection det b).2 := by
  unfold commitDetection
  cases det.subjectId with
  | none => rfl
  | some s =>
    dsimp only
    split_ifs
    · cases p.pending.lookup (det.timingPointId, s) <;> rfl
    · rfl

theorem commitProcessor_cons (p : CrossingProcessor) (event : OtkEvent) (a b : CrossingId)
    (as bs : List OtkEvent) :
    commitProcessor p a (event :: as) = commitProcessor p b (event :: bs) := by
  cases event with
  | detection det => exact commitDetection_snd p det a b
  | _ => rfl

theorem eraseId_deriveCrossings (p : CrossingProcessor) (event : OtkEvent) (a b : CrossingId) :
    (deriveCrossings p a event).map OtkEvent.eraseId =
      (deriveCrossings p b event).map OtkEvent.eraseId := by
  cases event with
  | detection det =>
    simp only [deriveCrossings, peekDetection]
    cases det.subjectId with
    | none => rfl
    | some s =>
      dsimp only
      split_ifs
      · cases p.pending.lookup (det.timingPointId, s) <;> rfl
      · rfl
  | _ => rfl

theorem agree_of_not_persists {s t : EventIngestService} (hst : s.Agree t) {c : IngestCall}
    (h : ¬ s.Persists c.producerId c.event c.env) : (s.ingest c).Agree t := by
  obtain ⟨hl, hg, hp⟩ := appendEvent_of_not_persists h
  exact ⟨by rw [ingest, hl, hst.log], by rw [ingest, hg, hst.gate],
    by rw [ingest, hp, hst.processor]⟩

theorem agree_of_persists {s t : EventIngestService} {c d : IngestCall} (hst : s.Agree t)
    (hcd : c.SameInput d) (h : s.Persists c.producerId c.event c.env) :
    t.Persists d.producerId d.event d.env ∧ (s.ingest c).Agree (t.ingest d) := by
  obtain ⟨hpid, hev, henv⟩ := hcd
  have h' : t.Persists d.producerId d.event d.env := by
    rw [persists_iff] at h ⊢
    rwa [← hst.gate, ← hpid, ← hev, ← henv]
  obtain ⟨hl, hg, hp⟩ := appendEvent_of_persists h
  obtain ⟨hl', hg', hp'⟩ := appendEvent_of_persists h'
  refine ⟨h', ?_, ?_, ?_⟩
  · have hlog := hst.log
    have hids := eraseId_deriveCrossings t.processor d.event c.env.crossingId d.env.crossingId
    simp only [EventHistory.eraseIds, EventHistory.mk.injEq] at hlog
    rw [ingest, ingest, hl, hl']
    simp only [EventHistory.eraseIds, List.map_append, hlog, List.map_cons, List.map_nil, hpid,
      hev, henv, hst.processor, hids]
  · rw [ingest, ingest, hg, hg', hst.gate, hpid, hev]
    cases d.event <;> rfl
  · rw [ingest, ingest, hp, hp', hst.processor, hev]
    exact commitProcessor_cons _ _ _ _ _ _

/-- Failures, duplicates and retries do not matter: a run ends where the run of
its persisted calls ends, whatever ids that run draws. -/
theorem ingestAll_agree {s t : EventIngestService} (hst : s.Agree t) (cs ds : List IngestCall)
    (hds : List.Forall₂ IngestCall.SameInput (s.persistedCalls cs) ds) :
    t.persistedCalls ds = ds ∧ (s.ingestAll cs).Agree (t.ingestAll ds) := by
  induction cs generalizing s t ds with
  | nil =>
    cases hds
    exact ⟨rfl, hst⟩
  | cons c cs ih =>
    rw [persistedCalls] at hds
    split_ifs at hds with h
    · cases hds with
      | cons hcd hds =>
        obtain ⟨hp, hagree⟩ := agree_of_persists hst hcd ((persists_eq_true s c).mp h)
        obtain ⟨hall, hrun⟩ := ih hagree _ hds
        exact ⟨by simp [persistedCalls, (persists_eq_true _ _).mpr hp, hall], hrun⟩
    · exact ih (agree_of_not_persists hst (mt (persists_eq_true s c).mpr h)) ds hds

/-- Logs derived by accepted calls, with the gate and processor they leave. -/
inductive Ingested (config : ProcessorConfig) :
    List Batch → SequenceGate → CrossingProcessor → Prop
  | nil : Ingested config [] .new (.new config)
  | other {bs g p} (producerId : String) (t : ℕ) (event : OtkEvent) :
      Ingested config bs g p → event.detection? = none → event.crossing? = none →
      Ingested config (bs ++ [⟨producerId, t, [event]⟩]) g p
  | detection {bs g p} (producerId : String) (t : ℕ) (det : Detection) (a b : CrossingId) :
      Ingested config bs g p → ¬ g.Covers (producerId, det.detectorId) det.sequenceNumber →
      Ingested config
        (bs ++ [⟨producerId, t, .detection det :: deriveCrossings p a (.detection det)⟩])
        (g.commit producerId det) (p.commitDetection det b).2

theorem Ingested.ingest {config : ProcessorConfig} {s : EventIngestService} {c : IngestCall}
    (h : Ingested config s.log.batches s.gate s.processor) (hc : c.event.crossing? = none) :
    Ingested config (s.ingest c).log.batches (s.ingest c).gate (s.ingest c).processor := by
  by_cases hp : s.Persists c.producerId c.event c.env
  · have hcov := (gateVerdict_isSome _ _ _).mp ((persists_iff _ _ _ _).mp hp).1
    obtain ⟨hl, hg, hpr⟩ := appendEvent_of_persists hp
    rw [EventIngestService.ingest, hl, hg, hpr]
    cases hev : c.event with
    | detection det =>
      rw [hev] at hcov
      exact Ingested.detection _ _ det _ _ h (hcov det rfl)
    | crossing x => simp [hev] at hc
    | _ => exact Ingested.other _ _ _ h rfl rfl
  · obtain ⟨hl, hg, hpr⟩ := appendEvent_of_not_persists hp
    rwa [EventIngestService.ingest, hl, hg, hpr]

theorem ingested_ingestAll {config : ProcessorConfig} {s : EventIngestService}
    (h : Ingested config s.log.batches s.gate s.processor) (cs : List IngestCall)
    (hcs : ∀ c ∈ cs, c.event.crossing? = none) :
    Ingested config (s.ingestAll cs).log.batches (s.ingestAll cs).gate
      (s.ingestAll cs).processor := by
  induction cs generalizing s with
  | nil => exact h
  | cons c cs ih =>
    exact ih (h.ingest (hcs c (by simp))) fun d hd => hcs d (by simp [hd])

def crossingKey (c : CrossingEvent) : Option GroupKey :=
  c.subjectId.map fun s => (c.timingPointId, s)

/-- Sequence numbers persisted for one `(producer, detector)`, oldest first. -/
def sequenceNumbers (h : EventHistory) (key : GateKey) : List UInt64 :=
  (h.detections.filter fun x => (x.1, x.2.detectorId) = key).map fun x => x.2.sequenceNumber

/-- Ids of the persisted detections of one group key, in arrival order. -/
def detectionIdsOf (h : EventHistory) (key : GroupKey) : List DetectionId :=
  (h.detections.filter fun x => groupKey x.2 = some key).map fun x => x.2.detectionId

/-- Ids listed by the persisted crossings of one group key, in log order. -/
def crossingIdsOf (h : EventHistory) (key : GroupKey) : List DetectionId :=
  (h.crossings.filter fun c => crossingKey c = some key).flatMap CrossingEvent.detectionIds

/-- The processor after the detections of some batches. -/
def replay (config : ProcessorConfig) (bs : List Batch) : CrossingProcessor :=
  bs.foldl (fun p b => commitProcessor p ⟨""⟩ b.events) (.new config)

/-- Every crossing stands right after a detection that opens its batch, and is
what that detection makes the processor emit after all earlier batches. -/
def CrossingsFollow (config : ProcessorConfig) (h : EventHistory) : Prop :=
  ∀ earlier b later, h.batches = earlier ++ b :: later →
    ∀ i c, b.events[i]? = some (.crossing c) → i = 1 ∧
      ∃ det cid, b.events[0]? = some (.detection det) ∧
        ∃ x ∈ (replay config earlier).peekDetection det cid, c = mapCrossing x

theorem crossingKey_mapCrossing {p : CrossingProcessor} (hp : p.Keyed) {det : Detection}
    {cid : CrossingId} {c : Crossing} (hc : c ∈ p.peekDetection det cid) :
    crossingKey (mapCrossing c) = groupKey det := by
  unfold peekDetection at hc
  cases hs : det.subjectId with
  | none =>
    simp only [hs, List.mem_singleton] at hc
    simp [hc, crossingKey, mapCrossing, PendingGroup.commit, PendingGroup.single, groupKey, hs]
  | some s =>
    simp only [hs] at hc
    split_ifs at hc with ho
    · cases hl : p.pending.lookup (det.timingPointId, s) with
      | none => simp [hl] at hc
      | some g =>
        simp only [hl, List.mem_singleton] at hc
        have hfirst := hp (det.timingPointId, s) (g.detections.head g.nonempty)
          (by simp [group, hl])
        subst hc
        simpa [groupKey, crossingKey, mapCrossing, PendingGroup.commit, hs] using hfirst
    · simp at hc

theorem filterMap_detection?_derive (p : CrossingProcessor) (cid : CrossingId) (e : OtkEvent) :
    (deriveCrossings p cid e).filterMap OtkEvent.detection? = [] := by
  cases e <;> simp [deriveCrossings, List.filterMap_map, Function.comp_def]

theorem filterMap_crossing?_derive (p : CrossingProcessor) (cid : CrossingId) (det : Detection) :
    (deriveCrossings p cid (.detection det)).filterMap OtkEvent.crossing? =
      (p.peekDetection det cid).map mapCrossing := by
  simp [deriveCrossings, List.filterMap_map, Function.comp_def]

theorem length_peekDetection_le (p : CrossingProcessor) (det : Detection) (cid : CrossingId) :
    (p.peekDetection det cid).length ≤ 1 := by
  unfold peekDetection
  cases det.subjectId with
  | none => simp
  | some s =>
    dsimp only
    split_ifs
    · cases p.pending.lookup (det.timingPointId, s) <;> simp
    · simp

theorem crossingsFollow_snoc {config : ProcessorConfig} {bs : List Batch} {b : Batch}
    (h : CrossingsFollow config ⟨bs⟩)
    (hb : ∀ i c, b.events[i]? = some (.crossing c) → i = 1 ∧
      ∃ det cid, b.events[0]? = some (.detection det) ∧
        ∃ x ∈ (replay config bs).peekDetection det cid, c = mapCrossing x) :
    CrossingsFollow config ⟨bs ++ [b]⟩ := by
  intro earlier b' later heq
  rcases later.eq_nil_or_concat with rfl | ⟨init, last, rfl⟩
  · obtain ⟨rfl, hlast⟩ := List.append_inj' heq rfl
    obtain rfl : b = b' := by simpa using hlast
    exact hb
  · rw [List.concat_eq_append, ← List.cons_append, ← List.append_assoc] at heq
    exact h earlier b' init (List.append_inj' heq rfl).1

theorem ids_snoc_other (bs : List Batch) (producerId : String) (t : ℕ) {event : OtkEvent}
    (hd : event.detection? = none) (hc : event.crossing? = none) (key : GroupKey) :
    detectionIdsOf ⟨bs ++ [⟨producerId, t, [event]⟩]⟩ key = detectionIdsOf ⟨bs⟩ key ∧
      crossingIdsOf ⟨bs ++ [⟨producerId, t, [event]⟩]⟩ key = crossingIdsOf ⟨bs⟩ key := by
  simp [crossingIdsOf, detectionIdsOf, hd, hc]

theorem detectionIdsOf_snoc (bs : List Batch) (producerId : String) (t : ℕ) (det : Detection)
    (p : CrossingProcessor) (cid : CrossingId) (key : GroupKey) :
    detectionIdsOf
        ⟨bs ++ [⟨producerId, t, .detection det :: deriveCrossings p cid (.detection det)⟩]⟩ key =
      detectionIdsOf ⟨bs⟩ key ++ if groupKey det = some key then [det.detectionId] else [] := by
  by_cases hk : groupKey det = some key <;>
    simp [detectionIdsOf, filterMap_detection?_derive, hk]

/-- The crossings stored with a detection list the group that it evicts. -/
theorem crossingIdsOf_snoc {p : CrossingProcessor} (hp : p.Keyed) (bs : List Batch)
    (producerId : String) (t : ℕ) (det : Detection) (cid : CrossingId) (key : GroupKey) :
    crossingIdsOf
        ⟨bs ++ [⟨producerId, t, .detection det :: deriveCrossings p cid (.detection det)⟩]⟩ key =
      crossingIdsOf ⟨bs⟩ key ++
        if groupKey det = some key ∧ p.outsideWindow key det = true then
          (p.group key).map Detection.detectionId
        else [] := by
  have hkeys : ∀ c ∈ (p.peekDetection det cid).map mapCrossing, crossingKey c = groupKey det := by
    intro c hc
    obtain ⟨x, hx, rfl⟩ := List.mem_map.mp hc
    exact crossingKey_mapCrossing hp hx
  simp only [crossingIdsOf, EventHistory.crossings_snoc, List.filterMap_cons,
    OtkEvent.crossing?_detection, filterMap_crossing?_derive, List.filter_append,
    List.flatMap_append, List.append_cancel_left_eq]
  by_cases hk : groupKey det = some key
  · have hall : ((p.peekDetection det cid).map mapCrossing).filter
        (fun c => crossingKey c = some key) = (p.peekDetection det cid).map mapCrossing :=
      List.filter_eq_self.mpr fun c hc => by simp [hkeys c hc, hk]
    have hids := detectionIds_peekDetection p cid hk
    rw [hall, List.flatMap_map,
      show (fun c => (mapCrossing c).detectionIds) = Crossing.detectionIds from rfl, hids]
    simp [hk]
  · have hnone : ((p.peekDetection det cid).map mapCrossing).filter
        (fun c => crossingKey c = some key) = [] :=
      List.filter_eq_nil_iff.mpr fun c hc => by simp [hkeys c hc, hk]
    simp [hnone, hk]

namespace Ingested

variable {config : ProcessorConfig} {bs : List Batch} {g : SequenceGate} {p : CrossingProcessor}

theorem keyed (h : Ingested config bs g p) : p.Keyed := by
  induction h with
  | nil => exact keyed_new config
  | other _ _ _ _ _ _ ih => exact ih
  | detection _ _ det _ b _ _ ih => exact ih.commitDetection det b

theorem covers (h : Ingested config bs g p) :
    ∀ x ∈ EventHistory.detections ⟨bs⟩, g.Covers (x.1, x.2.detectorId) x.2.sequenceNumber := by
  induction h with
  | nil => simp [EventHistory.detections, EventHistory.entries, EventHistory.entriesFrom]
  | @other bs g p producerId t event _ hd _ ih => simpa [EventHistory.detections_snoc, hd] using ih
  | @detection bs g p producerId t det a b _ _ ih =>
    intro x hx
    rw [EventHistory.detections_snoc, List.mem_append] at hx
    rcases hx with hx | hx
    · exact (ih x hx).commit producerId det
    · simp only [List.filterMap_cons, OtkEvent.detection?_detection,
        filterMap_detection?_derive, List.map_cons, List.map_nil, List.mem_singleton] at hx
      subst hx
      exact g.covers_commit_self producerId det

theorem sequenceNumbers_increasing (h : Ingested config bs g p) (key : GateKey) :
    (sequenceNumbers ⟨bs⟩ key).Pairwise (· < ·) := by
  induction h with
  | nil => simp [sequenceNumbers, EventHistory.detections, EventHistory.entries,
      EventHistory.entriesFrom]
  | @other bs g p producerId t event _ hd _ ih =>
    simpa [sequenceNumbers, EventHistory.detections_snoc, hd] using ih
  | @detection bs g p producerId t det a b h hnew ih =>
    simp only [sequenceNumbers, EventHistory.detections_snoc, List.filterMap_cons,
      OtkEvent.detection?_detection, filterMap_detection?_derive, List.map_cons, List.map_nil,
      List.filter_append, List.map_append, List.pairwise_append] at ih ⊢
    refine ⟨ih, by by_cases hk : (producerId, det.detectorId) = key <;> simp [hk], ?_⟩
    intro m hm n hn
    obtain ⟨x, hx, rfl⟩ := List.mem_map.mp hm
    obtain ⟨hx, hkey⟩ := List.mem_filter.mp hx
    simp only [List.mem_map, List.mem_filter, List.mem_singleton] at hn
    obtain ⟨_, ⟨rfl, hk⟩, rfl⟩ := hn
    obtain ⟨hw, hl, hle⟩ := h.covers x hx
    simp only [decide_eq_true_eq] at hkey hk
    rw [hkey, ← hk] at hl
    -- The new number is above a mark that covers every older number of its key.
    have habove : ¬ det.sequenceNumber ≤ hw := fun hle' => hnew ⟨hw, hl, hle'⟩
    grind

theorem conserves (h : Ingested config bs g p) (key : GroupKey) :
    crossingIdsOf ⟨bs⟩ key ++ (p.group key).map Detection.detectionId =
      detectionIdsOf ⟨bs⟩ key := by
  induction h with
  | nil => simp [crossingIdsOf, detectionIdsOf, EventHistory.detections, EventHistory.crossings,
      EventHistory.entries, EventHistory.entriesFrom, CrossingProcessor.new, group]
  | @other bs g p producerId t event _ hd hc ih =>
    obtain ⟨hids, hcids⟩ := ids_snoc_other bs producerId t hd hc key
    rw [hids, hcids, ih]
  | @detection bs g p producerId t det a b h _ ih =>
    rw [detectionIdsOf_snoc, crossingIdsOf_snoc h.keyed, group_commitDetection, ← ih]
    by_cases hk : groupKey det = some key
    · by_cases ho : p.outsideWindow key det <;> simp [hk, ho]
    · simp [hk]

theorem replay_eq (h : Ingested config bs g p) : replay config bs = p := by
  induction h with
  | nil => rfl
  | @other bs g p producerId t event _ hd _ ih =>
    rw [replay, List.foldl_append, ← replay, ih]
    cases event <;> simp_all [commitProcessor]
  | @detection bs g p producerId t det a b _ _ ih =>
    rw [replay, List.foldl_append, ← replay, ih]
    exact commitDetection_snd p det _ _

theorem crossingsFollow (h : Ingested config bs g p) : CrossingsFollow config ⟨bs⟩ := by
  induction h with
  | nil => intro earlier b later hb; simp at hb
  | @other bs g p producerId t event _ _ hc ih =>
    refine crossingsFollow_snoc ih ?_
    intro i c hi
    cases i <;> simp_all
  | @detection bs g p producerId t det a b h _ ih =>
    refine crossingsFollow_snoc ih ?_
    intro i c hi
    cases i with
    | zero => simp at hi
    | succ i =>
      have hlen := length_peekDetection_le p det a
      simp only [deriveCrossings, List.getElem?_cons_succ, List.getElem?_map,
        Option.map_eq_some_iff, OtkEvent.crossing.injEq] at hi
      obtain ⟨x, hx, rfl⟩ := hi
      have hi := (List.getElem?_eq_some_iff.mp hx).1
      refine ⟨by omega, det, a, by simp, x, ?_, rfl⟩
      rw [h.replay_eq]
      exact List.mem_of_getElem? hx

end Ingested

/-- Sequential ingest is transparent to failures and retries, and its log is
ordered, attributed and complete. -/
theorem sequentialIngest_failure_transparent (config : ProcessorConfig) (cs : List IngestCall)
    (hcs : ∀ c ∈ cs, c.event.crossing? = none) :
    let fresh := EventIngestService.new .empty config .new
    let final := fresh.ingestAll cs
    (∀ ds, List.Forall₂ IngestCall.SameInput (fresh.persistedCalls cs) ds →
      fresh.persistedCalls ds = ds ∧ final.Agree (fresh.ingestAll ds)) ∧
    (∀ key, (sequenceNumbers final.log key).Pairwise (· < ·)) ∧
    CrossingsFollow config final.log ∧
    (∀ key, crossingIdsOf final.log key ++
        (final.processor.group key).map Detection.detectionId = detectionIdsOf final.log key) := by
  intro fresh final
  have h : Ingested config final.log.batches final.gate final.processor :=
    ingested_ingestAll (s := fresh) Ingested.nil cs hcs
  exact ⟨ingestAll_agree ⟨rfl, rfl, rfl⟩ cs, h.sequenceNumbers_increasing, h.crossingsFollow,
    h.conserves⟩

/-- A loop detection of subject `s` at timing point `tp`. -/
def loopDetection (id : String) (at' seq : UInt64) : Detection :=
  { detectionId := ⟨id⟩
    detectorId := ⟨"loop-1"⟩
    timingPointId := ⟨"tp"⟩
    subjectId := some ⟨"s"⟩
    detectedAtNs := at'
    detectedAtUncertaintyNs := none
    receivedAtNs := none
    timestampingMethod := .hardwareEventCapture
    timebaseId := ⟨"gps-1"⟩
    sourceAttestation := .runtimeDiscovered
    sequenceNumber := seq
    sensor := .loopTransponder (some (-60)) none }

def detectionCall (id : String) (at' seq : UInt64) (failure : Option StorageError := none) :
    IngestCall :=
  ⟨"p", .detection (loopDetection id at' seq), ⟨⟨"c-" ++ id⟩, ⟨"x"⟩, ⟨0, failure⟩⟩⟩

/-- The append of `d2` fails once; its resubmissions are stored and dropped. -/
def retriedCalls : List IngestCall :=
  [detectionCall "d1" 0 1, detectionCall "d2" 10000000000 2 (some (.io .other)),
    detectionCall "d2" 10000000000 2, detectionCall "d2" 10000000000 2]

theorem sequentialIngest_failure_transparent_retried :
    let final := (EventIngestService.new .empty {} .new).ingestAll retriedCalls
    final.log.batches.length = 2 ∧ CrossingsFollow {} final.log ∧
      crossingIdsOf final.log (⟨"tp"⟩, ⟨"s"⟩) ++
          (final.processor.group (⟨"tp"⟩, ⟨"s"⟩)).map Detection.detectionId =
        detectionIdsOf final.log (⟨"tp"⟩, ⟨"s"⟩) := by
  obtain ⟨_, _, hfollow, hids⟩ := sequentialIngest_failure_transparent {} retriedCalls (by decide)
  exact ⟨by decide, hfollow, hids _⟩

end OtkCore
