import OtkCore.Core.CrossingConservation
import OtkCore.Core.RestartGate

/-!
# Restarts between two calls

A node that is started over an existing log seeds its gate from the log and
begins with an empty processor. The seeded gate is the one the stopped node had.
The groups that were pending are gone: their detections are in the log, and no
later crossing lists them.
-/
namespace OtkCore

open EventIngestService CrossingProcessor

/-- One detection sent by a producer, with the time of its receipt. -/
structure DetectionInput where
  producerId : String
  detection : Detection
  appendedAtNs : ℕ
  deriving DecidableEq

/-- The calls for some detections, none of which fails; `draws` are the ids that
each call draws. -/
def detectionCalls (draws : ℕ → CrossingId × CrossingId) (inputs : List DetectionInput) :
    List IngestCall :=
  inputs.mapIdx fun i x =>
    ⟨x.producerId, .detection x.detection, ⟨(draws i).1, (draws i).2, ⟨x.appendedAtNs, none⟩⟩⟩

theorem sameInput_detectionCalls (draws draws' : ℕ → CrossingId × CrossingId)
    (inputs : List DetectionInput) :
    List.Forall₂ IngestCall.SameInput (detectionCalls draws inputs)
      (detectionCalls draws' inputs) := by
  unfold detectionCalls
  induction inputs generalizing draws draws' with
  | nil => exact .nil
  | cons x xs ih =>
    rw [List.mapIdx_cons, List.mapIdx_cons]
    exact .cons ⟨rfl, rfl, rfl⟩ (ih (fun i => draws (i + 1)) fun i => draws' (i + 1))

theorem detectionCalls_append (draws : ℕ → CrossingId × CrossingId)
    (xs ys : List DetectionInput) :
    detectionCalls draws (xs ++ ys) =
      detectionCalls draws xs ++ detectionCalls (fun i => draws (xs.length + i)) ys := by
  unfold detectionCalls
  rw [List.mapIdx_append]
  congr 2
  funext i x
  rw [Nat.add_comm]

theorem crossing?_detectionCalls {draws : ℕ → CrossingId × CrossingId}
    {inputs : List DetectionInput} {c : IngestCall} (hc : c ∈ detectionCalls draws inputs) :
    c.event.crossing? = none := by
  obtain ⟨i, hi, rfl⟩ := List.mem_mapIdx.mp hc
  rfl

namespace EventIngestService.Agree

variable {s t u : EventIngestService}

theorem symm (h : s.Agree t) : t.Agree s := ⟨h.log.symm, h.gate.symm, h.processor.symm⟩

theorem trans (h : s.Agree t) (h' : t.Agree u) : s.Agree u :=
  ⟨h.log.trans h'.log, h.gate.trans h'.gate, h.processor.trans h'.processor⟩

theorem ingest (h : s.Agree t) {c d : IngestCall} (hcd : c.SameInput d) :
    (s.ingest c).Agree (t.ingest d) := by
  by_cases hp : s.Persists c.producerId c.event c.env
  · exact (agree_of_persists h hcd hp).2
  · have hp' : ¬ t.Persists d.producerId d.event d.env := fun hp' =>
      hp (agree_of_persists h.symm ⟨hcd.1.symm, hcd.2.1.symm, hcd.2.2.symm⟩ hp').1
    exact agree_of_not_persists (agree_of_not_persists h.symm hp').symm hp

theorem ingestAll (h : s.Agree t) {cs ds : List IngestCall}
    (hcd : List.Forall₂ IngestCall.SameInput cs ds) : (s.ingestAll cs).Agree (t.ingestAll ds) := by
  induction hcd generalizing s t with
  | nil => exact h
  | cons hcd _ ih => exact ih (h.ingest hcd)

end EventIngestService.Agree

/-- `Node::new_inner`: the gate is seeded from the log, the processor is new. -/
def restart (config : ProcessorConfig) (log : EventHistory) : EventIngestService :=
  .new log config (SequenceGate.new.seedFromPort log).2

theorem SequenceGate.seedFromLog_eq_foldl (g : SequenceGate) (entries : List LogEntry) :
    g.seedFromLog entries = (entries.filterMap fun e => e.event.detection?.map fun det =>
      (e.producerId, det)).foldl (fun g x => g.commit x.1 x.2) g := by
  induction entries generalizing g with
  | nil => rfl
  | cons e es ih =>
    rw [seedFromLog]
    cases hev : e.event with
    | detection det => simp [hev, ih]
    | _ => simp [OtkEvent.detection?, hev, ih]

namespace Ingested

variable {config : ProcessorConfig} {bs : List Batch} {g : SequenceGate} {p : CrossingProcessor}

theorem gate_eq (h : Ingested config bs g p) :
    SequenceGate.new.seedFromLog (EventHistory.entries ⟨bs⟩) = g := by
  rw [SequenceGate.seedFromLog_eq_foldl]
  change (EventHistory.detections ⟨bs⟩).foldl _ _ = g
  induction h with
  | nil => rfl
  | @other bs g p producerId t event _ hd _ ih => simpa [EventHistory.detections_snoc, hd] using ih
  | @detection bs g p producerId t det a b _ _ ih =>
    simp [EventHistory.detections_snoc, filterMap_detection?_derive, ih]

/-- A key whose detections are in the log has a pending group. -/
theorem group_ne_nil (h : Ingested config bs g p) {key : GroupKey} :
    ∀ x ∈ EventHistory.detections ⟨bs⟩, groupKey x.2 = some key → p.group key ≠ [] := by
  induction h with
  | nil => simp [EventHistory.detections, EventHistory.entries, EventHistory.entriesFrom]
  | @other bs g p producerId t event _ hd _ ih => simpa [EventHistory.detections_snoc, hd] using ih
  | @detection bs g p producerId t det a b _ _ ih =>
    intro x hx hk
    rw [group_commitDetection]
    by_cases hkey : groupKey det = some key
    · simp [hkey]
    · rw [if_neg hkey]
      simp only [EventHistory.detections_snoc, List.filterMap_cons, OtkEvent.detection?_detection,
        filterMap_detection?_derive, List.map_cons, List.map_nil, List.mem_append,
        List.mem_singleton] at hx
      rcases hx with hx | rfl
      · exact ih x hx hk
      · exact absurd hk hkey

theorem processor_eq (h : Ingested config bs g p)
    (hanon : ∀ x ∈ EventHistory.detections ⟨bs⟩, x.2.subjectId = none) : p = .new config := by
  induction h with
  | nil => rfl
  | @other bs g p producerId t event _ hd _ ih =>
    exact ih fun x hx => hanon x (by simpa [EventHistory.detections_snoc, hd] using hx)
  | @detection bs g p producerId t det a b _ _ ih =>
    simp only [EventHistory.detections_snoc, List.filterMap_cons, OtkEvent.detection?_detection,
      filterMap_detection?_derive, List.map_cons, List.map_nil, List.forall_mem_append,
      List.forall_mem_singleton] at hanon
    have hsame : (p.commitDetection det b).2 = p := by simp [commitDetection, hanon.2]
    rw [hsame]
    exact ih hanon.1

end Ingested

/-- The stored detections of each key are listed by its crossings, wait in its
group, or are lost. -/
structure Accounted (lost : GroupKey → Multiset DetectionId) (s : EventIngestService) : Prop where
  keyed : s.processor.Keyed
  balance : ∀ key, (detectionIdsOf s.log key : Multiset DetectionId) =
    ↑(crossingIdsOf s.log key) + ↑((s.processor.group key).map Detection.detectionId) + lost key

namespace Accounted

variable {lost : GroupKey → Multiset DetectionId} {s : EventIngestService}

theorem ingest (h : Accounted lost s) {c : IngestCall} (hc : c.event.crossing? = none) :
    Accounted lost (s.ingest c) := by
  by_cases hp : s.Persists c.producerId c.event c.env
  · obtain ⟨hl, -, hpr⟩ := appendEvent_of_persists hp
    refine ⟨?_, fun key => ?_⟩
    · rw [EventIngestService.ingest, hpr]
      cases hev : c.event with
      | detection det => exact h.keyed.commitDetection det _
      | _ => exact h.keyed
    · obtain ⟨hd, hcr⟩ := IngestSystem.ids_snoc h.keyed s.log c hc c.env.append.appendedAtNs key
      have hgroup := IngestSystem.group_commitProcessor s.processor c.event c.env.discardedId
        (deriveCrossings s.processor c.env.crossingId c.event) key
      rw [EventIngestService.ingest, hl, hpr, hd, hcr, h.balance key]
      calc _ = ↑(crossingIdsOf s.log key) + (↑((s.processor.group key).map Detection.detectionId) +
            IngestSystem.adds key c.event) + lost key := by abel
        _ = _ := by rw [← hgroup]; abel
  · obtain ⟨hl, -, hpr⟩ := appendEvent_of_not_persists hp
    exact ⟨by rw [EventIngestService.ingest, hpr]; exact h.keyed,
      fun key => by rw [EventIngestService.ingest, hl, hpr]; exact h.balance key⟩

theorem ingestAll (h : Accounted lost s) {cs : List IngestCall}
    (hcs : ∀ c ∈ cs, c.event.crossing? = none) : Accounted lost (s.ingestAll cs) := by
  induction cs generalizing s with
  | nil => exact h
  | cons c cs ih => exact ih (h.ingest (hcs c (by simp))) fun d hd => hcs d (by simp [hd])

/-- Nothing is lost where every stored detection is listed or waits. -/
theorem lost_eq_zero_iff (h : Accounted lost s) (key : GroupKey) :
    (detectionIdsOf s.log key : Multiset DetectionId) ≤ ↑(crossingIdsOf s.log key) +
      ↑((s.processor.group key).map Detection.detectionId) ↔ lost key = 0 := by
  rw [h.balance key, add_le_iff_nonpos_right, Multiset.le_zero]

end Accounted

theorem accounted_restart {config : ProcessorConfig} {s : EventIngestService}
    (h : Ingested config s.log.batches s.gate s.processor) :
    Accounted (fun key => ↑((s.processor.group key).map Detection.detectionId))
      (restart config s.log) := by
  refine ⟨keyed_new config, fun key => ?_⟩
  have hempty : (restart config s.log).processor.group key = [] := by
    simp [restart, EventIngestService.new, CrossingProcessor.new, group]
  rw [hempty, List.map_nil, Multiset.coe_nil, add_zero]
  exact (congrArg _ (h.conserves key).symm).trans (Multiset.coe_add _ _).symm

/-- A restart between two calls keeps the crossings, and every stored detection
with a subject listed or pending, exactly when none has been stored before it. -/
theorem restart_keeps_crossings_iff (config : ProcessorConfig) (before after : List DetectionInput)
    (draws draws' draws'' : ℕ → CrossingId × CrossingId) :
    let fresh := EventIngestService.new .empty config .new
    let whole := fresh.ingestAll (detectionCalls draws (before ++ after))
    let stopped := fresh.ingestAll (detectionCalls draws' before)
    let resumed := (restart config stopped.log).ingestAll (detectionCalls draws'' after)
    (resumed.log.eraseIds.crossings = whole.log.eraseIds.crossings ∧
      ∀ key, (detectionIdsOf resumed.log key : Multiset DetectionId) ≤
        ↑(crossingIdsOf resumed.log key) +
          ↑((resumed.processor.group key).map Detection.detectionId)) ↔
      ∀ x ∈ stopped.log.detections, x.2.subjectId = none := by
  intro fresh whole stopped resumed
  have hstopped : Ingested config stopped.log.batches stopped.gate stopped.processor :=
    ingested_ingestAll (s := fresh) .nil _ fun c hc => crossing?_detectionCalls hc
  have hlost : Accounted (fun key => ↑((stopped.processor.group key).map Detection.detectionId))
      resumed := (accounted_restart hstopped).ingestAll fun c hc => crossing?_detectionCalls hc
  constructor
  · rintro ⟨-, haccounted⟩ x hx
    by_contra hsubject
    obtain ⟨subject, hsub⟩ := Option.ne_none_iff_exists'.mp hsubject
    have hkey : groupKey x.2 = some (x.2.timingPointId, subject) := by simp [groupKey, hsub]
    have hnil := (hlost.lost_eq_zero_iff _).mp (haccounted (x.2.timingPointId, subject))
    exact hstopped.group_ne_nil x hx hkey (by simpa using hnil)
  · intro hanon
    have hnew : stopped.processor = .new config := hstopped.processor_eq hanon
    refine ⟨?_, fun key => ?_⟩
    · -- The restarted node is in the state of the one that went on.
      have hsame : (restart config stopped.log).Agree stopped := by
        refine ⟨rfl, ?_, hnew.symm⟩
        change (SequenceGate.new.seedFromPort stopped.log).2 = stopped.gate
        rw [SequenceGate.seedFromPort_eq]
        exact hstopped.gate_eq
      have hbefore : stopped.Agree (fresh.ingestAll (detectionCalls draws before)) :=
        Agree.ingestAll ⟨rfl, rfl, rfl⟩ (sameInput_detectionCalls draws' draws before)
      have hall := (hsame.trans hbefore).ingestAll (sameInput_detectionCalls draws''
        (fun i => draws (before.length + i)) after)
      have hwhole : whole = (fresh.ingestAll (detectionCalls draws before)).ingestAll
          (detectionCalls (fun i => draws (before.length + i)) after) := by
        simp only [whole, detectionCalls_append, EventIngestService.ingestAll, List.foldl_append]
      rw [hwhole]
      exact congrArg EventHistory.crossings hall.log
    · rw [hlost.lost_eq_zero_iff, hnew]
      rfl

/-- The detection that waits at the restart is in no crossing, although a later
one lies outside its window. -/
theorem restart_loses_group :
    let fresh := EventIngestService.new .empty {} .new
    let early : DetectionInput := ⟨"p", loopDetection "d1" 0 1, 0⟩
    let late : DetectionInput := ⟨"p", loopDetection "d2" 10000000000 2, 0⟩
    let draws := fun _ : ℕ => ((⟨"c"⟩ : CrossingId), (⟨"x"⟩ : CrossingId))
    let whole := fresh.ingestAll (detectionCalls draws ([early] ++ [late]))
    let stopped := fresh.ingestAll (detectionCalls draws [early])
    let resumed := (restart {} stopped.log).ingestAll (detectionCalls draws [late])
    resumed.log.eraseIds.crossings ≠ whole.log.eraseIds.crossings ∧
      ("p", early.detection) ∈ resumed.log.detections ∧
      (∀ c ∈ resumed.log.crossings, early.detection.detectionId ∉ c.detectionIds) ∧
      ∀ det ∈ resumed.processor.group (⟨"tp"⟩, ⟨"s"⟩),
        det.detectionId ≠ early.detection.detectionId := by
  decide

end OtkCore
