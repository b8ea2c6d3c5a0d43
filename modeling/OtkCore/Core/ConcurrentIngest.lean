import OtkCore.Core.SequentialIngest
import Mathlib.Algebra.BigOperators.Fin

/-!
# Interleaved ingest calls

Every session is a task of its own and all of them share one service, so the
five accesses of different calls interleave freely. A schedule lists which call
makes its next access. Storing each detection once needs calls for the same
detection to keep a distance: the gate decides long before it is committed.
-/
namespace OtkCore

open EventIngestService CrossingProcessor

/-- One service shared by `n` calls, each in some stage of its execution. -/
structure IngestSystem (n : ℕ) where
  service : EventIngestService
  calls : Fin n → IngestCall
  progress : Fin n → Progress

namespace IngestSystem

variable {n : ℕ}

def start (service : EventIngestService) (calls : Fin n → IngestCall) : IngestSystem n :=
  ⟨service, calls, fun _ => .ready⟩

/-- Call `i` makes its next access to the shared state. -/
def step (sys : IngestSystem n) (i : Fin n) : IngestSystem n :=
  let c := sys.calls i
  let r := sys.service.advance c.producerId c.event c.env (sys.progress i)
  ⟨r.1, sys.calls, Function.update sys.progress i r.2⟩

def run (sys : IngestSystem n) (schedule : List (Fin n)) : IngestSystem n :=
  schedule.foldl step sys

/-- Every step of the schedule is taken in a state that satisfies `ok`. -/
def Along (ok : IngestSystem n → Fin n → Prop) : IngestSystem n → List (Fin n) → Prop
  | _, [] => True
  | sys, i :: rest => ok sys i ∧ Along ok (sys.step i) rest

instance instDecidableAlong (ok : IngestSystem n → Fin n → Prop) [∀ sys i, Decidable (ok sys i)] :
    ∀ sys schedule, Decidable (Along ok sys schedule)
  | _, [] => inferInstanceAs (Decidable True)
  | sys, i :: rest =>
    have := instDecidableAlong ok (sys.step i) rest
    inferInstanceAs (Decidable (ok sys i ∧ Along ok (sys.step i) rest))

/-- An invariant of the allowed steps holds after every allowed schedule. -/
theorem run_invariant {ok : IngestSystem n → Fin n → Prop} {Inv : IngestSystem n → Prop}
    (hstep : ∀ sys i, Inv sys → ok sys i → Inv (sys.step i)) {sys : IngestSystem n}
    (h : Inv sys) (schedule : List (Fin n)) (hok : Along ok sys schedule) :
    Inv (sys.run schedule) := by
  induction schedule generalizing sys with
  | nil => exact h
  | cons i rest ih => exact ih (hstep sys i h hok.1) hok.2

/-- One access, by the stage it is made in. Only the fields that matter to the
invariants are named; metrics are left out. -/
inductive Access (s : EventIngestService) (c : IngestCall) :
    Progress → EventIngestService → Progress → Prop
  | drop (s' : EventIngestService) (r : Except StorageError AppendOutcome) :
      s'.log = s.log → s'.gate = s.gate → s'.processor = s.processor →
      Access s c .ready s' (.finished r)
  | decide (gap) : (gateVerdict s.gate c.producerId c.event).isSome = true →
      Access s c .ready s (.decided gap)
  | derive (gap) : Access s c (.decided gap) s
      (.batched gap (c.event :: deriveCrossings s.processor c.env.crossingId c.event))
  | fail (gap batch) (e : StorageError) : Access s c (.batched gap batch) s (.finished (.error e))
  | persist (gap batch) (o : ℕ) : Access s c (.batched gap batch)
      { s with log := ⟨s.log.batches ++ [⟨c.producerId, c.env.append.appendedAtNs, batch⟩]⟩ }
      (.persisted gap batch o)
  | commitGate (gap batch) (o : ℕ) : Access s c (.persisted gap batch o)
      { s with gate := commitGate s.gate c.producerId batch } (.gated gap batch o)
  | commitProcessor (gap batch) (o : ℕ) (s' : EventIngestService) :
      s'.log = s.log → s'.gate = s.gate →
      s'.processor = commitProcessor s.processor c.env.discardedId batch →
      Access s c (.gated gap batch o) s' (.finished (.ok (.appended o)))
  | done (r : Except StorageError AppendOutcome) : Access s c (.finished r) s (.finished r)

theorem advance_access (s : EventIngestService) (c : IngestCall) (pr : Progress) :
    Access s c pr (s.advance c.producerId c.event c.env pr).1
      (s.advance c.producerId c.event c.env pr).2 := by
  cases pr with
  | ready =>
    simp only [advance]
    cases hv : gateVerdict s.gate c.producerId c.event with
    | none => exact .drop _ _ rfl rfl rfl
    | some gap => exact .decide gap (by simp [hv])
  | decided gap => exact .derive gap
  | batched gap batch =>
    rcases s.log.append_cases c.producerId batch c.env.append with ⟨e, he⟩ | ⟨o, ho⟩
    · simpa only [advance, he] using Access.fail gap batch e
    · simpa only [advance, ho] using Access.persist gap batch o
  | persisted gap batch o => exact .commitGate gap batch o
  | gated gap batch o => exact .commitProcessor gap batch o _ rfl rfl rfl
  | finished r => exact .done r

theorem step_access (sys : IngestSystem n) (i : Fin n) : ∃ s' pr',
    sys.step i = ⟨s', sys.calls, Function.update sys.progress i pr'⟩ ∧
      Access sys.service (sys.calls i) (sys.progress i) s' pr' :=
  ⟨_, _, rfl, advance_access _ _ _⟩

abbrev RecordKey := String × DetectorId × UInt64

def recordKey (producerId : String) (det : Detection) : RecordKey :=
  (producerId, det.detectorId, det.sequenceNumber)

/-- The `(producer, detector, sequence number)` of every stored detection. -/
def recordKeys (h : EventHistory) : List RecordKey :=
  h.detections.map fun x => recordKey x.1 x.2

def callKey (c : IngestCall) : Option RecordKey :=
  c.event.detection?.map (recordKey c.producerId)

/-- Past its `gate.peek`, before its `log.append`. -/
def unstored : Progress → Bool
  | .decided _ | .batched _ _ => true
  | _ => false

/-- Past its `log.append`, before its `gate.commit`. -/
def uncommitted : Progress → Bool
  | .persisted _ _ _ => true
  | _ => false

/-- Between `gate.peek` and `gate.commit`. -/
def inFlight (pr : Progress) : Bool := unstored pr || uncommitted pr

/-- A `gate.peek` that lets a detection through is made while no other call for
the same producer, detector and sequence number is in flight. -/
def PeeksAlone (sys : IngestSystem n) (i : Fin n) : Prop :=
  let c := sys.calls i
  sys.progress i = .ready → (gateVerdict sys.service.gate c.producerId c.event).isSome = true →
    ∀ j ≠ i, inFlight (sys.progress j) = true → ∀ k ∈ callKey c, callKey (sys.calls j) ≠ some k

instance (sys : IngestSystem n) (i : Fin n) : Decidable (PeeksAlone sys i) :=
  inferInstanceAs (Decidable (sys.progress i = .ready →
    (gateVerdict sys.service.gate (sys.calls i).producerId (sys.calls i).event).isSome = true →
    ∀ j ≠ i, inFlight (sys.progress j) = true → ∀ k ∈ callKey (sys.calls i),
      callKey (sys.calls j) ≠ some k))

def carried : Progress → Option (List OtkEvent)
  | .batched _ batch | .persisted _ batch _ | .gated _ batch _ => some batch
  | _ => none

/-- What keeps stored detections unique: a stored key is covered by the gate or
about to be, and calls in flight have keys of their own. -/
structure ExactlyOnce (sys : IngestSystem n) : Prop where
  nodup : (recordKeys sys.service.log).Nodup
  covered : ∀ k ∈ recordKeys sys.service.log, sys.service.gate.Covers (k.1, k.2.1) k.2.2 ∨
    ∃ j, uncommitted (sys.progress j) = true ∧ callKey (sys.calls j) = some k
  fresh : ∀ j k, unstored (sys.progress j) = true → callKey (sys.calls j) = some k →
    k ∉ recordKeys sys.service.log
  distinct : ∀ i j k, i ≠ j → inFlight (sys.progress i) = true →
    inFlight (sys.progress j) = true → callKey (sys.calls i) = some k →
    callKey (sys.calls j) ≠ some k
  batch : ∀ j b, carried (sys.progress j) = some b →
    ∃ ds, b = (sys.calls j).event :: ds ∧ ds.filterMap OtkEvent.detection? = []

theorem recordKeys_snoc (h : EventHistory) (c : IngestCall) (t : ℕ) (ds : List OtkEvent)
    (hds : ds.filterMap OtkEvent.detection? = []) :
    recordKeys ⟨h.batches ++ [⟨c.producerId, t, c.event :: ds⟩]⟩ =
      recordKeys h ++ (callKey c).toList := by
  rw [recordKeys, EventHistory.detections_snoc, List.map_append, callKey, List.filterMap_cons, hds]
  cases c.event <;> rfl

theorem covers_commitGate (g : SequenceGate) (c : IngestCall) (ds : List OtkEvent)
    {k : RecordKey} (hk : callKey c = some k) :
    (commitGate g c.producerId (c.event :: ds)).Covers (k.1, k.2.1) k.2.2 := by
  unfold callKey at hk
  cases he : c.event with
  | detection det =>
    simp only [he, OtkEvent.detection?_detection, Option.map_some, Option.some.injEq] at hk
    subst hk
    exact g.covers_commit_self c.producerId det
  | _ => simp [he, OtkEvent.detection?] at hk

theorem Covers.commitGate {g : SequenceGate} {key : GateKey} {seq : UInt64}
    (h : g.Covers key seq) (producerId : String) (batch : List OtkEvent) :
    (EventIngestService.commitGate g producerId batch).Covers key seq := by
  unfold EventIngestService.commitGate
  split
  · exact h.commit _ _
  · exact h

theorem not_covers_of_verdict {g : SequenceGate} {c : IngestCall} {k : RecordKey}
    (hv : (gateVerdict g c.producerId c.event).isSome = true) (hk : callKey c = some k) :
    ¬ g.Covers (k.1, k.2.1) k.2.2 := by
  unfold callKey at hk
  have h := (gateVerdict_isSome _ _ _).mp hv
  cases he : c.event with
  | detection det =>
    simp only [he, OtkEvent.detection?_detection, Option.map_some, Option.some.injEq] at hk
    subst hk
    exact h det he
  | _ => simp [he, OtkEvent.detection?] at hk

/-- A call that ends without an uncommitted batch takes nothing with it. -/
theorem ExactlyOnce.leave {sys : IngestSystem n} (h : ExactlyOnce sys) (i : Fin n)
    (hi : uncommitted (sys.progress i) = false) {s' : EventIngestService}
    (hl : s'.log = sys.service.log) (hg : s'.gate = sys.service.gate)
    (r : Except StorageError AppendOutcome) :
    ExactlyOnce ⟨s', sys.calls, Function.update sys.progress i (.finished r)⟩ := by
  obtain ⟨hnodup, hcovered, hfresh, hdistinct, hbatch⟩ := h
  refine ⟨by rwa [hl], ?_, ?_, ?_, ?_⟩ <;> simp only [hl, hg, Function.update_apply] <;>
    grind [inFlight, unstored, uncommitted, carried]

theorem ExactlyOnce.persist {sys : IngestSystem n} (h : ExactlyOnce sys) (i : Fin n)
    {gap : Option (UInt64 × UInt64)} {batch : List OtkEvent} (o t : ℕ)
    (hi : sys.progress i = .batched gap batch) :
    ExactlyOnce ⟨{ sys.service with
        log := ⟨sys.service.log.batches ++ [⟨(sys.calls i).producerId, t, batch⟩]⟩ },
      sys.calls, Function.update sys.progress i (.persisted gap batch o)⟩ := by
  obtain ⟨hnodup, hcovered, hfresh, hdistinct, hbatch⟩ := h
  obtain ⟨ds, rfl, hds⟩ := hbatch i batch (by simp [hi, carried])
  have hkeys := recordKeys_snoc sys.service.log (sys.calls i) t ds hds
  have hnew := fun k => hfresh i k (by simp [hi, unstored])
  refine ⟨?_, ?_, ?_, ?_, ?_⟩
  · simp only [hkeys]
    cases hk : callKey (sys.calls i) with
    | none => simpa using hnodup
    | some k =>
      refine List.nodup_append.mpr ⟨hnodup, by simp, ?_⟩
      rintro a ha b hb rfl
      simp only [Option.toList_some, List.mem_singleton] at hb
      exact hnew k hk (hb ▸ ha)
  all_goals
    simp only [hkeys, Function.update_apply, List.mem_append, Option.mem_toList]
    grind [inFlight, unstored, uncommitted, carried]

theorem ExactlyOnce.commitGate {sys : IngestSystem n} (h : ExactlyOnce sys) (i : Fin n)
    {gap : Option (UInt64 × UInt64)} {batch : List OtkEvent} {o : ℕ}
    (hi : sys.progress i = .persisted gap batch o) :
    ExactlyOnce ⟨{ sys.service with
        gate := commitGate sys.service.gate (sys.calls i).producerId batch },
      sys.calls, Function.update sys.progress i (.gated gap batch o)⟩ := by
  obtain ⟨hnodup, hcovered, hfresh, hdistinct, hbatch⟩ := h
  obtain ⟨ds, rfl, hds⟩ := hbatch i batch (by simp [hi, carried])
  refine ⟨hnodup, ?_, ?_, ?_, ?_⟩
  · intro k hk
    rcases hcovered k hk with hc | ⟨j, hj, hjk⟩
    · exact Or.inl (Covers.commitGate hc _ _)
    · by_cases hji : j = i
      · subst hji
        exact Or.inl (covers_commitGate _ _ ds hjk)
      · exact Or.inr ⟨j, by simpa [hji] using hj, hjk⟩
  all_goals
    simp only [Function.update_apply]
    grind [inFlight, unstored, uncommitted, carried]

theorem ExactlyOnce.step {sys : IngestSystem n} (h : ExactlyOnce sys) (i : Fin n)
    (hok : PeeksAlone sys i) : ExactlyOnce (sys.step i) := by
  obtain ⟨s', pr', hstep, hacc⟩ := step_access sys i
  rw [hstep]
  simp only [PeeksAlone] at hok
  generalize hpr : sys.progress i = pr at hacc hok
  cases hacc with
  | drop _ r hl hg _ => exact h.leave i (by simp [hpr, uncommitted]) hl hg r
  | decide gap hv =>
    -- The key is not stored: it is not covered, and nobody is about to cover it.
    have hnew := fun k => not_covers_of_verdict (k := k) hv
    obtain ⟨hnodup, hcovered, hfresh, hdistinct, hbatch⟩ := h
    refine ⟨hnodup, ?_, ?_, ?_, ?_⟩ <;> simp only [Function.update_apply] <;>
      grind [inFlight, unstored, uncommitted, carried]
  | derive gap =>
    have hds := filterMap_detection?_derive sys.service.processor (sys.calls i).env.crossingId
      (sys.calls i).event
    obtain ⟨hnodup, hcovered, hfresh, hdistinct, hbatch⟩ := h
    refine ⟨hnodup, ?_, ?_, ?_, ?_⟩ <;> simp only [Function.update_apply] <;>
      grind [inFlight, unstored, uncommitted, carried]
  | fail gap batch e => exact h.leave i (by simp [hpr, uncommitted]) rfl rfl _
  | persist gap batch o => exact h.persist i o _ hpr
  | commitGate gap batch o => exact h.commitGate i hpr
  | commitProcessor gap batch o s' hl hg hp =>
    exact h.leave i (by simp [hpr, uncommitted]) hl hg _
  | done r => exact h.leave i (by simp [hpr, uncommitted]) rfl rfl r

/-- A service over an existing log, its gate seeded from that log. -/
def seeded (log : EventHistory) (config : ProcessorConfig) : EventIngestService :=
  .new log config (SequenceGate.new.seedFromLog log.entries)

theorem exactlyOnce_start (log : EventHistory) (config : ProcessorConfig)
    (calls : Fin n → IngestCall) (hlog : (recordKeys log).Nodup) :
    ExactlyOnce (start (seeded log config) calls) := by
  refine ⟨hlog, ?_, ?_, ?_, ?_⟩
  · intro k hk
    simp only [recordKeys, EventHistory.detections, List.mem_map, List.mem_filterMap] at hk
    obtain ⟨_, ⟨e, he, hdet⟩, rfl⟩ := hk
    cases hev : e.event with
    | detection det =>
      simp only [hev, OtkEvent.detection?_detection, Option.map_some, Option.some.injEq] at hdet
      subst hdet
      exact Or.inl (SequenceGate.covers_seedFromLog _ he hev)
    | _ => simp [hev, OtkEvent.detection?] at hdet
  all_goals simp [start, inFlight, unstored, uncommitted, carried]

/-- Along every schedule that keeps calls for one detection apart, no detection
is stored twice. -/
theorem run_recordKeys_nodup (log : EventHistory) (config : ProcessorConfig)
    (calls : Fin n → IngestCall) (hlog : (recordKeys log).Nodup) (schedule : List (Fin n))
    (halone : Along PeeksAlone (start (seeded log config) calls) schedule) :
    (recordKeys ((start (seeded log config) calls).run schedule).service.log).Nodup := by
  have h : ExactlyOnce ((start (seeded log config) calls).run schedule) :=
    run_invariant (fun _ i h hok => h.step i hok) (exactlyOnce_start log config calls hlog)
      schedule halone
  exact h.nodup

/-- Two sessions of one producer submit the same detection; both peek before
either commits, and both store it. -/
theorem overlapping_peeks_store_twice :
    ¬ (recordKeys ((start (seeded .empty {}) fun _ : Fin 2 => detectionCall "d" 0 5).run
      [0, 1, 0, 1, 0, 1]).service.log).Nodup := by
  decide

/-- Two calls for one detection, the second starting after the first. -/
theorem run_recordKeys_nodup_in_turn :
    (recordKeys ((start (seeded .empty {}) fun _ : Fin 2 => detectionCall "d" 0 5).run
      [0, 0, 0, 0, 0, 1]).service.log).Nodup := by
  apply run_recordKeys_nodup .empty {} _ (by decide)
  decide

end IngestSystem
end OtkCore
