import OtkCore.Core.EventLog

/-!
# Sequence gate

Per-`(producer, detector)` high-water enforcement. A detection is let through
exactly when its key's mark does not cover its sequence number; every later
argument about the gate goes through `Covers` and the two lemmas that say how
`peek` reads it and how `commit` extends it.
-/
namespace OtkCore

/-- Outcome of checking a single detection against the gate. -/
inductive GateDecision
  | accept
  | advance (previousHighWater : UInt64)
  | gap (expected got : UInt64)
  | duplicate (highWater got : UInt64)
  deriving DecidableEq, Repr

def GateDecision.persist : GateDecision → Bool
  | .duplicate _ _ => false
  | _ => true

abbrev GateKey := String × DetectorId

/-- Highest accepted sequence number of every `(producer, detector)`. -/
structure SequenceGate where
  highWater : AList fun _ : GateKey => UInt64

namespace SequenceGate

def new : SequenceGate := ⟨∅⟩

/-- What the gate would decide, without mutating state. -/
def peek (g : SequenceGate) (producerId : String) (det : Detection) : GateDecision :=
  let seq := det.sequenceNumber
  match g.highWater.lookup (producerId, det.detectorId) with
  | none => .accept
  | some hw =>
    if seq ≤ hw then .duplicate hw seq
    else if seq = hw + 1 then .advance hw
    else .gap (hw + 1) seq

/-- Advance the mark to the detection's number unless it is already there. -/
def commit (g : SequenceGate) (producerId : String) (det : Detection) : SequenceGate :=
  let key := (producerId, det.detectorId)
  let seq := det.sequenceNumber
  match g.highWater.lookup key with
  | none => ⟨g.highWater.insert key seq⟩
  | some hw => if hw < seq then ⟨g.highWater.insert key seq⟩ else g

def check (g : SequenceGate) (producerId : String) (det : Detection) :
    GateDecision × SequenceGate :=
  let decision := g.peek producerId det
  (decision, if decision.persist then g.commit producerId det else g)

/-- Replay every retained detection of a log into the gate. -/
def seedFromLog (g : SequenceGate) : List LogEntry → SequenceGate
  | [] => g
  | entry :: rest =>
    match entry.event with
    | .detection det => (g.commit entry.producerId det).seedFromLog rest
    | _ => g.seedFromLog rest

/-- The mark of `key` has reached `seq`. -/
def Covers (g : SequenceGate) (key : GateKey) (seq : UInt64) : Prop :=
  ∃ hw, g.highWater.lookup key = some hw ∧ seq ≤ hw

theorem peek_persist_iff (g : SequenceGate) (producerId : String) (det : Detection) :
    (g.peek producerId det).persist = true ↔
      ¬ g.Covers (producerId, det.detectorId) det.sequenceNumber := by
  unfold peek Covers
  cases hl : g.highWater.lookup (producerId, det.detectorId) with
  | none => simp [GateDecision.persist]
  | some hw =>
    by_cases hle : det.sequenceNumber ≤ hw
    · simp [hle, GateDecision.persist]
    · simp only [hle, if_false, Option.some.injEq, exists_eq_left', not_false_eq_true, iff_true]
      split_ifs <;> rfl

theorem highWater_commit (g : SequenceGate) (producerId : String) (det : Detection)
    (key : GateKey) :
    (g.commit producerId det).highWater.lookup key =
      if key = (producerId, det.detectorId) then
        some (match g.highWater.lookup key with
          | none => det.sequenceNumber
          | some hw => if hw < det.sequenceNumber then det.sequenceNumber else hw)
      else g.highWater.lookup key := by
  unfold commit
  by_cases hk : key = (producerId, det.detectorId)
  · subst hk
    cases hl : g.highWater.lookup (producerId, det.detectorId) with
    | none => simp [hl, AList.lookup_insert]
    | some hw => by_cases hlt : hw < det.sequenceNumber <;> simp [hl, hlt, AList.lookup_insert]
  · cases hl : g.highWater.lookup (producerId, det.detectorId) with
    | none => simp [hk, hl, AList.lookup_insert_ne]
    | some hw => by_cases hlt : hw < det.sequenceNumber <;>
        simp [hk, hl, hlt, AList.lookup_insert_ne]

/-- A commit raises the mark of its own key to at least its number and leaves
every other mark alone. -/
theorem covers_commit (g : SequenceGate) (producerId : String) (det : Detection)
    (key : GateKey) (seq : UInt64) :
    (g.commit producerId det).Covers key seq ↔
      g.Covers key seq ∨
        (key = (producerId, det.detectorId) ∧ seq ≤ det.sequenceNumber) := by
  unfold Covers
  rw [highWater_commit]
  by_cases hk : key = (producerId, det.detectorId)
  · cases hl : g.highWater.lookup key with
    | none => simp [hk]
    | some hw =>
      simp only [hk, if_true, Option.some.injEq, exists_eq_left', true_and]
      split_ifs <;> grind
  · simp [hk]

theorem Covers.commit {g : SequenceGate} {key : GateKey} {seq : UInt64} (h : g.Covers key seq)
    (producerId : String) (det : Detection) : (g.commit producerId det).Covers key seq :=
  (covers_commit g producerId det key seq).mpr (Or.inl h)

theorem covers_commit_self (g : SequenceGate) (producerId : String) (det : Detection) :
    (g.commit producerId det).Covers (producerId, det.detectorId) det.sequenceNumber :=
  (covers_commit g producerId det _ _).mpr (Or.inr ⟨rfl, UInt64.le_refl _⟩)

theorem Covers.seedFromLog {g : SequenceGate} {key : GateKey} {seq : UInt64}
    (h : g.Covers key seq) (entries : List LogEntry) : (g.seedFromLog entries).Covers key seq := by
  induction entries generalizing g with
  | nil => exact h
  | cons e rest ih =>
    unfold SequenceGate.seedFromLog
    split
    · exact ih (h.commit _ _)
    · exact ih h

/-- A seeded gate covers every detection of the log it was seeded from. -/
theorem covers_seedFromLog (g : SequenceGate) {entries : List LogEntry} {e : LogEntry}
    (he : e ∈ entries) {det : Detection} (hev : e.event = .detection det) :
    (g.seedFromLog entries).Covers (e.producerId, det.detectorId) det.sequenceNumber := by
  induction entries generalizing g with
  | nil => simp at he
  | cons x rest ih =>
    rcases List.mem_cons.mp he with rfl | he
    · unfold seedFromLog
      rw [hev]
      exact (g.covers_commit_self e.producerId det).seedFromLog rest
    · unfold seedFromLog
      split
      · exact ih _ he
      · exact ih _ he

end SequenceGate
end OtkCore
