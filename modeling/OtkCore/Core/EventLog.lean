import OtkCore.EventModel
import OtkCore.Lib.Disk

/-!
# The event-log port

Types of the persistence contract, and the abstract log that the contract
describes: a sequence of batches, each committed whole, whose events receive
consecutive offsets in input order. Every backend is compared with this log;
the ingest service only relies on it.
-/
namespace OtkCore

open FileIO (IoErrorKind)

/-- A stored event with its position, receipt time and producer. -/
structure LogEntry where
  offset : ℕ
  appendedAtNs : ℕ
  producerId : String
  event : OtkEvent
  deriving DecidableEq

inductive RetentionPolicy
  | indefinite
  | timeBased (maxAgeSecs : ℕ)
  | sizeBased (maxBytes : ℕ)
  | hybrid (maxAgeSecs maxBytes : ℕ)
  deriving DecidableEq, Repr

inductive StorageError
  | retentionExpired (requested : ℕ) (earliestAvailable : Option ℕ)
  | invalidInput (msg : String)
  | io (kind : IoErrorKind)
  | corrupted (msg : String)
  | configuration (msg : String)
  deriving DecidableEq, Repr

/-- One accepted `append` call: its producer, receipt time and events. -/
structure Batch where
  producerId : String
  appendedAtNs : ℕ
  events : List OtkEvent
  deriving DecidableEq

/-- The log of the contract: the batches accepted so far, oldest first. -/
structure EventHistory where
  batches : List Batch
  deriving DecidableEq

namespace EventHistory

def empty : EventHistory := ⟨[]⟩

/-- The entries of a batch, its first event stored at `offset`. -/
def batchEntries (offset : ℕ) (b : Batch) : List LogEntry :=
  b.events.mapIdx fun i e => ⟨offset + i, b.appendedAtNs, b.producerId, e⟩

def entriesFrom (offset : ℕ) : List Batch → List LogEntry
  | [] => []
  | b :: bs => batchEntries offset b ++ entriesFrom (offset + b.events.length) bs

/-- Entries in offset order, starting with offset zero. -/
def entries (h : EventHistory) : List LogEntry := entriesFrom 0 h.batches

@[simp] theorem length_batchEntries (offset : ℕ) (b : Batch) :
    (batchEntries offset b).length = b.events.length := by
  simp [batchEntries]

theorem entriesFrom_append (offset : ℕ) (bs cs : List Batch) :
    entriesFrom offset (bs ++ cs) = entriesFrom offset bs ++
      entriesFrom (offset + (entriesFrom offset bs).length) cs := by
  induction bs generalizing offset with
  | nil => simp [entriesFrom]
  | cons b bs ih =>
    simp only [List.cons_append, entriesFrom, ih, List.append_assoc, List.length_append,
      length_batchEntries, Nat.add_assoc]

/-- What the environment decides about one `append`: the receipt time, and
whether the backend fails. -/
structure AppendEnv where
  appendedAtNs : ℕ
  failure : Option StorageError
  deriving DecidableEq

/-- The contract of `EventLog::append`: all events of the slice are committed
with consecutive offsets, or none is and an error is returned. -/
def append (h : EventHistory) (producerId : String) (events : List OtkEvent) (env : AppendEnv) :
    Except StorageError ℕ × EventHistory :=
  if events = [] then (.error (.invalidInput "events slice must not be empty"), h)
  else if producerId = "" then (.error (.invalidInput "producer_id must not be empty"), h)
  else match env.failure with
    | some e => (.error e, h)
    | none => (.ok (h.entries.length + events.length - 1),
        ⟨h.batches ++ [⟨producerId, env.appendedAtNs, events⟩]⟩)

/-- An append either fails and changes nothing, or adds one batch. -/
theorem append_cases (h : EventHistory) (producerId : String) (events : List OtkEvent)
    (env : AppendEnv) :
    (∃ e, h.append producerId events env = (.error e, h)) ∨
    (∃ o, h.append producerId events env =
      (.ok o, ⟨h.batches ++ [⟨producerId, env.appendedAtNs, events⟩]⟩)) := by
  unfold append
  split_ifs with h₁ h₂
  · exact Or.inl ⟨_, rfl⟩
  · exact Or.inl ⟨_, rfl⟩
  · cases hf : env.failure with
    | some e => exact Or.inl ⟨e, rfl⟩
    | none => exact Or.inr ⟨_, rfl⟩

/-- Whether a non-empty batch is accepted depends on its producer and on the
backend, not on the events. -/
theorem append_eq_ok_iff (h : EventHistory) (producerId : String) {events : List OtkEvent}
    (he : events ≠ []) (env : AppendEnv) :
    (∃ o log, h.append producerId events env = (.ok o, log)) ↔
      producerId ≠ "" ∧ env.failure = none := by
  unfold append
  by_cases hp : producerId = ""
  · simp [he, hp]
  · cases hf : env.failure <;> simp [he, hp]

theorem entries_snoc (h : EventHistory) (b : Batch) :
    entries ⟨h.batches ++ [b]⟩ = h.entries ++ batchEntries h.entries.length b := by
  simp [entries, entriesFrom_append, entriesFrom]

theorem entries_prefix (h : EventHistory) (bs : List Batch) :
    h.entries <+: entries ⟨h.batches ++ bs⟩ := by
  rw [entries, entries, entriesFrom_append]
  exact List.prefix_append _ _

/-- Detections of the log with their producers, oldest first. -/
def detections (h : EventHistory) : List (String × Detection) :=
  h.entries.filterMap fun e => e.event.detection?.map fun det => (e.producerId, det)

def crossings (h : EventHistory) : List CrossingEvent :=
  h.entries.filterMap fun e => e.event.crossing?

theorem filterMap_mapIdx_const (f : ℕ → α → β) (g : β → Option γ) (g' : α → Option γ)
    (h : ∀ i a, g (f i a) = g' a) (l : List α) : (l.mapIdx f).filterMap g = l.filterMap g' := by
  induction l generalizing f with
  | nil => rfl
  | cons a l ih =>
    rw [List.mapIdx_cons, List.filterMap_cons, List.filterMap_cons, h,
      ih (fun i => f (i + 1)) fun i => h (i + 1)]

theorem filterMap_batchEntries (f : String → OtkEvent → Option α) (offset : ℕ) (b : Batch) :
    (batchEntries offset b).filterMap (fun e => f e.producerId e.event) =
      b.events.filterMap (f b.producerId) := by
  unfold batchEntries
  apply filterMap_mapIdx_const
  intro i e
  rfl

@[simp] theorem detections_snoc (bs : List Batch) (b : Batch) :
    detections ⟨bs ++ [b]⟩ = detections ⟨bs⟩ ++
      (b.events.filterMap OtkEvent.detection?).map fun det => (b.producerId, det) := by
  rw [detections, entries_snoc ⟨bs⟩, List.filterMap_append, List.map_filterMap]
  exact congrArg _ (filterMap_batchEntries (fun pid e => e.detection?.map fun det => (pid, det)) _ b)

@[simp] theorem crossings_snoc (bs : List Batch) (b : Batch) :
    crossings ⟨bs ++ [b]⟩ = crossings ⟨bs⟩ ++ b.events.filterMap OtkEvent.crossing? := by
  rw [crossings, entries_snoc ⟨bs⟩, List.filterMap_append]
  exact congrArg _ (filterMap_batchEntries (fun _ e => e.crossing?) _ b)

end EventHistory
end OtkCore
