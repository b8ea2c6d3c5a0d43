import OtkCore.Node.Scrape

/-!
# Running the node

The node is a set of tasks: one for each listener, one for the API and, when there is a
config file, one for its watcher. Each listener owns the tasks of its sessions. The
supervisor waits for Ctrl-C or for the first task that ends, tells the others to stop
and gives them ten seconds. Any task may take its next step at any time.
-/
namespace OtkCore.Node

/-! ### How a task ends -/

/-- Why a task has no result. A payload is kept when it is a text. -/
inductive JoinError
  | cancelled (text : String)
  | panic (payload : Option String)
  deriving DecidableEq, Repr

namespace JoinError

def isCancelled : JoinError → Bool
  | .cancelled _ => true
  | .panic _ => false

def isPanic : JoinError → Bool
  | .cancelled _ => false
  | .panic _ => true

end JoinError

def joinErrorCause : JoinError → String
  | .panic (some text) => text
  | .panic none => "panic payload not a string"
  | .cancelled text => text

inductive ShutdownError
  | taskPanicked (name cause : String)
  | taskFailed (name cause : String)
  | taskExitedEarly (name : String)
  | monitorPanicked (cause : String)
  | drainTimedOut (deadlineSecs : ℕ)
  deriving DecidableEq, Repr

def ShutdownError.display : ShutdownError → String
  | .taskPanicked name cause => "task `" ++ name ++ "` panicked: " ++ cause
  | .taskFailed name cause => "task `" ++ name ++ "` ended with an error: " ++ cause
  | .taskExitedEarly name => "task `" ++ name ++ "` exited before shutdown signal"
  | .monitorPanicked cause => "join-set monitor task panicked: " ++ cause
  | .drainTimedOut deadlineSecs =>
    "shutdown drain exceeded " ++ toString deadlineSecs ++
      "s deadline; remaining tasks were aborted"

/-- What the join set yields: the task's name and result, unless the task that waits
for it has failed itself. -/
abbrev Joined : Type := Except JoinError (String × Except JoinError Unit)

inductive Level
  | warn
  | error
  deriving DecidableEq, Repr

/-- A task that ends before the shutdown is a failure, whatever its result. -/
def classifyUnexpectedExit : Joined → Level × ShutdownError
  | .ok (name, .ok ()) => (.warn, .taskExitedEarly name)
  | .ok (name, .error e) =>
    if e.isPanic then (.error, .taskPanicked name (joinErrorCause e))
    else (.error, .taskFailed name (joinErrorCause e))
  | .error e => (.error, .monitorPanicked (joinErrorCause e))

/-- What is wrong with a task that ends during the drain. -/
def drainFailure : Joined → Option ShutdownError
  | .ok (_, .ok ()) => none
  | .ok (name, .error e) =>
    if e.isCancelled then none
    else if e.isPanic then some (.taskPanicked name (joinErrorCause e))
    else some (.taskFailed name (joinErrorCause e))
  | .error e => some (.monitorPanicked (joinErrorCause e))

def shutdownDeadlineSecs : ℕ := 10

/-- The exit status of the process and its last line. -/
def exitOf : Except ShutdownError Unit → ℕ × Option String
  | .ok () => (0, none)
  | .error e => (1, some ("fatal: " ++ e.display))

inductive StartError
  | noListeners
  | duplicateListener (id : String) (first index : ℕ)
  deriving DecidableEq, Repr

/-- The ids of the listeners before, against the next ones. -/
def checkUnseen (before : List String) : List String → Except StartError Unit
  | [] => .ok ()
  | id :: ids =>
    if id ∈ before then .error (.duplicateListener id (before.idxOf id) before.length)
    else checkUnseen (before ++ [id]) ids

/-- The checks a node makes on its listeners before it binds any of them. -/
def checkListeners (ids : List String) : Except StartError Unit :=
  if ids = [] then .error .noListeners else checkUnseen [] ids

theorem checkUnseen_ok_iff {before : List String} (hbefore : before.Nodup) (ids : List String) :
    checkUnseen before ids = .ok () ↔ (before ++ ids).Nodup := by
  induction ids generalizing before with
  | nil => simp [checkUnseen, hbefore]
  | cons id ids ih =>
    rw [checkUnseen]
    split_ifs with hmem
    · have hnot : ¬ (before ++ id :: ids).Nodup := fun h =>
        List.disjoint_of_nodup_append h hmem List.mem_cons_self
      simp [hnot]
    · have hnext : (before ++ [id]).Nodup := by
        rw [← List.concat_eq_append]
        exact hbefore.concat hmem
      rw [ih hnext, List.append_assoc, List.singleton_append]

theorem checkListeners_ok_iff (ids : List String) :
    checkListeners ids = .ok () ↔ ids ≠ [] ∧ ids.Nodup := by
  rw [checkListeners]
  split_ifs with hnil
  · simp [hnil]
  · rw [checkUnseen_ok_iff List.nodup_nil, List.nil_append]
    exact ⟨fun h => ⟨hnil, h⟩, fun h => h.2⟩

theorem checkUnseen_duplicate {before ids : List String} {id : String} {first index : ℕ}
    (h : checkUnseen before ids = .error (.duplicateListener id first index)) :
    first < index ∧ (before ++ ids)[first]? = some id ∧ (before ++ ids)[index]? = some id := by
  induction ids generalizing before with
  | nil => cases h
  | cons next ids ih =>
    rw [checkUnseen] at h
    split_ifs at h with hmem
    · obtain ⟨rfl, rfl, rfl⟩ : next = id ∧ before.idxOf next = first ∧ before.length = index := by
        simpa using h
      have hlt := List.idxOf_lt_length_of_mem hmem
      constructor
      · exact hlt
      · rw [List.getElem?_append_left hlt, List.getElem?_eq_getElem hlt, List.getElem_idxOf hlt]
        simp
    · have hrest := ih h
      rwa [List.append_assoc, List.singleton_append] at hrest

/-- The tasks of a node with `n` listeners. -/
inductive TaskId (n : ℕ)
  | ingest (i : Fin n)
  | watcher
  | api
  deriving DecidableEq

/-- The watcher comes after the listeners and is numbered with them. -/
def TaskId.name {n : ℕ} : TaskId n → String
  | .ingest i => "ingest[" ++ toString i.val ++ "]"
  | .watcher => "ingest[" ++ toString n ++ "]"
  | .api => "api"

/-- The task of a session; it holds the guard of the gauge. -/
structure SessionTask (n : ℕ) where
  listener : Fin n
  running : Bool
  /-- Its listener has taken its result. -/
  reaped : Bool
  aborted : Bool
  deriving DecidableEq

/-- What `run_until_shutdown` waits for. -/
inductive Supervisor
  | watching
  | draining (exitReason : String) (firstFailure : Option ShutdownError)
  | stopped (exitReason : String) (timedOut : Bool) (result : Except ShutdownError Unit)
  deriving DecidableEq

/-- A task that waits for another only passes its result on, so the join set is what
has been taken out of it. -/
structure System (n : ℕ) where
  /-- The node was started from a config file. -/
  watched : Bool
  shutdown : Bool
  supervisor : Supervisor
  ended : TaskId n → Option (Except JoinError Unit)
  aborted : TaskId n → Bool
  joined : TaskId n → Bool
  /-- The accept loop of the listener is over. -/
  draining : Fin n → Bool
  sessions : List (SessionTask n)
  /-- The calls on the session metrics. -/
  ops : List MetricOp

namespace System

variable {n : ℕ}

def start (watched : Bool) : System n :=
  { watched := watched
    shutdown := false
    supervisor := .watching
    ended := fun _ => none
    aborted := fun _ => false
    joined := fun _ => false
    draining := fun _ => false
    sessions := []
    ops := [] }

def Spawned (s : System n) (t : TaskId n) : Prop := t = .watcher → s.watched = true

/-- A listener takes its join set with it: the sessions in it are aborted. -/
def dropSessions (i : Fin n) (sessions : List (SessionTask n)) : List (SessionTask n) :=
  sessions.map fun x =>
    if x.listener = i ∧ x.reaped = false then { x with aborted := true } else x

def endTask (s : System n) (t : TaskId n) (r : Except JoinError Unit) : System n :=
  { s with
    ended := Function.update s.ended t (some r)
    sessions :=
      match t with
      | .ingest i => dropSessions i s.sessions
      | _ => s.sessions }

@[simp] theorem ended_endTask (s : System n) (t : TaskId n) (r : Except JoinError Unit) :
    (s.endTask t r).ended = Function.update s.ended t (some r) := rfl

variable (ids : Fin n → String)

inductive Step (s : System n) : System n → Prop
  | accepts (i : Fin n) : s.ended (.ingest i) = none → s.draining i = false →
    Step s { s with
      sessions := s.sessions ++ [⟨i, true, false, false⟩]
      ops := s.ops ++ [.accepted (ids i)] }
  /-- The port is closed. -/
  | closes (i : Fin n) : s.ended (.ingest i) = none → s.draining i = false →
    Step s { s with draining := Function.update s.draining i true }
  | hears (i : Fin n) : s.ended (.ingest i) = none → s.draining i = false → s.shutdown = true →
    Step s { s with draining := Function.update s.draining i true }
  /-- A session returns, panics or is torn down; its guard is dropped. -/
  | finishes (k : ℕ) (x : SessionTask n) : s.sessions[k]? = some x → x.running = true →
    Step s { s with
      sessions := s.sessions.set k { x with running := false }
      ops := s.ops ++ [.closed (ids x.listener)] }
  /-- In the accept loop or in the drain. -/
  | reaps (k : ℕ) (x : SessionTask n) : s.sessions[k]? = some x → x.running = false →
    x.reaped = false → s.ended (.ingest x.listener) = none →
    Step s { s with sessions := s.sessions.set k { x with reaped := true } }
  /-- All sessions are drained, or five seconds are over. -/
  | returns (i : Fin n) (timedOut : Bool) : s.ended (.ingest i) = none → s.draining i = true →
    (timedOut = false → ∀ x ∈ s.sessions, x.listener = i → x.reaped = true) →
    Step s (s.endTask (.ingest i) (.ok ()))
  /-- The watcher could not start, or it has heard of the shutdown. -/
  | unwatches : s.watched = true → s.ended .watcher = none →
    Step s (s.endTask .watcher (.ok ()))
  /-- The graceful shutdown of the server is complete. -/
  | serves : s.ended .api = none → s.shutdown = true → Step s (s.endTask .api (.ok ()))
  | panics (t : TaskId n) (payload : Option String) : s.Spawned t → s.ended t = none →
    Step s (s.endTask t (.error (.panic payload)))
  | cancels (t : TaskId n) (text : String) : s.Spawned t → s.ended t = none →
    s.aborted t = true → Step s (s.endTask t (.error (.cancelled text)))
  | interrupts : s.supervisor = .watching →
    Step s { s with supervisor := .draining "ctrl_c" none, shutdown := true }
  | notices (t : TaskId n) (r : Except JoinError Unit) : s.supervisor = .watching →
    s.ended t = some r → s.joined t = false →
    Step s { s with
      supervisor := .draining "task_exit" (some (classifyUnexpectedExit (.ok (t.name, r))).2)
      joined := Function.update s.joined t true
      shutdown := true }
  | drains (t : TaskId n) (r : Except JoinError Unit) (exitReason : String)
      (firstFailure : Option ShutdownError) : s.supervisor = .draining exitReason firstFailure →
    s.ended t = some r → s.joined t = false →
    Step s { s with
      supervisor := .draining exitReason (firstFailure <|> drainFailure (.ok (t.name, r)))
      joined := Function.update s.joined t true }
  | stops (exitReason : String) (firstFailure : Option ShutdownError) :
    s.supervisor = .draining exitReason firstFailure →
    (∀ t, s.Spawned t → s.joined t = true) →
    Step s { s with
      supervisor := .stopped exitReason false (firstFailure.elim (.ok ()) .error) }
  /-- The drain is given up; the tasks themselves are aborted, not those that wait
  for them. -/
  | givesUp (exitReason : String) (firstFailure : Option ShutdownError) :
    s.supervisor = .draining exitReason firstFailure →
    (∃ t, s.Spawned t ∧ s.joined t = false) →
    Step s { s with
      supervisor := .stopped exitReason true
        (.error (firstFailure.getD (.drainTimedOut shutdownDeadlineSecs)))
      aborted := fun t => s.aborted t || (s.ended t).isNone }

inductive Run (watched : Bool) : System n → Prop
  | start : Run watched (start watched)
  | step {s s' : System n} : Run watched s → Step ids s s' → Run watched s'

/-- What an error says of the tasks: which one panicked or returned too early. No task
ends in any other way before the supervisor has given up. -/
def Blames (s : System n) (exitReason : String) (timedOut : Bool) : ShutdownError → Prop
  | .taskPanicked name cause => ∃ t payload, s.Spawned t ∧ name = t.name ∧
    s.ended t = some (.error (.panic payload)) ∧ cause = joinErrorCause (.panic payload)
  | .taskExitedEarly name => exitReason = "task_exit" ∧ ∃ t, s.Spawned t ∧ t ≠ .api ∧
    name = t.name ∧ s.ended t = some (.ok ())
  | .drainTimedOut deadlineSecs =>
    deadlineSecs = 10 ∧ exitReason = "ctrl_c" ∧ timedOut = true
  | .taskFailed _ _ => False
  | .monitorPanicked _ => False

def Tells (s : System n) : Supervisor → Prop
  | .watching => ∀ t, s.joined t = false
  | .draining exitReason firstFailure =>
    (firstFailure = none → exitReason = "ctrl_c" ∧
      ∀ t, s.joined t = true → s.ended t = some (.ok ())) ∧
    ∀ e, firstFailure = some e → s.Blames exitReason false e
  | .stopped exitReason timedOut result =>
    (result = .ok () → exitReason = "ctrl_c" ∧ timedOut = false ∧
      ∀ t, s.Spawned t → s.ended t = some (.ok ())) ∧
    (∀ e, result = .error e → s.Blames exitReason timedOut e) ∧
    ∀ t, s.Spawned t → s.ended t = none → s.aborted t = true

structure Sound (s : System n) : Prop where
  shutdown : s.supervisor = .watching → s.shutdown = false
  aborted : ∀ t, s.aborted t = true →
    ∃ exitReason result, s.supervisor = .stopped exitReason true result
  cancelled : ∀ t text, s.ended t = some (.error (.cancelled text)) → s.aborted t = true
  api : s.ended .api = some (.ok ()) → s.shutdown = true
  spawned : ∀ t r, s.ended t = some r → s.Spawned t
  joined : ∀ t, s.joined t = true → s.ended t ≠ none
  tells : s.Tells s.supervisor

theorem Blames.later {s s' : System n} (hwatched : s'.watched = s.watched)
    (hended : ∀ t r, s.ended t = some r → s'.ended t = some r) {exitReason : String}
    {timedOut : Bool} {e : ShutdownError} (h : s.Blames exitReason timedOut e) :
    s'.Blames exitReason timedOut e := by
  have hspawned : ∀ t, s.Spawned t → s'.Spawned t := fun t ht hwatcher => by
    rw [hwatched]
    exact ht hwatcher
  cases e with
  | taskPanicked name cause =>
    obtain ⟨t, payload, ht, hname, hpanic, hcause⟩ := h
    exact ⟨t, payload, hspawned t ht, hname, hended t _ hpanic, hcause⟩
  | taskExitedEarly name =>
    obtain ⟨hreason, t, ht, hapi, hname, hreturned⟩ := h
    exact ⟨hreason, t, hspawned t ht, hapi, hname, hended t _ hreturned⟩
  | drainTimedOut deadlineSecs => exact h
  | taskFailed name cause => exact h
  | monitorPanicked cause => exact h

/-- What the supervisor knows stays true while more tasks end. -/
theorem Tells.later {s s' : System n} (hwatched : s'.watched = s.watched)
    (hended : ∀ t r, s.ended t = some r → s'.ended t = some r)
    (hjoined : s'.joined = s.joined) (haborted : ∀ t, s.aborted t = true → s'.aborted t = true)
    {supervisor : Supervisor} (h : s.Tells supervisor) : s'.Tells supervisor := by
  have hspawned : ∀ t, s'.Spawned t → s.Spawned t := fun t ht hwatcher => by
    rw [← hwatched]
    exact ht hwatcher
  cases supervisor with
  | watching =>
    intro t
    rw [hjoined]
    exact h t
  | draining exitReason firstFailure =>
    obtain ⟨hclean, hblames⟩ := h
    constructor
    · intro hnone
      obtain ⟨hreason, hreturned⟩ := hclean hnone
      rw [hjoined]
      exact ⟨hreason, fun t ht => hended t _ (hreturned t ht)⟩
    · exact fun e he => (hblames e he).later hwatched hended
  | stopped exitReason timedOut result =>
    obtain ⟨hclean, hblames, hgiven⟩ := h
    refine ⟨?_, fun e he => (hblames e he).later hwatched hended, ?_⟩
    · intro hok
      obtain ⟨hreason, htime, hreturned⟩ := hclean hok
      exact ⟨hreason, htime, fun t ht => hended t _ (hreturned t (hspawned t ht))⟩
    · intro t ht hrunning
      apply haborted
      apply hgiven t (hspawned t ht)
      cases hwas : s.ended t with
      | none => rfl
      | some r =>
        rw [hended t r hwas] at hrunning
        cases hrunning

/-- A step of a listener or a session says nothing to the supervisor. -/
theorem Sound.quiet {s s' : System n} (h : s.Sound) (hwatched : s'.watched = s.watched)
    (hshutdown : s'.shutdown = s.shutdown) (hsupervisor : s'.supervisor = s.supervisor)
    (hended : s'.ended = s.ended) (haborted : s'.aborted = s.aborted)
    (hjoined : s'.joined = s.joined) : s'.Sound := by
  constructor
  · rw [hsupervisor, hshutdown]
    exact h.shutdown
  · rw [haborted, hsupervisor]
    exact h.aborted
  · rw [hended, haborted]
    exact h.cancelled
  · rw [hended, hshutdown]
    exact h.api
  · intro t r hr hwatcher
    rw [hended] at hr
    rw [hwatched]
    exact h.spawned t r hr hwatcher
  · rw [hjoined, hended]
    exact h.joined
  · rw [hsupervisor]
    apply Tells.later hwatched _ hjoined _ h.tells
    · intro t r hr
      rw [hended]
      exact hr
    · intro t ht
      rw [haborted]
      exact ht

theorem ended_endTask_of_some {s : System n} {t u : TaskId n} (r : Except JoinError Unit)
    {r' : Except JoinError Unit} (hrunning : s.ended t = none) (hu : s.ended u = some r') :
    (s.endTask t r).ended u = some r' := by
  have hne : u ≠ t := by
    rintro rfl
    rw [hrunning] at hu
    cases hu
  rw [ended_endTask, Function.update_of_ne hne]
  exact hu

/-- A task that ends was spawned, is cancelled only when it has been aborted, and the
API returns only when it is told to. -/
theorem Sound.ends {s : System n} (h : s.Sound) {t : TaskId n} {r : Except JoinError Unit}
    (hspawned : s.Spawned t) (hrunning : s.ended t = none)
    (hcancelled : ∀ text, r = .error (.cancelled text) → s.aborted t = true)
    (hapi : t = .api → r = .ok () → s.shutdown = true) : (s.endTask t r).Sound := by
  have hended : ∀ u r', (s.endTask t r).ended u = some r' →
      u = t ∧ r' = r ∨ s.ended u = some r' := by
    intro u r' hu
    by_cases hut : u = t
    · subst hut
      rw [ended_endTask, Function.update_self] at hu
      exact .inl ⟨rfl, (Option.some.inj hu).symm⟩
    · rw [ended_endTask, Function.update_of_ne hut] at hu
      exact .inr hu
  constructor
  · exact h.shutdown
  · exact h.aborted
  · intro u text hu
    rcases hended u _ hu with ⟨rfl, hr⟩ | hwas
    · exact hcancelled text hr.symm
    · exact h.cancelled u text hwas
  · intro hu
    rcases hended _ _ hu with ⟨hut, hr⟩ | hwas
    · exact hapi hut.symm hr.symm
    · exact h.api hwas
  · intro u r' hu
    rcases hended u r' hu with ⟨rfl, -⟩ | hwas
    · exact hspawned
    · exact h.spawned u r' hwas
  · intro u hu
    obtain ⟨r', hr'⟩ := Option.ne_none_iff_exists'.mp (h.joined u hu)
    rw [ended_endTask_of_some r hrunning hr']
    exact Option.some_ne_none r'
  · have htells : (s.endTask t r).Tells s.supervisor := by
      apply h.tells.later
      case hwatched => rfl
      case hended => exact fun u r' hu => ended_endTask_of_some r hrunning hu
      case hjoined => rfl
      case haborted => exact fun u hu => hu
    exact htells

/-- What a drained or noticed task says, if it has not been aborted. -/
theorem Sound.panicked {s : System n} (h : s.Sound) {t : TaskId n} {e : JoinError}
    (hended : s.ended t = some (.error e)) (haborted : s.aborted t = false) :
    ∃ payload, e = .panic payload := by
  cases e with
  | cancelled text =>
    have hwas := h.cancelled t text hended
    rw [haborted] at hwas
    cases hwas
  | panic payload => exact ⟨payload, rfl⟩

theorem Sound.not_aborted {s : System n} (h : s.Sound)
    (hsupervisor : ∀ exitReason result, s.supervisor ≠ .stopped exitReason true result)
    (t : TaskId n) : s.aborted t = false := by
  cases ht : s.aborted t with
  | false => rfl
  | true =>
    obtain ⟨exitReason, result, hstopped⟩ := h.aborted t ht
    exact absurd hstopped (hsupervisor exitReason result)

theorem Sound.notices {s : System n} (h : s.Sound) {t : TaskId n} {r : Except JoinError Unit}
    (hwatching : s.supervisor = .watching) (hended : s.ended t = some r) :
    s.Blames "task_exit" false (classifyUnexpectedExit (.ok (t.name, r))).2 := by
  have hspawned := h.spawned t r hended
  cases r with
  | ok u =>
    have hapi : t ≠ .api := by
      rintro rfl
      have hshutdown := h.api hended
      rw [h.shutdown hwatching] at hshutdown
      cases hshutdown
    exact ⟨rfl, t, hspawned, hapi, rfl, hended⟩
  | error e =>
    have haborted := h.not_aborted (by simp [hwatching]) t
    obtain ⟨payload, rfl⟩ := h.panicked hended haborted
    exact ⟨t, payload, hspawned, rfl, hended, rfl⟩

theorem Sound.drains {s : System n} (h : s.Sound) {t : TaskId n} {r : Except JoinError Unit}
    {exitReason : String} {firstFailure : Option ShutdownError}
    (hdraining : s.supervisor = .draining exitReason firstFailure)
    (hended : s.ended t = some r) :
    (drainFailure (.ok (t.name, r)) = none → r = .ok ()) ∧
      ∀ e, drainFailure (.ok (t.name, r)) = some e → s.Blames exitReason false e := by
  have hspawned := h.spawned t r hended
  cases r with
  | ok u => exact ⟨fun _ => rfl, fun e he => by cases he⟩
  | error e =>
    have haborted := h.not_aborted (by simp [hdraining]) t
    obtain ⟨payload, rfl⟩ := h.panicked hended haborted
    constructor
    · intro hnone
      cases hnone
    · intro e he
      obtain rfl := Option.some.inj he
      exact ⟨t, payload, hspawned, rfl, hended, rfl⟩

theorem Sound.moves {s s' : System n} (h : s.Sound) (hwatched : s'.watched = s.watched)
    (hended : s'.ended = s.ended) (haborted : s'.aborted = s.aborted)
    (hnone : ∀ t, s.aborted t = false) (hleft : s'.supervisor ≠ .watching)
    (hshutdown : s.shutdown = true → s'.shutdown = true)
    (hjoined : ∀ t, s'.joined t = true → s.ended t ≠ none) (htells : s'.Tells s'.supervisor) :
    s'.Sound := by
  constructor
  · exact fun hwatching => absurd hwatching hleft
  · intro t ht
    rw [haborted, hnone t] at ht
    cases ht
  · rw [hended, haborted]
    exact h.cancelled
  · rw [hended]
    exact fun hapi => hshutdown (h.api hapi)
  · intro t r hr hwatcher
    rw [hended] at hr
    rw [hwatched]
    exact h.spawned t r hr hwatcher
  · rw [hended]
    exact hjoined
  · exact htells

theorem joined_update {joined : TaskId n → Bool} {t u : TaskId n}
    (h : Function.update joined t true u = true) : u = t ∨ joined u = true := by
  by_cases hut : u = t
  · exact .inl hut
  · rw [Function.update_of_ne hut] at h
    exact .inr h

/-- A task is taken out of the join set; the supervisor remembers the first failure. -/
theorem Sound.joins {s s' : System n} (h : s.Sound) {t : TaskId n} {r : Except JoinError Unit}
    {exitReason : String} {firstFailure : Option ShutdownError}
    (hdraining : s.supervisor = .draining exitReason firstFailure) (hended : s.ended t = some r)
    (hwatched : s'.watched = s.watched) (hsame : s'.ended = s.ended)
    (hjoined : s'.joined = Function.update s.joined t true) :
    s'.Tells (.draining exitReason (firstFailure <|> drainFailure (.ok (t.name, r)))) := by
  have htells := h.tells
  rw [hdraining] at htells
  obtain ⟨hclean, hblames⟩ := htells
  obtain ⟨hreturned, hfailed⟩ := h.drains hdraining hended
  have hlater : ∀ u r', s.ended u = some r' → s'.ended u = some r' := fun u r' hu => by
    rw [hsame]
    exact hu
  cases firstFailure with
  | none =>
    obtain ⟨hreason, hall⟩ := hclean rfl
    constructor
    · intro hquiet
      refine ⟨hreason, fun u hu => ?_⟩
      rw [hjoined] at hu
      rcases joined_update hu with rfl | hwas
      · exact hlater u _ (hended.trans (congrArg some (hreturned hquiet)))
      · exact hlater u _ (hall u hwas)
    · exact fun e he => (hfailed e he).later hwatched hlater
  | some first =>
    constructor
    · intro hbad
      cases hbad
    · intro e he
      obtain rfl : first = e := Option.some.inj he
      exact (hblames first rfl).later hwatched hlater

theorem Sound.stops {s s' : System n} (h : s.Sound) {exitReason : String}
    {firstFailure : Option ShutdownError}
    (hdraining : s.supervisor = .draining exitReason firstFailure)
    (hall : ∀ t, s.Spawned t → s.joined t = true) (hwatched : s'.watched = s.watched)
    (hsame : s'.ended = s.ended) :
    s'.Tells (.stopped exitReason false (firstFailure.elim (.ok ()) .error)) := by
  have htells := h.tells
  rw [hdraining] at htells
  obtain ⟨hclean, hblames⟩ := htells
  have hspawned : ∀ t, s'.Spawned t → s.Spawned t := fun t ht hwatcher => by
    rw [← hwatched]
    exact ht hwatcher
  have hended : ∀ t, s'.Spawned t → s'.ended t ≠ none := by
    intro t ht
    rw [hsame]
    exact h.joined t (hall t (hspawned t ht))
  refine ⟨?_, ?_, fun t ht hrunning => absurd hrunning (hended t ht)⟩
  · intro hok
    cases firstFailure with
    | none =>
      obtain ⟨hreason, hreturned⟩ := hclean rfl
      refine ⟨hreason, rfl, fun t ht => ?_⟩
      rw [hsame]
      exact hreturned t (hall t (hspawned t ht))
    | some first => cases hok
  · intro e he
    cases firstFailure with
    | none => cases he
    | some first =>
      obtain rfl : first = e := Except.error.inj he
      exact (hblames first rfl).later hwatched fun u r hu => by rwa [hsame]

theorem Sound.givesUp {s s' : System n} (h : s.Sound) {exitReason : String}
    {firstFailure : Option ShutdownError}
    (hdraining : s.supervisor = .draining exitReason firstFailure)
    (hwatched : s'.watched = s.watched) (hsame : s'.ended = s.ended)
    (haborted : ∀ t, s.ended t = none → s'.aborted t = true) :
    s'.Tells (.stopped exitReason true
      (.error (firstFailure.getD (.drainTimedOut shutdownDeadlineSecs)))) := by
  have htells := h.tells
  rw [hdraining] at htells
  obtain ⟨hclean, hblames⟩ := htells
  refine ⟨nofun, ?_, ?_⟩
  · intro e he
    obtain rfl := Except.error.inj he
    cases firstFailure with
    | none => exact ⟨rfl, (hclean rfl).1, rfl⟩
    | some first =>
      have hfirst := (hblames first rfl).later hwatched fun u r hu => by rwa [hsame]
      cases first with
      | drainTimedOut secs =>
        obtain ⟨-, -, hbad⟩ := hfirst
        cases hbad
      | taskPanicked name cause => exact hfirst
      | taskFailed name cause => exact hfirst
      | taskExitedEarly name => exact hfirst
      | monitorPanicked cause => exact hfirst
  · intro t ht hrunning
    rw [hsame] at hrunning
    exact haborted t hrunning

theorem Sound.step {ids : Fin n → String} {s s' : System n} (h : s.Sound) (hstep : Step ids s s') :
    s'.Sound := by
  cases hstep with
  | accepts i hrunning hdraining => exact h.quiet rfl rfl rfl rfl rfl rfl
  | closes i hrunning hdraining => exact h.quiet rfl rfl rfl rfl rfl rfl
  | hears i hrunning hdraining hshutdown => exact h.quiet rfl rfl rfl rfl rfl rfl
  | finishes k x hx hrunning => exact h.quiet rfl rfl rfl rfl rfl rfl
  | reaps k x hx hrunning hreaped hlistener => exact h.quiet rfl rfl rfl rfl rfl rfl
  | returns i timedOut hrunning hdraining hall =>
    exact Sound.ends (t := .ingest i) (r := .ok ()) h nofun hrunning nofun nofun
  | unwatches hwatched hrunning =>
    exact Sound.ends (t := .watcher) (r := .ok ()) h (fun _ => hwatched) hrunning nofun nofun
  | serves hrunning hshutdown =>
    exact Sound.ends (t := .api) (r := .ok ()) h nofun hrunning nofun fun _ _ => hshutdown
  | panics t payload hspawned hrunning =>
    exact Sound.ends (r := .error (.panic payload)) h hspawned hrunning nofun nofun
  | cancels t text hspawned hrunning haborted =>
    exact Sound.ends (r := .error (.cancelled text)) h hspawned hrunning
      (fun _ _ => haborted) nofun
  | interrupts hwatching =>
    have hunjoined := h.tells
    have hnone := h.not_aborted (by simp [hwatching])
    rw [hwatching] at hunjoined
    refine h.moves rfl rfl rfl hnone nofun (fun _ => rfl) h.joined
      ⟨fun _ => ⟨rfl, fun t ht => ?_⟩, nofun⟩
    rw [hunjoined t] at ht
    cases ht
  | notices t r hwatching hended hjoined =>
    have hnone := h.not_aborted (by simp [hwatching])
    refine h.moves rfl rfl rfl hnone nofun (fun _ => rfl) ?_ ⟨nofun, fun e he => ?_⟩
    · intro u hu
      rcases joined_update hu with rfl | hwas
      · simp [hended]
      · exact h.joined u hwas
    · obtain rfl := Option.some.inj he
      exact (h.notices hwatching hended).later rfl fun _ _ hu => hu
  | drains t r exitReason firstFailure hdraining hended hjoined =>
    have hnone := h.not_aborted (by simp [hdraining])
    refine h.moves rfl rfl rfl hnone nofun id ?_ (h.joins hdraining hended rfl rfl rfl)
    intro u hu
    rcases joined_update hu with rfl | hwas
    · simp [hended]
    · exact h.joined u hwas
  | stops exitReason firstFailure hdraining hall =>
    have hnone := h.not_aborted (by simp [hdraining])
    exact h.moves rfl rfl rfl hnone nofun id h.joined (h.stops hdraining hall rfl rfl)
  | givesUp exitReason firstFailure hdraining hsome =>
    constructor
    · exact nofun
    · exact fun _ _ => ⟨exitReason, _, rfl⟩
    · intro t text ht
      simp [h.cancelled t text ht]
    · exact h.api
    · exact h.spawned
    · exact h.joined
    · refine h.givesUp hdraining rfl rfl fun t hrunning => ?_
      simp [hrunning]

theorem Run.sound {ids : Fin n → String} {watched : Bool} {s : System n}
    (h : Run ids watched s) : s.Sound := by
  induction h with
  | start =>
    constructor
    · exact fun _ => rfl
    · exact nofun
    · exact nofun
    · exact nofun
    · exact nofun
    · exact nofun
    · exact fun _ => rfl
  | step hrun hstep ih => exact ih.step hstep

/-- The exit status tells how the node has stopped, whatever its tasks did and in
whatever order: it is zero when Ctrl-C came first and every task has returned in time;
otherwise the error names a task that panicked, one that returned before it was told
to, or the deadline. No task is left that has neither ended nor been aborted. -/
theorem exit_status_truthful {ids : Fin n → String} {watched : Bool} {s : System n}
    (h : Run ids watched s) {exitReason : String} {timedOut : Bool}
    {result : Except ShutdownError Unit}
    (hstopped : s.supervisor = .stopped exitReason timedOut result) :
    ((exitOf result).1 = 0 ↔ exitReason = "ctrl_c" ∧ timedOut = false ∧
      ∀ t, s.Spawned t → s.ended t = some (.ok ())) ∧
    (∀ e, result = .error e → s.Blames exitReason timedOut e) ∧
    ∀ t, s.Spawned t → s.ended t = none → s.aborted t = true := by
  have htells := h.sound.tells
  rw [hstopped] at htells
  obtain ⟨hclean, hblames, hgiven⟩ := htells
  refine ⟨⟨fun hzero => ?_, fun hall => ?_⟩, hblames, hgiven⟩
  · cases result with
    | ok u => exact hclean rfl
    | error e => cases hzero
  · obtain ⟨hreason, htime, hreturned⟩ := hall
    cases result with
    | ok u => rfl
    | error e =>
      have hbad := hblames e rfl
      cases e with
      | taskPanicked name cause =>
        obtain ⟨t, payload, ht, -, hpanic, -⟩ := hbad
        rw [hreturned t ht] at hpanic
        cases hpanic
      | taskExitedEarly name =>
        obtain ⟨htask, -⟩ := hbad
        rw [hreason] at htask
        exact absurd htask (by decide)
      | drainTimedOut secs =>
        obtain ⟨-, -, hlate⟩ := hbad
        rw [htime] at hlate
        cases hlate
      | taskFailed name cause => exact hbad.elim
      | monitorPanicked cause => exact hbad.elim

/-- A node whose config directory cannot be watched: the watcher returns at once, and
the supervisor takes the node down. -/
theorem exit_status_truthful_sample : ∃ s : System 1, Run (fun _ => "tcp") true s ∧
    s.supervisor = .stopped "task_exit" false
      (.error (.taskExitedEarly (TaskId.name (n := 1) .watcher))) ∧
    s.Blames "task_exit" false (.taskExitedEarly (TaskId.name (n := 1) .watcher)) := by
  have hrun : Run (fun _ : Fin 1 => "tcp") true (start true) := .start
  have hrun := hrun.step (.unwatches rfl rfl)
  have hrun := hrun.step (.notices .watcher (.ok ()) rfl rfl rfl)
  have hrun := hrun.step (.hears 0 rfl rfl rfl)
  have hrun := hrun.step (.returns 0 false rfl rfl (by simp [start, endTask]))
  have hrun := hrun.step (.drains (.ingest 0) (.ok ()) _ _ rfl rfl rfl)
  have hrun := hrun.step (.serves rfl rfl)
  have hrun := hrun.step (.drains .api (.ok ()) _ _ rfl rfl rfl)
  have hrun := hrun.step (.stops _ _ rfl (by
    rintro (i | - | -) -
    · obtain rfl : i = 0 := Subsingleton.elim _ _
      rfl
    · rfl
    · rfl))
  exact ⟨_, hrun, rfl, (exit_status_truthful hrun rfl).2.1 _ rfl⟩

end System

end OtkCore.Node
