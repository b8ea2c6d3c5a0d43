import OtkCore.Node.Authorisation
import Mathlib.Logic.Function.Basic

/-!
# Reloading the config file

The watcher reloads the file when it changes and hands over only what differs
from the config it remembers. It swaps the two allow-lists one after the other
and remembers the new config last, while handshakes and requests take snapshots
at any moment. The lists stay right because the remembered config and the lists
agree whenever the watcher is idle.
-/
namespace OtkCore

structure AuthConfig where
  producerTokens : List String
  apiTokens : List String
  deriving DecidableEq, Repr

structure ApiConfig where
  allowedOrigins : List String
  deriving DecidableEq, Repr

/-- The parsed config file; a listener is given by its id. -/
structure NodeConfig where
  nodeId : String
  listeners : List String
  apiAddr : String
  storageDir : String
  auth : AuthConfig
  api : ApiConfig
  deriving DecidableEq, Repr

/-- Read the file and parse it; the TOML parser is a parameter. -/
def loadFromFile (parse : String → Except String NodeConfig) (file : Except String String) :
    Except String NodeConfig :=
  file.bind parse

namespace AuthState

def ofConfig (config : NodeConfig) : AuthState :=
  ⟨config.auth.producerTokens, config.auth.apiTokens⟩

/-- Swap the producer list if the new config has another one than the last. -/
def rotateProducer (auth : AuthState) (prev newCfg : NodeConfig) : AuthState :=
  if newCfg.auth.producerTokens ≠ prev.auth.producerTokens then
    (auth.setProducerTokens newCfg.auth.producerTokens).2
  else auth

def rotateApi (auth : AuthState) (prev newCfg : NodeConfig) : AuthState :=
  if newCfg.auth.apiTokens ≠ prev.auth.apiTokens then
    (auth.setApiTokens newCfg.auth.apiTokens).2
  else auth

/-- Where the list agrees with the last config, it agrees with the new one after. -/
theorem rotateProducer_eq {auth : AuthState} {prev newCfg : NodeConfig}
    (h : auth.producerTokens = prev.auth.producerTokens) :
    auth.rotateProducer prev newCfg = ⟨newCfg.auth.producerTokens, auth.apiTokens⟩ := by
  unfold rotateProducer
  split_ifs with hsame
  · rfl
  · rw [not_not.mp hsame, ← h]

theorem rotateApi_eq {auth : AuthState} {prev newCfg : NodeConfig}
    (h : auth.apiTokens = prev.auth.apiTokens) :
    auth.rotateApi prev newCfg = ⟨auth.producerTokens, newCfg.auth.apiTokens⟩ := by
  unfold rotateApi
  split_ifs with hsame
  · rfl
  · rw [not_not.mp hsame, ← h]

end AuthState

/-- The warning about a changed field that waits for a restart. -/
def restartWarning (changed : Bool) (field consequence : String) : List String :=
  if changed then ["config change to " ++ field ++ " requires a restart; " ++ consequence] else []

def restartWarnings (prev newCfg : NodeConfig) : List String :=
  restartWarning (newCfg.nodeId != prev.nodeId) "`node_id`" "running instance keeps the old value" ++
  restartWarning (newCfg.storageDir != prev.storageDir) "`storage_dir`"
    "log stays open at the old path" ++
  restartWarning (newCfg.apiAddr != prev.apiAddr) "`api_addr`"
    "API server stays bound to the old address" ++
  restartWarning (newCfg.listeners.length != prev.listeners.length) "`listeners` (count)"
    "ingest sockets stay bound to the old set" ++
  restartWarning (newCfg.api.allowedOrigins != prev.api.allowedOrigins) "`api.allowed_origins`"
    "CORS layer stays at the old allow-list"

/-- One attempt from start to end: the new baseline and the warnings, or the
error, and the lists after it. -/
def tryApplyReload (parse : String → Except String NodeConfig) (file : Except String String)
    (auth : AuthState) (prev : NodeConfig) :
    Except String (NodeConfig × List String) × AuthState :=
  match loadFromFile parse file with
  | .error e => (.error e, auth)
  | .ok newCfg =>
    (.ok (newCfg, restartWarnings prev newCfg),
      (auth.rotateProducer prev newCfg).rotateApi prev newCfg)

namespace Reload

inductive Caller
  | handshake (id : ProducerId) (token : Option String)
  | request (request : Request)

inductive Answer
  | handshake (result : Except ConnectRejectReason Unit)
  | request (admission : Admission)

def current (auth : AuthState) : Caller → List String
  | .handshake _ _ => auth.producerTokens
  | .request _ => auth.apiTokens

def answer (toStr : List UInt8 → Option String) (tokens : List String) : Caller → Answer
  | .handshake id token => .handshake (authorise tokens id token)
  | .request request => .request (requireApiToken toStr tokens request)

inductive Stage
  | waiting
  | holding (tokens : List String)
  | decided (tokens : List String) (answer : Answer)

inductive Watcher
  | idle
  | loaded (newCfg : NodeConfig)
  | producerDone (newCfg : NodeConfig)
  | apiDone (newCfg : NodeConfig)

/-- The shared lists, the watcher with its baseline, and the callers. -/
structure System (ι : Type) where
  auth : AuthState
  last : NodeConfig
  watcher : Watcher
  stage : ι → Stage

/-- What happens next: an attempt starts with what the file is then, the watcher
takes its next step, or a caller takes its snapshot or decides. -/
inductive Event (ι : Type)
  | attempt (file : Except String String)
  | advance
  | snapshot (i : ι)
  | decide (i : ι)

section System

variable {ι : Type} [DecidableEq ι] (toStr : List UInt8 → Option String)
  (parse : String → Except String NodeConfig) (callers : ι → Caller)

def start (initial : NodeConfig) : System ι :=
  ⟨.ofConfig initial, initial, .idle, fun _ => .waiting⟩

def step (s : System ι) : Event ι → Option (System ι)
  | .attempt file =>
    match s.watcher with
    | .idle =>
      match loadFromFile parse file with
      | .ok newCfg => some { s with watcher := .loaded newCfg }
      | .error _ => some s
    | _ => none
  | .advance =>
    match s.watcher with
    | .idle => none
    | .loaded newCfg =>
      some { s with auth := s.auth.rotateProducer s.last newCfg, watcher := .producerDone newCfg }
    | .producerDone newCfg =>
      some { s with auth := s.auth.rotateApi s.last newCfg, watcher := .apiDone newCfg }
    | .apiDone newCfg => some { s with last := newCfg, watcher := .idle }
  | .snapshot i =>
    match s.stage i with
    | .waiting =>
      some { s with stage := Function.update s.stage i (.holding (current s.auth (callers i))) }
    | _ => none
  | .decide i =>
    match s.stage i with
    | .holding tokens =>
      some { s with
        stage := Function.update s.stage i (.decided tokens (answer toStr tokens (callers i))) }
    | _ => none

/-- The state after a run of events, each of them possible when it happens. -/
def run (s : System ι) : List (Event ι) → Option (System ι)
  | [] => some s
  | e :: events => (step toStr parse callers s e).bind fun t => run t events

/-- The config of the last attempt that loaded one. -/
def lastLoaded : NodeConfig → List (Event ι) → NodeConfig
  | initial, [] => initial
  | initial, .attempt file :: events =>
    match loadFromFile parse file with
    | .ok newCfg => lastLoaded newCfg events
    | .error _ => lastLoaded initial events
  | initial, _ :: events => lastLoaded initial events

variable {toStr parse callers}

theorem run_append {s : System ι} {before after : List (Event ι)} :
    run toStr parse callers s (before ++ after) =
      (run toStr parse callers s before).bind fun t => run toStr parse callers t after := by
  induction before generalizing s with
  | nil => rfl
  | cons e before ih =>
    rw [List.cons_append, run, run, Option.bind_assoc]
    exact congrArg _ (funext fun t => ih)

theorem run_concat {s u : System ι} {events : List (Event ι)} {e : Event ι} :
    run toStr parse callers s (events ++ [e]) = some u ↔
      ∃ t, run toStr parse callers s events = some t ∧ step toStr parse callers t e = some u := by
  simp [run_append, run, Option.bind_eq_some_iff]

omit [DecidableEq ι] in
theorem lastLoaded_append {initial : NodeConfig} {before after : List (Event ι)} :
    lastLoaded parse initial (before ++ after) =
      lastLoaded parse (lastLoaded parse initial before) after := by
  induction before generalizing initial with
  | nil => rfl
  | cons e before ih =>
    cases e with
    | attempt file => cases h : loadFromFile parse file <;> simp [lastLoaded, h, ih]
    | advance => exact ih
    | snapshot i => exact ih
    | decide i => exact ih

inductive Turn (toStr : List UInt8 → Option String) (parse : String → Except String NodeConfig)
    (callers : ι → Caller) (s : System ι) : Event ι → System ι → Prop
  | fail (file e) (hidle : s.watcher = .idle) (hload : loadFromFile parse file = .error e) :
      Turn toStr parse callers s (.attempt file) s
  | load (file newCfg) (hidle : s.watcher = .idle)
      (hload : loadFromFile parse file = .ok newCfg) :
      Turn toStr parse callers s (.attempt file) { s with watcher := .loaded newCfg }
  | rotateProducer (newCfg) (h : s.watcher = .loaded newCfg) :
      Turn toStr parse callers s .advance
        { s with auth := s.auth.rotateProducer s.last newCfg, watcher := .producerDone newCfg }
  | rotateApi (newCfg) (h : s.watcher = .producerDone newCfg) :
      Turn toStr parse callers s .advance
        { s with auth := s.auth.rotateApi s.last newCfg, watcher := .apiDone newCfg }
  | remember (newCfg) (h : s.watcher = .apiDone newCfg) :
      Turn toStr parse callers s .advance { s with last := newCfg, watcher := .idle }
  | snapshot (i) (h : s.stage i = .waiting) :
      Turn toStr parse callers s (.snapshot i)
        { s with stage := Function.update s.stage i (.holding (current s.auth (callers i))) }
  | decide (i tokens) (h : s.stage i = .holding tokens) :
      Turn toStr parse callers s (.decide i)
        { s with
          stage := Function.update s.stage i (.decided tokens (answer toStr tokens (callers i))) }

theorem step_turn {s t : System ι} {e : Event ι} (h : step toStr parse callers s e = some t) :
    Turn toStr parse callers s e t := by
  cases e with
  | attempt file =>
    cases hw : s.watcher with
    | idle =>
      cases hload : loadFromFile parse file with
      | ok newCfg =>
        obtain rfl : _ = t := by simpa [step, hw, hload] using h
        exact .load file newCfg hw hload
      | error e =>
        obtain rfl : s = t := by simpa [step, hw, hload] using h
        exact .fail file e hw hload
    | loaded newCfg => simp [step, hw] at h
    | producerDone newCfg => simp [step, hw] at h
    | apiDone newCfg => simp [step, hw] at h
  | advance =>
    cases hw : s.watcher with
    | idle => simp [step, hw] at h
    | loaded newCfg =>
      obtain rfl : _ = t := by simpa [step, hw] using h
      exact .rotateProducer newCfg hw
    | producerDone newCfg =>
      obtain rfl : _ = t := by simpa [step, hw] using h
      exact .rotateApi newCfg hw
    | apiDone newCfg =>
      obtain rfl : _ = t := by simpa [step, hw] using h
      exact .remember newCfg hw
  | snapshot i =>
    cases hs : s.stage i with
    | waiting =>
      obtain rfl : _ = t := by simpa [step, hs] using h
      exact .snapshot i hs
    | holding tokens => simp [step, hs] at h
    | decided tokens a => simp [step, hs] at h
  | decide i =>
    cases hs : s.stage i with
    | waiting => simp [step, hs] at h
    | holding tokens =>
      obtain rfl : _ = t := by simpa [step, hs] using h
      exact .decide i tokens hs
    | decided tokens a => simp [step, hs] at h

/-- The lists are those of the remembered config, as far as the watcher has not
yet moved them to those of `newest`, the config loaded last. -/
def Baseline (newest : NodeConfig) (s : System ι) : Prop :=
  match s.watcher with
  | .idle => s.last = newest ∧ s.auth = .ofConfig newest
  | .loaded newCfg => newCfg = newest ∧ s.auth = .ofConfig s.last
  | .producerDone newCfg =>
    newCfg = newest ∧ s.auth = ⟨newest.auth.producerTokens, s.last.auth.apiTokens⟩
  | .apiDone newCfg => newCfg = newest ∧ s.auth = .ofConfig newest

theorem baseline_turn {initial : NodeConfig} {events : List (Event ι)} {e : Event ι}
    {s t : System ι} (hinv : Baseline (lastLoaded parse initial events) s)
    (h : Turn toStr parse callers s e t) :
    Baseline (lastLoaded parse initial (events ++ [e])) t := by
  rw [lastLoaded_append]
  cases h with
  | fail file e hidle hload => simpa [lastLoaded, hload] using hinv
  | load file newCfg hidle hload =>
    simp only [Baseline, hidle] at hinv
    simp [Baseline, lastLoaded, hload, hinv]
  | rotateProducer newCfg hw =>
    simp only [Baseline, hw] at hinv
    obtain ⟨rfl, hauth⟩ := hinv
    refine ⟨rfl, ?_⟩
    have hlist : s.auth.producerTokens = s.last.auth.producerTokens := by rw [hauth]; rfl
    rw [AuthState.rotateProducer_eq hlist, hauth]
    rfl
  | rotateApi newCfg hw =>
    simp only [Baseline, hw] at hinv
    obtain ⟨rfl, hauth⟩ := hinv
    refine ⟨rfl, ?_⟩
    have hlist : s.auth.apiTokens = s.last.auth.apiTokens := by rw [hauth]
    rw [AuthState.rotateApi_eq hlist, hauth]
    rfl
  | remember newCfg hw =>
    simp only [Baseline, hw] at hinv
    obtain ⟨rfl, hauth⟩ := hinv
    exact ⟨rfl, hauth⟩
  | snapshot i hs => exact hinv
  | decide i tokens hs => exact hinv

/-- Whatever has happened so far, the baseline and the lists agree. -/
theorem baseline_run {initial : NodeConfig} {events : List (Event ι)} {s : System ι}
    (h : run toStr parse callers (start initial) events = some s) :
    Baseline (lastLoaded parse initial events) s := by
  induction events using List.reverseRecOn generalizing s with
  | nil =>
    obtain rfl : start initial = s := by simpa [run] using h
    exact ⟨rfl, rfl⟩
  | append_singleton events e ih =>
    obtain ⟨t, ht, hstep⟩ := run_concat.mp h
    exact baseline_turn (ih ht) (step_turn hstep)

omit [DecidableEq ι] in
/-- A live list is the one of the config before or after the reload under way. -/
theorem current_of_baseline {newest : NodeConfig} {s : System ι} (h : Baseline newest s)
    (caller : Caller) : ∃ config, (config = s.last ∨ config = newest) ∧
      current s.auth caller = current (.ofConfig config) caller := by
  cases hw : s.watcher with
  | idle =>
    simp only [Baseline, hw] at h
    exact ⟨newest, .inr rfl, by rw [h.2]⟩
  | loaded newCfg =>
    simp only [Baseline, hw] at h
    exact ⟨s.last, .inl rfl, by rw [h.2]⟩
  | producerDone newCfg =>
    simp only [Baseline, hw] at h
    cases caller with
    | handshake id token => exact ⟨newest, .inr rfl, by rw [h.2]; rfl⟩
    | request request => exact ⟨s.last, .inl rfl, by rw [h.2]; rfl⟩
  | apiDone newCfg =>
    simp only [Baseline, hw] at h
    exact ⟨newest, .inr rfl, by rw [h.2]⟩

/-- Caller `i` took its snapshot in the run and `tokens` was its live list then. -/
def Snapped (toStr : List UInt8 → Option String) (parse : String → Except String NodeConfig)
    (callers : ι → Caller) (initial : NodeConfig) (events : List (Event ι)) (i : ι)
    (tokens : List String) : Prop :=
  ∃ before after t, events = before ++ .snapshot i :: after ∧
    run toStr parse callers (start initial) before = some t ∧
    tokens = current t.auth (callers i)

theorem Snapped.concat {initial : NodeConfig} {events : List (Event ι)} {i : ι}
    {tokens : List String} (h : Snapped toStr parse callers initial events i tokens)
    (e : Event ι) : Snapped toStr parse callers initial (events ++ [e]) i tokens := by
  obtain ⟨before, after, t, rfl, ht, htokens⟩ := h
  exact ⟨before, after ++ [e], t, by simp, ht, htokens⟩

/-- What a caller holds comes from its snapshot, and what it decided from that. -/
def Grounded (toStr : List UInt8 → Option String) (parse : String → Except String NodeConfig)
    (callers : ι → Caller) (initial : NodeConfig) (events : List (Event ι)) (i : ι) :
    Stage → Prop
  | .waiting => True
  | .holding tokens => Snapped toStr parse callers initial events i tokens
  | .decided tokens a => Snapped toStr parse callers initial events i tokens ∧
      a = answer toStr tokens (callers i)

theorem Grounded.concat {initial : NodeConfig} {events : List (Event ι)} {i : ι} {stage : Stage}
    (h : Grounded toStr parse callers initial events i stage) (e : Event ι) :
    Grounded toStr parse callers initial (events ++ [e]) i stage := by
  cases stage with
  | waiting => trivial
  | holding tokens => exact Snapped.concat h e
  | decided tokens a => exact ⟨Snapped.concat h.1 e, h.2⟩

theorem grounded_turn {initial : NodeConfig} {events : List (Event ι)} {e : Event ι}
    {s t : System ι} (hrun : run toStr parse callers (start initial) events = some s)
    (hinv : ∀ i, Grounded toStr parse callers initial events i (s.stage i))
    (h : Turn toStr parse callers s e t) (i : ι) :
    Grounded toStr parse callers initial (events ++ [e]) i (t.stage i) := by
  cases h with
  | fail file e hidle hload => exact (hinv i).concat _
  | load file newCfg hidle hload => exact (hinv i).concat _
  | rotateProducer newCfg hw => exact (hinv i).concat _
  | rotateApi newCfg hw => exact (hinv i).concat _
  | remember newCfg hw => exact (hinv i).concat _
  | snapshot j hs =>
    by_cases hij : i = j
    · subst hij
      dsimp only
      rw [Function.update_self]
      exact ⟨events, [], s, rfl, hrun, rfl⟩
    · dsimp only
      rw [Function.update_of_ne hij]
      exact (hinv i).concat _
  | decide j tokens hs =>
    by_cases hij : i = j
    · subst hij
      dsimp only
      rw [Function.update_self]
      have hheld := hinv i
      rw [hs] at hheld
      exact ⟨Snapped.concat hheld _, rfl⟩
    · dsimp only
      rw [Function.update_of_ne hij]
      exact (hinv i).concat _

theorem grounded_run {initial : NodeConfig} {events : List (Event ι)} {s : System ι}
    (h : run toStr parse callers (start initial) events = some s) (i : ι) :
    Grounded toStr parse callers initial events i (s.stage i) := by
  induction events using List.reverseRecOn generalizing s i with
  | nil =>
    obtain rfl : start initial = s := by simpa [run] using h
    trivial
  | append_singleton events e ih =>
    obtain ⟨t, ht, hstep⟩ := run_concat.mp h
    exact grounded_turn ht (ih ht) (step_turn hstep) i

/-- An attempt that fails is over at once and has changed nothing. -/
theorem failed_attempt {file : Except String String} {e : String} {s t : System ι}
    (hload : loadFromFile parse file = .error e)
    (h : step toStr parse callers s (.attempt file) = some t) : t = s := by
  cases step_turn h with
  | fail file e hidle hload' => rfl
  | load file newCfg hidle hload' => simp [hload] at hload'

theorem run_attempt {file : Except String String} {newCfg : NodeConfig} {s : System ι}
    (hidle : s.watcher = .idle) (hload : loadFromFile parse file = .ok newCfg) :
    run toStr parse callers s [.attempt file, .advance, .advance, .advance] =
        some { s with auth := (tryApplyReload parse file s.auth s.last).2, last := newCfg } ∧
      (tryApplyReload parse file s.auth s.last).1 =
        .ok (newCfg, restartWarnings s.last newCfg) := by
  constructor
  · simp [run, step, hidle, hload, tryApplyReload]
  · simp [tryApplyReload, hload]

/-- Over any interleaving of reload attempts with handshakes and requests: when
the watcher is idle both lists are those of the config loaded last, a failed
attempt leaves the node as it was, and a decision is the one on the list that was
live at its snapshot. A producer is accepted without a list or with a listed
token; a request is let through without a list or with a header of visible ASCII
that carries a listed token behind the scheme. -/
theorem decisions_follow_allowList (hstr : ReadsVisibleAscii toStr) {initial : NodeConfig}
    {events : List (Event ι)} {s : System ι}
    (hrun : run toStr parse callers (start initial) events = some s) :
    (s.watcher = .idle → s.auth = .ofConfig (lastLoaded parse initial events)) ∧
    (∀ file e t, loadFromFile parse file = .error e →
      step toStr parse callers s (.attempt file) = some t → t = s) ∧
    (∀ i tokens a, s.stage i = .decided tokens a →
      ∃ before after t, events = before ++ .snapshot i :: after ∧
        run toStr parse callers (start initial) before = some t ∧
        tokens = current t.auth (callers i) ∧
        (∃ config, (config = t.last ∨ config = lastLoaded parse initial before) ∧
          tokens = current (.ofConfig config) (callers i)) ∧
        a = answer toStr tokens (callers i)) ∧
    (∀ tokens id token, authorise tokens id token = .ok () ↔
      tokens = [] ∨ ∃ t ∈ tokens, token = some t) ∧
    ∀ tokens request, requireApiToken toStr tokens request = .forwarded ↔
      tokens = [] ∨ ∃ value ∈ request.authorization.head?, (∀ b ∈ value, isVisibleAscii b) ∧
        ∃ token ∈ tokens, IsBearer value (Utf8.bytes token) := by
  refine ⟨?_, fun file e t hload h => failed_attempt hload h, ?_,
    fun tokens id token => authorise_ok_iff,
    fun tokens request => requireApiToken_forwarded_iff hstr⟩
  · intro hidle
    have hbase := baseline_run hrun
    simp only [Baseline, hidle] at hbase
    exact hbase.2
  · intro i tokens a hdecided
    have hground := grounded_run hrun i
    rw [hdecided] at hground
    obtain ⟨⟨before, after, t, hevents, ht, htokens⟩, ha⟩ := hground
    obtain ⟨config, hconfig, hlist⟩ := current_of_baseline (baseline_run ht) (callers i)
    exact ⟨before, after, t, hevents, ht, htokens, ⟨config, hconfig, htokens.trans hlist⟩, ha⟩

end System

/-- A config that differs from others in its lists only. -/
def exampleConfig (producerTokens apiTokens : List String) : NodeConfig :=
  ⟨"n", ["tcp-main"], "127.0.0.1:0", "data", ⟨producerTokens, apiTokens⟩, ⟨[]⟩⟩

/-- A handshake with the token of the first config and a request with that of the second. -/
def exampleCallers : Bool → Caller
  | true => .handshake ⟨"cam"⟩ (some "old")
  | false => .request ⟨[Utf8.bytes " bearer \t api "]⟩

/-- The handshake takes its snapshot while a reload is under way; a second attempt
finds no file. -/
def exampleEvents : List (Event Bool) :=
  [.attempt (.ok "node_id = \"n\""), .snapshot true, .advance, .advance, .decide true, .advance,
    .attempt (.error "No such file or directory"), .snapshot false, .decide false]

/-- The overlapping handshake is decided on the old list, the later request on the
new one. -/
theorem decisions_follow_allowList_overlap :
    ∃ s, run visibleText (fun _ => .ok (exampleConfig ["new"] ["api"])) exampleCallers
        (start (exampleConfig ["old"] [])) exampleEvents = some s ∧
      s.auth = ⟨["new"], ["api"]⟩ ∧
      s.stage true = .decided ["old"] (.handshake (.ok ())) ∧
      s.stage false = .decided ["api"] (.request .forwarded) := by
  let parse : String → Except String NodeConfig := fun _ => .ok (exampleConfig ["new"] ["api"])
  have hrun : run visibleText parse exampleCallers (start (exampleConfig ["old"] []))
      exampleEvents = some ((run visibleText parse exampleCallers
        (start (exampleConfig ["old"] [])) exampleEvents).getD (start (exampleConfig [] []))) :=
    rfl
  have h := decisions_follow_allowList readsVisibleAscii_visibleText hrun
  exact ⟨_, hrun, h.1 rfl, rfl, rfl⟩

end Reload

end OtkCore
