import Mathlib.Data.Fintype.Basic
import Mathlib.Tactic.Common

/-!
# Binding a Unix socket

Several programs bind a listener to one path. Each looks at what is there, tries
to connect to a socket it finds, looks again, unlinks a stale socket, and then
binds, listens and sets the permissions. Between any two of these calls another
program may act, crash, or put something else at the path. A file is unlinked
only if it is a socket that nobody listened on, unless the takeover is forced or
the file came in the window between the second look and the unlink.
-/
namespace OtkCore.Ingest.SocketBind

inductive ErrorKind
  | notFound
  | connectionRefused
  | invalidInput
  | alreadyExists
  | addrInUse
  | permissionDenied
  | isADirectory
  | other
  deriving DecidableEq, Repr

structure OsError where
  kind : ErrorKind
  text : String
  deriving DecidableEq, Repr

inductive FileType
  | socket
  | regular
  | directory
  | symlink
  | device
  deriving DecidableEq, Repr

structure FileId where
  dev : ℕ
  ino : ℕ
  deriving DecidableEq, Repr

/-- What is at the path; a mode of `none` comes from the umask. -/
structure File where
  fileType : FileType
  id : FileId
  mode : Option ℕ
  deriving DecidableEq, Repr

structure UnixSocketIngestConfig where
  socketPath : String
  maxFrameBytes : ℕ
  handshakeTimeout : ℕ
  socketPermissions : Option ℕ
  forceRebind : Bool
  deriving DecidableEq

/-- The call that comes next, with the identity captured so far, or how the bind
has ended. -/
inductive Phase
  | validate
  | symlinkMetadata
  | probe (id : FileId)
  | restat (id : FileId)
  | removeFile (id : FileId)
  | bind
  | listen (id : FileId)
  | setPermissions (id : FileId)
  | ready (id : FileId)
  | failed (e : OsError)
  | crashed
  deriving DecidableEq

namespace Phase

def listensOn : Phase → Option FileId
  | setPermissions id => some id
  | ready id => some id
  | _ => none

def bound : Phase → Option FileId
  | listen id => some id
  | setPermissions id => some id
  | ready id => some id
  | _ => none

def captured : Phase → Option FileId
  | probe id => some id
  | restat id => some id
  | removeFile id => some id
  | _ => none

end Phase

inductive Answer
  | accepted
  | refused
  | notFound
  deriving DecidableEq

/-- What the system answers beyond the state of the path: an error of its own
(nothing but a socket without a listener refuses a connection), the number of the
next file, the answer of the target of a symbolic link, and the `{:?}` of a file
type. -/
structure Os where
  fault : Option OsError
  fresh : FileId
  elsewhere : Answer
  debug : FileType → String
  honest : ∀ e ∈ fault, e.kind ≠ .connectionRefused

def connect (alive : FileId → Bool) (elsewhere : Answer) : Option File → Answer
  | none => .notFound
  | some f => match f.fileType with
    | .socket => if alive f.id then .accepted else .refused
    | .symlink => elsewhere
    | _ => .refused

section Program

variable (cfg : UnixSocketIngestConfig) (os : Os)

def notASocket (f : File) : OsError :=
  ⟨.alreadyExists, "refusing to bind: " ++ cfg.socketPath ++
    " exists and is not a Unix domain socket (file type: " ++ os.debug f.fileType ++
    "); aborting rather than risk deleting the wrong file"⟩

def alreadyOwned : OsError :=
  ⟨.addrInUse, "refusing to bind: " ++ cfg.socketPath ++
    " is already owned by an active listener; set force_rebind = true to take over intentionally"⟩

def couldNotProbe (e : OsError) : OsError :=
  ⟨e.kind, "could not probe existing socket at " ++ cfg.socketPath ++ ": " ++ e.text ++
    "; aborting bind"⟩

def wasReplaced : OsError :=
  ⟨.alreadyExists, "refusing to bind: " ++ cfg.socketPath ++
    " was replaced between the initial check and the unlink (file type or inode changed); " ++
    "aborting rather than risk deleting the wrong file"⟩

/-- An error of a call that counts as an empty path if it says so. -/
def tolerate (e : OsError) : Phase := if e.kind = .notFound then .bind else .failed e

/-- The rejections of a configuration come before any call. -/
def validated : Phase :=
  if cfg.maxFrameBytes = 0 then .failed ⟨.invalidInput, "max_frame_bytes must be > 0"⟩
  else if cfg.handshakeTimeout = 0 then .failed ⟨.invalidInput, "handshake_timeout must be > 0"⟩
  else .symlinkMetadata

def looked : Option File → Phase
  | none => .bind
  | some f =>
    if f.fileType ≠ .socket then .failed (notASocket cfg os f)
    else if cfg.forceRebind then .restat f.id else .probe f.id

def probed (id : FileId) : Answer → Phase
  | .accepted => .failed (alreadyOwned cfg)
  | .refused => .restat id
  | .notFound => .bind

def lookedAgain (id : FileId) : Option File → Phase
  | none => .bind
  | some f => if f.fileType ≠ .socket ∨ f.id ≠ id then .failed (wasReplaced cfg) else .removeFile id

def unlink : Option File → Phase × Option File
  | none => (.bind, none)
  | some f =>
    if f.fileType = .directory then
      (.failed ⟨.isADirectory, "Is a directory (os error 21)"⟩, some f)
    else (.bind, none)

def bindSocket : Option File → Phase × Option File
  | none => (.listen os.fresh, some ⟨.socket, os.fresh, none⟩)
  | some f => (.failed ⟨.addrInUse, "Address already in use (os error 98)"⟩, some f)

def listening (id : FileId) : Phase :=
  if cfg.socketPermissions.isSome then .setPermissions id else .ready id

/-- The permissions are set at the path, whatever is there, and through a link. -/
def chmod (id : FileId) : Option File → Phase × Option File
  | none => (.failed ⟨.notFound, "No such file or directory (os error 2)"⟩, none)
  | some f =>
    (.ready id,
      some (if f.fileType = .symlink then f else { f with mode := cfg.socketPermissions }))

/-- The next call of `bind_with_auth`. -/
def Phase.turn (alive : FileId → Bool) (entry : Option File) : Phase → Phase × Option File
  | .validate => (validated cfg, entry)
  | .symlinkMetadata => match os.fault with
    | some e => (tolerate e, entry)
    | none => (looked cfg os entry, entry)
  | .probe id => match os.fault with
    | some e => (if e.kind = .notFound then .bind else .failed (couldNotProbe cfg e), entry)
    | none => (probed cfg id (connect alive os.elsewhere entry), entry)
  | .restat id => match os.fault with
    | some e => (tolerate e, entry)
    | none => (lookedAgain cfg id entry, entry)
  | .removeFile _ => match os.fault with
    | some e => (tolerate e, entry)
    | none => unlink entry
  | .bind => match os.fault with
    | some e => (.failed e, entry)
    | none => bindSocket os entry
  | .listen id => match os.fault with
    | some e => (.failed e, entry)
    | none => (listening cfg id, entry)
  | .setPermissions id => match os.fault with
    | some e => (.failed e, entry)
    | none => chmod cfg id entry
  | .ready id => (.ready id, entry)
  | .failed e => (.failed e, entry)
  | .crashed => (.crashed, entry)

/-- What a turn can do to the phase and to the path. -/
inductive Turns (alive : FileId → Bool) (entry : Option File) : Phase → Phase → Option File → Prop
  | idle {phase phase' : Phase} (hbound : phase'.bound = none)
      (hcaptured : phase'.captured = none) :
    Turns alive entry phase phase' entry
  | sees {f : File} (hentry : entry = some f) :
    Turns alive entry .symlinkMetadata (.probe f.id) entry
  | forces {f : File} (hentry : entry = some f) (hforce : cfg.forceRebind = true) :
    Turns alive entry .symlinkMetadata (.restat f.id) entry
  | refused {id : FileId} (hconnect : connect alive os.elsewhere entry = .refused) :
    Turns alive entry (.probe id) (.restat id) entry
  | confirms {f : File} (hentry : entry = some f) (hsocket : f.fileType = .socket) :
    Turns alive entry (.restat f.id) (.removeFile f.id) entry
  | unlinks {id : FileId} {f : File} (hentry : entry = some f) :
    Turns alive entry (.removeFile id) .bind none
  | binds (hentry : entry = none) :
    Turns alive entry .bind (.listen os.fresh) (some ⟨.socket, os.fresh, none⟩)
  | keeps {phase phase' : Phase} {id : FileId} (hbound : phase.bound = some id)
    (hbound' : phase'.bound = some id) : Turns alive entry phase phase' entry
  | permits {id : FileId} {f f' : File} (hentry : entry = some f)
    (hsame : f'.id = f.id ∧ f'.fileType = f.fileType) :
    Turns alive entry (.setPermissions id) (.ready id) (some f')

variable {cfg os}

theorem Turns.entry_known {alive : FileId → Bool} {entry entry' : Option File}
    {phase phase' : Phase} (h : Turns cfg os alive entry phase phase' entry') {f : File}
    (hentry : entry' = some f) (hold : phase = .bind → f.id ≠ os.fresh) :
    ∃ g, entry = some g ∧ g.id = f.id ∧ g.fileType = f.fileType := by
  cases h with
  | unlinks _ => simp at hentry
  | binds _ =>
    obtain rfl := Option.some.inj hentry
    exact absurd rfl (hold rfl)
  | permits hwas hsame =>
    obtain rfl := Option.some.inj hentry
    exact ⟨_, hwas, hsame.1.symm, hsame.2.symm⟩
  | idle _ _ | sees _ | forces _ _ | refused _ | confirms _ _ | keeps _ _ =>
    exact ⟨f, hentry, rfl, rfl⟩

theorem Turns.captured_cases {alive : FileId → Bool} {entry entry' : Option File}
    {phase phase' : Phase} (h : Turns cfg os alive entry phase phase' entry') {id : FileId}
    (hcaptured : phase'.captured = some id) :
    phase.captured = some id ∨ ∃ f, entry = some f ∧ f.id = id := by
  cases h with
  | idle _ hnone => simp [hnone] at hcaptured
  | sees hentry => exact .inr ⟨_, hentry, Option.some.inj hcaptured⟩
  | forces hentry _ => exact .inr ⟨_, hentry, Option.some.inj hcaptured⟩
  | refused _ => exact .inl hcaptured
  | confirms _ _ => exact .inl hcaptured
  | unlinks _ | binds _ | permits _ _ => simp [Phase.captured] at hcaptured
  | keeps _ hbound => cases phase' <;> simp_all [Phase.captured, Phase.bound]

theorem Turns.bound_cases {alive : FileId → Bool} {entry entry' : Option File}
    {phase phase' : Phase} (h : Turns cfg os alive entry phase phase' entry') {id : FileId}
    (hbound : phase'.bound = some id) :
    phase.bound = some id ∨
      phase = .bind ∧ id = os.fresh ∧ entry' = some ⟨.socket, os.fresh, none⟩ := by
  cases h with
  | idle hnone _ => simp [hnone] at hbound
  | sees _ | forces _ _ | refused _ | confirms _ _ | unlinks _ => simp [Phase.bound] at hbound
  | binds _ => exact .inr ⟨rfl, (Option.some.inj hbound).symm, rfl⟩
  | keeps hwas hnow => exact .inl (hwas.trans (hnow.symm.trans hbound))
  | permits _ _ => exact .inl hbound

/-- The second look comes by force or after a refused connection. -/
theorem Turns.restat_cases {alive : FileId → Bool} {entry entry' : Option File} {phase : Phase}
    {id : FileId} (h : Turns cfg os alive entry phase (.restat id) entry') :
    cfg.forceRebind = true ∨ phase = .probe id ∧ connect alive os.elsewhere entry = .refused := by
  cases h with
  | idle _ hnone => simp [Phase.captured] at hnone
  | forces _ hforce => exact .inl hforce
  | refused hconnect => exact .inr ⟨rfl, hconnect⟩
  | keeps _ hbound => simp [Phase.bound] at hbound

theorem Turns.removeFile_cases {alive : FileId → Bool} {entry entry' : Option File}
    {phase : Phase} {id : FileId} (h : Turns cfg os alive entry phase (.removeFile id) entry') :
    phase = .restat id ∧ entry' = entry ∧
      ∃ f, entry = some f ∧ f.id = id ∧ f.fileType = .socket := by
  cases h with
  | idle _ hnone => simp [Phase.captured] at hnone
  | confirms hentry hsocket => exact ⟨rfl, rfl, _, hentry, rfl, hsocket⟩
  | keeps _ hbound => simp [Phase.bound] at hbound

theorem connect_refused {alive : FileId → Bool} {elsewhere : Answer} {f : File}
    (h : connect alive elsewhere (some f) = .refused) (hsocket : f.fileType = .socket) :
    alive f.id = false := by
  simp only [connect, hsocket] at h
  split_ifs at h with halive
  simpa using halive

variable (cfg os)

theorem bound_tolerate (e : OsError) : (tolerate e).bound = none := by
  unfold tolerate
  split <;> rfl

theorem captured_tolerate (e : OsError) : (tolerate e).captured = none := by
  unfold tolerate
  split <;> rfl

theorem looked_turns (alive : FileId → Bool) (entry : Option File) :
    Turns cfg os alive entry .symlinkMetadata (looked cfg os entry) entry := by
  cases entry with
  | none => exact .idle rfl rfl
  | some f =>
    rw [looked]
    split_ifs with htype hforce
    · exact .idle rfl rfl
    · exact .forces rfl hforce
    · exact .sees rfl

theorem probed_turns (alive : FileId → Bool) (entry : Option File) (id : FileId) :
    Turns cfg os alive entry (.probe id) (probed cfg id (connect alive os.elsewhere entry))
      entry := by
  cases hanswer : connect alive os.elsewhere entry with
  | accepted => exact .idle rfl rfl
  | refused => exact .refused hanswer
  | notFound => exact .idle rfl rfl

theorem lookedAgain_turns (alive : FileId → Bool) (entry : Option File) (id : FileId) :
    Turns cfg os alive entry (.restat id) (lookedAgain cfg id entry) entry := by
  cases entry with
  | none => exact .idle rfl rfl
  | some f =>
    rw [lookedAgain]
    split_ifs with hother
    · exact .idle rfl rfl
    · rw [not_or, not_not, not_not] at hother
      obtain ⟨htype, rfl⟩ := hother
      exact .confirms rfl htype

theorem unlink_turns (alive : FileId → Bool) (entry : Option File) (id : FileId) :
    Turns cfg os alive entry (.removeFile id) (unlink entry).1 (unlink entry).2 := by
  cases entry with
  | none => exact .idle rfl rfl
  | some f =>
    rw [unlink]
    split_ifs
    · exact .idle rfl rfl
    · exact .unlinks rfl

theorem chmod_turns (alive : FileId → Bool) (entry : Option File) (id : FileId) :
    Turns cfg os alive entry (.setPermissions id) (chmod cfg id entry).1
      (chmod cfg id entry).2 := by
  cases entry with
  | none => exact .idle rfl rfl
  | some f =>
    apply Turns.permits rfl
    split_ifs <;> simp

theorem turn_turns (alive : FileId → Bool) (entry : Option File) (phase : Phase) :
    Turns cfg os alive entry phase (phase.turn cfg os alive entry).1
      (phase.turn cfg os alive entry).2 := by
  cases phase with
  | validate =>
    simp only [Phase.turn, validated]
    split_ifs <;> exact .idle rfl rfl
  | symlinkMetadata =>
    simp only [Phase.turn]
    split
    · exact .idle (bound_tolerate _) (captured_tolerate _)
    · exact looked_turns cfg os alive entry
  | probe id =>
    simp only [Phase.turn]
    split
    · split_ifs <;> exact .idle rfl rfl
    · exact probed_turns cfg os alive entry id
  | restat id =>
    simp only [Phase.turn]
    split
    · exact .idle (bound_tolerate _) (captured_tolerate _)
    · exact lookedAgain_turns cfg os alive entry id
  | removeFile id =>
    simp only [Phase.turn]
    split
    · exact .idle (bound_tolerate _) (captured_tolerate _)
    · exact unlink_turns cfg os alive entry id
  | bind =>
    simp only [Phase.turn]
    split
    · exact .idle rfl rfl
    · cases entry with
      | none => exact .binds rfl
      | some f => exact .idle rfl rfl
  | listen id =>
    simp only [Phase.turn]
    split
    · exact .idle rfl rfl
    · have hbound : (Phase.listen id).bound = some id := rfl
      apply Turns.keeps hbound
      rw [listening]
      split_ifs <;> rfl
  | setPermissions id =>
    simp only [Phase.turn]
    split
    · exact .idle rfl rfl
    · exact chmod_turns cfg os alive entry id
  | ready id =>
    have hbound : (Phase.ready id).bound = some id := rfl
    exact .keeps hbound hbound
  | failed e => exact .idle rfl rfl
  | crashed => exact .idle rfl rfl

end Program

structure Program where
  config : UnixSocketIngestConfig
  phase : Phase

/-- What is at the path, every file that has been there, the sockets that programs
of another kind listen on, and the programs that bind. -/
structure System (n : ℕ) where
  entry : Option File
  created : List FileId
  foreign : List FileId
  programs : Fin n → Program

inductive Act (n : ℕ)
  | turn (p : Fin n) (os : Os)
  | crash (p : Fin n)
  | replace (f : File)
  | remove
  | foreignListen (id : FileId)
  | foreignClose (id : FileId)

namespace System

variable {n : ℕ}

/-- The programs whose listener is on a socket, and those of another kind. -/
def alive (s : System n) (id : FileId) : Bool :=
  id ∈ s.foreign || decide (∃ p, (s.programs p).phase.listensOn = some id)

def phase (s : System n) (p : Fin n) : Phase := (s.programs p).phase

def config (s : System n) (p : Fin n) : UnixSocketIngestConfig := (s.programs p).config

def At (s : System n) (id : FileId) : Prop := ∃ f, s.entry = some f ∧ f.id = id

def noting (entry : Option File) (created : List FileId) : List FileId :=
  match entry with
  | none => created
  | some f => if f.id ∈ created then created else f.id :: created

def enter (s : System n) (p : Fin n) (phase : Phase) (entry : Option File) : System n :=
  { s with
    entry := entry
    created := noting entry s.created
    programs := Function.update s.programs p ⟨s.config p, phase⟩ }

def step (s : System n) : Act n → System n
  | .turn p os =>
    let (phase, entry) := (s.phase p).turn (s.config p) os s.alive s.entry
    s.enter p phase entry
  | .crash p => s.enter p .crashed s.entry
  | .replace f => { s with entry := some f, created := noting (some f) s.created }
  | .remove => { s with entry := none }
  | .foreignListen id => { s with foreign := id :: s.foreign }
  | .foreignClose id => { s with foreign := s.foreign.filter (· ≠ id) }

def run (s : System n) (acts : List (Act n)) : System n := acts.foldl step s

/-- The number of the file an act may put at the path. -/
def newId (s : System n) : Act n → Option FileId
  | .turn p os => if s.phase p = .bind then some os.fresh else none
  | .replace f => some f.id
  | _ => none

structure Start (s : System n) : Prop where
  phase : ∀ p, s.phase p = .validate
  noted : ∀ f, s.entry = some f → f.id ∈ s.created

/-- No act gives a file a number that a file at the path has had before. -/
def Fresh (s : System n) (acts : List (Act n)) : Prop :=
  ∀ pre a, pre ++ [a] <+: acts → ∀ id ∈ (s.run pre).newId a, id ∉ (s.run pre).created

@[simp] theorem run_nil (s : System n) : s.run [] = s := rfl

theorem run_concat (s : System n) (acts : List (Act n)) (a : Act n) :
    s.run (acts ++ [a]) = (s.run acts).step a := by
  simp [run]

theorem Fresh.mono {s : System n} {pre acts : List (Act n)} (h : s.Fresh acts)
    (hpre : pre <+: acts) : s.Fresh pre :=
  fun pre' a ha => h pre' a (ha.trans hpre)

@[simp] theorem phase_enter (s : System n) (p q : Fin n) (phase : Phase) (entry : Option File) :
    (s.enter p phase entry).phase q = if q = p then phase else s.phase q := by
  by_cases h : q = p <;> simp [enter, System.phase, h]

@[simp] theorem config_enter (s : System n) (p q : Fin n) (phase : Phase) (entry : Option File) :
    (s.enter p phase entry).config q = s.config q := by
  by_cases h : q = p <;> simp [enter, System.config, h]

theorem config_step (s : System n) (a : Act n) (q : Fin n) : (s.step a).config q = s.config q := by
  cases a with
  | turn p os => exact config_enter _ _ _ _ _
  | crash p => exact config_enter _ _ _ _ _
  | replace f => rfl
  | remove => rfl
  | foreignListen id => rfl
  | foreignClose id => rfl

theorem config_run (s : System n) (acts : List (Act n)) (q : Fin n) :
    (s.run acts).config q = s.config q := by
  induction acts using List.reverseRecOn with
  | nil => rfl
  | append_singleton acts a ih => rw [run_concat, config_step, ih]

theorem subset_noting (entry : Option File) (created : List FileId) :
    created ⊆ noting entry created := by
  cases entry with
  | none => exact List.Subset.refl _
  | some f =>
    rw [noting]
    split_ifs
    · exact List.Subset.refl _
    · exact List.subset_cons_self _ _

theorem mem_noting (f : File) (created : List FileId) : f.id ∈ noting (some f) created := by
  rw [noting]
  split_ifs with h
  · exact h
  · exact List.mem_cons_self

theorem created_step (s : System n) (a : Act n) : s.created ⊆ (s.step a).created := by
  cases a with
  | turn p os => exact subset_noting _ _
  | crash p => exact subset_noting _ _
  | replace f => exact subset_noting (some f) _
  | remove => exact List.Subset.refl _
  | foreignListen id => exact List.Subset.refl _
  | foreignClose id => exact List.Subset.refl _

theorem created_run {s : System n} {pre acts : List (Act n)} (h : pre <+: acts) :
    (s.run pre).created ⊆ (s.run acts).created := by
  obtain ⟨rest, rfl⟩ := h
  induction rest using List.reverseRecOn with
  | nil => simp
  | append_singleton rest a ih =>
    rw [← List.append_assoc, run_concat]
    exact fun id hid => created_step _ a (ih hid)

/-- A file whose number is known and that is at the path now was there before, as
a file of the same type. -/
theorem entry_of_step {s : System n} {a : Act n} (hfresh : ∀ id ∈ s.newId a, id ∉ s.created)
    {f : File} (hknown : f.id ∈ s.created) (hentry : (s.step a).entry = some f) :
    ∃ g, s.entry = some g ∧ g.id = f.id ∧ g.fileType = f.fileType := by
  cases a with
  | turn p os =>
    have hturn := turn_turns (s.config p) os s.alive s.entry (s.phase p)
    apply hturn.entry_known hentry
    intro hbind hnew
    exact hfresh os.fresh (by simp [newId, hbind]) (hnew ▸ hknown)
  | crash p => exact ⟨f, hentry, rfl, rfl⟩
  | replace g =>
    obtain rfl := Option.some.inj hentry
    exact absurd hknown (hfresh g.id rfl)
  | remove => simp [step] at hentry
  | foreignListen id => exact ⟨f, hentry, rfl, rfl⟩
  | foreignClose id => exact ⟨f, hentry, rfl, rfl⟩

theorem entry_of_run {s : System n} {pre acts : List (Act n)} (hfresh : s.Fresh acts)
    (hpre : pre <+: acts) {f : File} (hknown : f.id ∈ (s.run pre).created)
    (hentry : (s.run acts).entry = some f) :
    ∃ g, (s.run pre).entry = some g ∧ g.id = f.id ∧ g.fileType = f.fileType := by
  obtain ⟨rest, rfl⟩ := hpre
  induction rest using List.reverseRecOn generalizing f with
  | nil => exact ⟨f, by simpa using hentry, rfl, rfl⟩
  | append_singleton rest a ih =>
    rw [← List.append_assoc] at hfresh hentry
    rw [run_concat] at hentry
    have hnow := created_run (s := s) (List.prefix_append pre rest) hknown
    obtain ⟨g, hg, hid, htype⟩ :=
      entry_of_step (hfresh _ a (List.prefix_refl _)) hnow hentry
    obtain ⟨g', hg', hid', htype'⟩ :=
      ih (by rwa [hid]) (hfresh.mono (List.prefix_append _ _)) hg
    exact ⟨g', hg', hid'.trans hid, htype'.trans htype⟩

/-- A turn leaves the other programs alone, and only a turn lets a program go on. -/
theorem phase_step_cases (s : System n) (a : Act n) (q : Fin n) :
    (s.step a).phase q = s.phase q ∨ (s.step a).phase q = .crashed ∨
      ∃ os, a = .turn q os ∧ Turns (s.config q) os s.alive s.entry (s.phase q)
        ((s.step a).phase q) (s.step a).entry := by
  cases a with
  | turn p os =>
    by_cases hq : q = p
    · refine .inr (.inr ⟨os, by rw [hq], ?_⟩)
      rw [step, phase_enter, if_pos hq, hq]
      exact turn_turns (s.config p) os s.alive s.entry (s.phase p)
    · rw [step, phase_enter, if_neg hq]
      exact .inl rfl
  | crash p =>
    rw [step, phase_enter]
    by_cases hq : q = p
    · exact .inr (.inl (if_pos hq))
    · exact .inl (if_neg hq)
  | replace f => exact .inl rfl
  | remove => exact .inl rfl
  | foreignListen id => exact .inl rfl
  | foreignClose id => exact .inl rfl

/-- Everything that is at the path, captured or bound has been at the path. -/
structure Sound (s : System n) : Prop where
  noted : ∀ f, s.entry = some f → f.id ∈ s.created
  captured : ∀ p id, (s.phase p).captured = some id → id ∈ s.created
  bound : ∀ p id, (s.phase p).bound = some id → id ∈ s.created

theorem Start.sound {s : System n} (h : s.Start) : s.Sound where
  noted := h.noted
  captured p id hp := by simp [h.phase p, Phase.captured] at hp
  bound p id hp := by simp [h.phase p, Phase.bound] at hp

theorem noted_step {s : System n} (h : s.Sound) (a : Act n) {f : File}
    (hentry : (s.step a).entry = some f) : f.id ∈ (s.step a).created := by
  cases a with
  | turn p os =>
    change f.id ∈ noting (s.step (.turn p os)).entry s.created
    rw [hentry]
    exact mem_noting f s.created
  | crash p =>
    change f.id ∈ noting (s.step (.crash p)).entry s.created
    rw [hentry]
    exact mem_noting f s.created
  | replace g =>
    obtain rfl := Option.some.inj hentry
    exact mem_noting g s.created
  | remove => simp [step] at hentry
  | foreignListen id => exact h.noted f hentry
  | foreignClose id => exact h.noted f hentry

theorem Sound.step {s : System n} (h : s.Sound) (a : Act n) : (s.step a).Sound where
  noted _ hentry := noted_step h a hentry
  captured p id hp := by
    rcases phase_step_cases s a p with hsame | hcrash | ⟨os, -, hturn⟩
    · rw [hsame] at hp
      exact created_step s a (h.captured p id hp)
    · simp [hcrash, Phase.captured] at hp
    · rcases hturn.captured_cases hp with hp | ⟨f, hf, rfl⟩
      · exact created_step s a (h.captured p id hp)
      · exact created_step s a (h.noted f hf)
  bound p id hp := by
    rcases phase_step_cases s a p with hsame | hcrash | ⟨os, -, hturn⟩
    · rw [hsame] at hp
      exact created_step s a (h.bound p id hp)
    · simp [hcrash, Phase.bound] at hp
    · rcases hturn.bound_cases hp with hp | ⟨-, rfl, hentry⟩
      · exact created_step s a (h.bound p id hp)
      · exact noted_step h a hentry

theorem Sound.run {s : System n} (h : s.Sound) (acts : List (Act n)) : (s.run acts).Sound := by
  induction acts using List.reverseRecOn with
  | nil => exact h
  | append_singleton acts a ih =>
    rw [run_concat]
    exact ih.step a

/-- The program takes over by force, or it was refused at the path at some time. -/
def Refused (s : System n) (acts : List (Act n)) (q : Fin n) (id : FileId) : Prop :=
  (s.config q).forceRebind = true ∨ ∃ pre, pre <+: acts ∧ (s.run pre).phase q = .probe id ∧
    ∀ f, (s.run pre).entry = some f → f.fileType = .socket → (s.run pre).alive f.id = false

/-- The program has seen a socket with the captured identity for the second time. -/
def SeenAgain (s : System n) (acts : List (Act n)) (q : Fin n) (id : FileId) : Prop :=
  ∃ pre, pre <+: acts ∧ (s.run pre).phase q = .removeFile id ∧
    ∃ f, (s.run pre).entry = some f ∧ f.id = id ∧ f.fileType = .socket

theorem Refused.mono {s : System n} {pre acts : List (Act n)} {q : Fin n} {id : FileId}
    (h : s.Refused pre q id) (hpre : pre <+: acts) : s.Refused acts q id :=
  h.imp_right fun ⟨pre', hpre', hprobe⟩ => ⟨pre', hpre'.trans hpre, hprobe⟩

theorem SeenAgain.mono {s : System n} {pre acts : List (Act n)} {q : Fin n} {id : FileId}
    (h : s.SeenAgain pre q id) (hpre : pre <+: acts) : s.SeenAgain acts q id :=
  h.imp fun _ ⟨hpre', hseen⟩ => ⟨hpre'.trans hpre, hseen⟩

theorem refused_of_restat {s : System n} (hs : s.Start) (acts : List (Act n)) {q : Fin n}
    {id : FileId} (h : (s.run acts).phase q = .restat id) : s.Refused acts q id := by
  induction acts using List.reverseRecOn with
  | nil => simp [hs.phase q] at h
  | append_singleton acts a ih =>
    rw [run_concat] at h
    rcases phase_step_cases (s.run acts) a q with hsame | hcrash | ⟨os, -, hturn⟩
    · exact (ih (hsame.symm.trans h)).mono (List.prefix_append _ _)
    · simp [hcrash] at h
    · rw [h] at hturn
      rcases hturn.restat_cases with hforce | ⟨hprobe, hconnect⟩
      · rw [config_run] at hforce
        exact .inl hforce
      · refine .inr ⟨acts, List.prefix_append _ _, hprobe, ?_⟩
        intro f hf hsocket
        rw [hf] at hconnect
        exact connect_refused hconnect hsocket

theorem seen_of_removeFile {s : System n} (hs : s.Start) (acts : List (Act n)) {q : Fin n}
    {id : FileId} (h : (s.run acts).phase q = .removeFile id) :
    s.Refused acts q id ∧ s.SeenAgain acts q id := by
  induction acts using List.reverseRecOn with
  | nil => simp [hs.phase q] at h
  | append_singleton acts a ih =>
    have hpre : acts <+: acts ++ [a] := List.prefix_append _ _
    have hphase := h
    rw [run_concat] at h
    rcases phase_step_cases (s.run acts) a q with hsame | hcrash | ⟨os, -, hturn⟩
    · obtain ⟨hrefused, hseen⟩ := ih (hsame.symm.trans h)
      exact ⟨hrefused.mono hpre, hseen.mono hpre⟩
    · simp [hcrash] at h
    · rw [h] at hturn
      obtain ⟨hrestat, hentry, f, hf, hid, hsocket⟩ := hturn.removeFile_cases
      refine ⟨(refused_of_restat hs acts hrestat).mono hpre, acts ++ [a], List.prefix_refl _,
        hphase, f, ?_, hid, hsocket⟩
      rw [run_concat, hentry, hf]

/-- What is at the path when a program is about to unlink: a socket without a listener
when the program probed it, unless it takes over by force or the file came there
after the program's second look. -/
def Removable (s : System n) (acts : List (Act n)) (q : Fin n) (id : FileId) (f : File) : Prop :=
  (f.id = id ∧ f.fileType = .socket ∧ ((s.config q).forceRebind = true ∨
    ∃ pre, pre <+: acts ∧ (s.run pre).phase q = .probe id ∧ (s.run pre).At id ∧
      (s.run pre).alive id = false)) ∨
  ∃ pre, pre <+: acts ∧ (s.run pre).phase q = .removeFile id ∧ f.id ∉ (s.run pre).created

theorem removable (s : System n) (hs : s.Start) (acts : List (Act n)) (hfresh : s.Fresh acts)
    (q : Fin n) (id : FileId) (hphase : (s.run acts).phase q = .removeFile id) (f : File)
    (hentry : (s.run acts).entry = some f) : s.Removable acts q id f := by
  obtain ⟨hrefused, pre, hpre, hremove, g, hg, rfl, hsocket⟩ := seen_of_removeFile hs acts hphase
  by_cases hknown : f.id ∈ (s.run pre).created
  · obtain ⟨g', hg', hid, htype⟩ := entry_of_run hfresh hpre hknown hentry
    obtain rfl : g = g' := Option.some.inj (hg.symm.trans hg')
    refine .inl ⟨hid.symm, htype.symm.trans hsocket, hrefused.imp_right ?_⟩
    rintro ⟨pre', hpre', hprobe, hdead⟩
    have hcaptured : g.id ∈ (s.run pre').created := by
      apply (hs.sound.run pre').captured q
      rw [hprobe]
      rfl
    obtain ⟨f', hf', hid', htype'⟩ :=
      entry_of_run hfresh hpre' (by rwa [← hid]) hentry
    refine ⟨pre', hpre', hprobe, ⟨f', hf', hid'.trans hid.symm⟩, ?_⟩
    rw [hid, ← hid']
    exact hdead f' hf' (htype'.trans (htype.symm.trans hsocket))
  · exact .inr ⟨pre, hpre, hremove, hknown⟩

/-- A program that has bound a socket had bound it as soon as the file was there. -/
theorem bound_of_run {s : System n} {pre acts : List (Act n)} (hfresh : s.Fresh acts)
    (hpre : pre <+: acts) {p : Fin n} {id : FileId} (hknown : id ∈ (s.run pre).created)
    (hbound : ((s.run acts).phase p).bound = some id) :
    ((s.run pre).phase p).bound = some id := by
  obtain ⟨rest, rfl⟩ := hpre
  induction rest using List.reverseRecOn with
  | nil => simpa using hbound
  | append_singleton rest a ih =>
    rw [← List.append_assoc] at hfresh hbound
    apply ih (hfresh.mono (List.prefix_append _ _))
    rw [run_concat] at hbound
    rcases phase_step_cases (s.run (pre ++ rest)) a p with hsame | hcrash | ⟨os, rfl, hturn⟩
    · rwa [hsame] at hbound
    · simp [hcrash, Phase.bound] at hbound
    · rcases hturn.bound_cases hbound with hbound | ⟨hbind, rfl, -⟩
      · exact hbound
      · have hnow := created_run (s := s) (List.prefix_append pre rest) hknown
        exact absurd hnow (hfresh _ _ (List.prefix_refl _) os.fresh (by simp [newId, hbind]))

theorem listen_of_not_alive {s : System n} {p : Fin n} {id : FileId}
    (hbound : (s.phase p).bound = some id) (hdead : s.alive id = false) :
    s.phase p = .listen id := by
  have hnot : (s.phase p).listensOn ≠ some id := by
    intro h
    have halive : s.alive id = true := by
      rw [alive, Bool.or_eq_true, decide_eq_true_eq, decide_eq_true_eq]
      exact .inr ⟨p, h⟩
    simp [halive] at hdead
  cases hphase : s.phase p <;> simp_all [Phase.bound, Phase.listensOn]

/-- The acts of the programs that bind, and of those that only listen elsewhere. -/
def Inside : Act n → Prop
  | .replace _ => False
  | .remove => False
  | _ => True

/-- Among the programs, a file leaves the path by the unlink of one of them. -/
theorem at_step {s : System n} {a : Act n} (hinside : Inside a) {id : FileId} (hat : s.At id)
    (hgone : ¬ (s.step a).At id) : ∃ q os id', a = .turn q os ∧ s.phase q = .removeFile id' := by
  obtain ⟨f, hf, rfl⟩ := hat
  cases a with
  | turn q os =>
    have hturn := turn_turns (s.config q) os s.alive s.entry (s.phase q)
    have hthere : (s.step (.turn q os)).entry =
      ((s.phase q).turn (s.config q) os s.alive s.entry).2 := rfl
    generalize ((s.phase q).turn (s.config q) os s.alive s.entry) = next at hturn hthere
    generalize hwas : s.phase q = phase at hturn
    obtain ⟨phase', entry'⟩ := next
    cases hturn with
    | unlinks _ => exact ⟨q, os, _, rfl, hwas⟩
    | binds hnone => simp [hf] at hnone
    | permits hentry hsame =>
      obtain rfl := Option.some.inj (hf.symm.trans hentry)
      exact absurd ⟨_, hthere, hsame.1⟩ hgone
    | idle _ _ | sees _ | forces _ _ | refused _ | confirms _ _ | keeps _ _ =>
      exact absurd ⟨f, hthere.trans hf, rfl⟩ hgone
  | crash q => exact absurd ⟨f, hf, rfl⟩ hgone
  | replace g => exact hinside.elim
  | remove => exact hinside.elim
  | foreignListen id => exact absurd ⟨f, hf, rfl⟩ hgone
  | foreignClose id => exact absurd ⟨f, hf, rfl⟩ hgone

/-- Whatever file leaves the path while only programs that bind touch it, one of them has
unlinked it: a socket without a listener when that program probed it, unless it takes
over by force or the file came to the path after the program's second look. -/
theorem removed_file (s : System n) (hs : s.Start) (acts : List (Act n)) (hfresh : s.Fresh acts)
    (a : Act n) (hinside : Inside a) (f : File) (hentry : (s.run acts).entry = some f)
    (hgone : ¬ ((s.run acts).step a).At f.id) :
    ∃ q os id, a = .turn q os ∧ (s.run acts).phase q = .removeFile id ∧
      s.Removable acts q id f := by
  obtain ⟨q, os, id, rfl, hphase⟩ := at_step hinside ⟨f, hentry, rfl⟩ hgone
  exact ⟨q, os, id, rfl, hphase, removable s hs acts hfresh q id hphase f hentry⟩

/-- A program unlinks the socket of another: by force, since it probed the socket
before its owner listened on it, or since the socket was bound between its second
look and the unlink. -/
def Robbed (s : System n) (acts : List (Act n)) (p : Fin n) (id : FileId) : Prop :=
  ∃ pre q os id', pre ++ [.turn q os] <+: acts ∧ (s.run pre).phase q = .removeFile id' ∧
    (s.run pre).At id ∧ ((s.config q).forceRebind = true ∨
      (∃ pre', pre' <+: pre ∧ (s.run pre').phase q = .probe id ∧
        (s.run pre').phase p = .listen id) ∨
      ∃ pre', pre' <+: pre ∧ (s.run pre').phase q = .removeFile id' ∧ id ∉ (s.run pre').created)

theorem Robbed.mono {s : System n} {pre acts : List (Act n)} {p : Fin n} {id : FileId}
    (h : s.Robbed pre p id) (hpre : pre <+: acts) : s.Robbed acts p id := by
  obtain ⟨pre', q, os, id', hpre', hrobbed⟩ := h
  exact ⟨pre', q, os, id', hpre'.trans hpre, hrobbed⟩

/-- As long as only programs that bind touch the path, a listener that is still up
has its socket at the path, or it has been robbed of it in one of three ways. -/
theorem listener_reachable (s : System n) (hs : s.Start) (acts : List (Act n))
    (hfresh : s.Fresh acts) (hinside : ∀ a ∈ acts, Inside a) (p : Fin n) (id : FileId)
    (hbound : ((s.run acts).phase p).bound = some id) :
    (s.run acts).At id ∨ s.Robbed acts p id := by
  induction acts using List.reverseRecOn with
  | nil => simp [hs.phase p, Phase.bound] at hbound
  | append_singleton acts a ih =>
    have hpre : acts <+: acts ++ [a] := List.prefix_append _ _
    rw [run_concat] at hbound ⊢
    by_cases hwas : ((s.run acts).phase p).bound = some id
    · rcases ih (hfresh.mono hpre) (fun b hb => hinside b (by simp [hb])) hwas with hat | hrobbed
      · by_cases hstays : ((s.run acts).step a).At id
        · exact .inl hstays
        · obtain ⟨q, os, id', rfl, hremove⟩ := at_step (hinside a (by simp)) hat hstays
          refine .inr ⟨acts, q, os, id', List.prefix_refl _, hremove, hat, ?_⟩
          obtain ⟨f, hf, rfl⟩ := hat
          rcases removable s hs acts (hfresh.mono hpre) q id' hremove f hf with
            ⟨rfl, -, hforce | ⟨pre, hpre', hprobe, ⟨g, hg, hid⟩, hdead⟩⟩ | hwindow
          · exact .inl hforce
          · refine .inr (.inl ⟨pre, hpre', hprobe, ?_⟩)
            apply listen_of_not_alive ?_ hdead
            apply bound_of_run (hfresh.mono hpre) hpre' ?_ hwas
            rw [← hid]
            exact (hs.sound.run pre).noted g hg
          · exact .inr (.inr hwindow)
      · exact .inr (hrobbed.mono hpre)
    · rcases phase_step_cases (s.run acts) a p with hsame | hcrash | ⟨os, rfl, hturn⟩
      · rw [hsame] at hbound
        exact absurd hbound hwas
      · simp [hcrash, Phase.bound] at hbound
      · rcases hturn.bound_cases hbound with hbound | ⟨-, rfl, hentry⟩
        · exact absurd hbound hwas
        · exact .inl ⟨_, hentry, rfl⟩

theorem Fresh.cons {s : System n} {a : Act n} {acts : List (Act n)}
    (ha : ∀ id ∈ s.newId a, id ∉ s.created) (hacts : (s.step a).Fresh acts) :
    s.Fresh (a :: acts) := by
  intro pre b hpre id hid
  cases pre with
  | nil =>
    obtain ⟨rfl, -⟩ := List.cons_prefix_cons.mp hpre
    exact ha id hid
  | cons c pre =>
    obtain ⟨rfl, htail⟩ := List.cons_prefix_cons.mp hpre
    exact hacts pre b htail id hid

theorem fresh_nil (s : System n) : s.Fresh [] := by
  intro pre a h
  simp at h

def plain : UnixSocketIngestConfig := ⟨"/run/otk.sock", 65535, 1, none, false⟩

def quiet : Os := ⟨none, ⟨0, 2⟩, .notFound, fun _ => "", by simp⟩

/-- A socket that nobody listens on, and two programs about to bind. -/
def stale : System 2 :=
  ⟨some ⟨.socket, ⟨0, 1⟩, none⟩, [⟨0, 1⟩], [], fun _ => ⟨plain, .validate⟩⟩

theorem start_stale : stale.Start where
  phase _ := rfl
  noted := by
    rintro f ⟨⟩
    decide

/-- The first program looks twice at the stale socket. -/
def looks : List (Act 2) := List.replicate 4 (.turn 0 quiet)

theorem fresh_looks : stale.Fresh looks := by
  repeat' apply Fresh.cons
  all_goals first | exact fresh_nil _ | decide

def unlinks : Act 2 := .turn 0 ⟨none, ⟨0, 3⟩, .notFound, fun _ => "", by simp⟩

theorem removed_file_sample : ∃ q os id, unlinks = .turn q os ∧
    (stale.run looks).phase q = .removeFile id ∧
      stale.Removable looks q id ⟨.socket, ⟨0, 1⟩, none⟩ := by
  have hgone : ¬ ((stale.run looks).step unlinks).At ⟨0, 1⟩ := by
    have hnone : ((stale.run looks).step unlinks).entry = none := by decide
    rintro ⟨f, hf, -⟩
    rw [hnone] at hf
    cases hf
  exact removed_file stale start_stale looks fresh_looks unlinks trivial
    ⟨.socket, ⟨0, 1⟩, none⟩ (by decide) hgone

/-- Then the second program replaces it and listens, and the first unlinks. -/
def overtaken : List (Act 2) :=
  looks ++ List.replicate 7 (.turn 1 quiet) ++
    [unlinks]

theorem fresh_overtaken : stale.Fresh overtaken := by
  repeat' apply Fresh.cons
  all_goals first | exact fresh_nil _ | decide

/-- The second program still listens on a socket that is no longer at the path. -/
theorem listener_reachable_sample :
    (stale.run overtaken).phase 1 = .ready ⟨0, 2⟩ ∧ (stale.run overtaken).entry = none ∧
      ((stale.run overtaken).At ⟨0, 2⟩ ∨ stale.Robbed overtaken 1 ⟨0, 2⟩) :=
  ⟨by decide, by decide, listener_reachable stale start_stale overtaken fresh_overtaken
    (by simp [overtaken, looks, unlinks, Inside]) 1 ⟨0, 2⟩ (by decide)⟩

end System

end OtkCore.Ingest.SocketBind
