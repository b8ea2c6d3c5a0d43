import OtkCore.SegmentLog.Atomicity
import OtkCore.SegmentLog.Crash
import OtkCore.SegmentLog.Following
import OtkCore.SegmentLog.Partial

/-!
# A log and a subscription in one directory

The log appends, rolls and deletes while a subscription reads. They share nothing
but the directory and the wake-up, and their operations come in any order.
-/
namespace OtkCore.SegmentLog

open Effect FileIO

/-- What the log is doing, with its state as last committed: nothing, storing a batch,
or what `append` does behind its commit. -/
inductive Writer
  | idle (log : Log)
  | storing (log : Log) (batch : List (String × OtkEvent))
      (rest : Prog (Resp (N := FileName)) (Except StorageError Unit × Log))
  | rolling (log : Log) (rest : Prog (Resp (N := FileName)) (Except StorageError ℕ × Log))

namespace Writer

def log : Writer → Log
  | .idle l | .storing l _ _ | .rolling l _ => l

def ofRolling (l : Log) : Prog (Resp (N := FileName)) (Except StorageError ℕ × Log) → Writer
  | .pure (_, l') => .idle l'
  | rest => .rolling l rest

/-- A batch is committed by the operation that wakes up the subscriptions; nothing can
come between. -/
def ofStoring (l : Log) (batch : List (String × OtkEvent)) :
    Prog (Resp (N := FileName)) (Except StorageError Unit × Log) → Writer
  | .pure (.ok (), l') => .ofRolling l' (appendRoll l')
  | .pure (.error _, l') => .idle l'
  | rest => .storing l batch rest

def idle? : Writer → Option Log
  | .idle l => some l
  | _ => none

theorem idle?_eq_some {a : Writer} {l : Log} (h : a.idle? = some l) : a = .idle l := by
  cases a with
  | idle l' => exact congrArg _ (Option.some.inj h)
  | storing l' batch rest => cases h
  | rolling l' rest => cases h

def pending : Writer → Option (Op FileName)
  | .storing _ _ (.step o _) | .rolling _ (.step o _) => some o
  | _ => none

end Writer

/-- The events that an operation has committed, of a batch with this still to do. -/
def committedBy (batch : List (String × OtkEvent)) :
    Prog (Resp (N := FileName)) (Except StorageError Unit × Log) → List (String × OtkEvent)
  | .pure (.ok (), _) => batch
  | _ => []

/-- What a subscription is doing: there is none, it is not being asked, or it is in a
round of `next_entry`. -/
inductive Reader
  | absent
  | resting (s : Subscription)
  | trying (rest : Prog (Resp (N := FileName))
      (Except StorageError Subscription.Round × Subscription))

def delivery : Except StorageError Subscription.Round → List LogEntry
  | .ok (.returned e) => [e]
  | _ => []

def notifies : Op FileName → Bool
  | .notify => true
  | _ => false

/-- The operations that may fail before a batch is committed: those that write its
records, and the sync. -/
def BatchFails : Op FileName → Prop
  | .write _ pos _ => headerLen ≤ pos
  | .sync _ => True
  | _ => False

/-- The directory, the log and a subscription; and what an observer notes: which events
have been committed since the log was opened with `first` as its next offset, where the
subscription has started and what it has delivered, the log's next offset when the
subscription last armed its wake-up, whether it has been woken since, what the listings
have shown since, and how far it has read each file. -/
structure System where
  disk : Disk FileName
  writer : Writer
  reader : Reader := .absent
  first : ℕ
  accepted : List (String × OtkEvent) := []
  start : ℕ := 0
  delivered : List LogEntry := []
  armed : ℕ := 0
  notified : Bool := false
  sweep : Sweep := .start
  seen : ℕ → ℕ := fun _ => 0

namespace System

def commit (x : System) (l : Log) (batch : List (String × OtkEvent))
    (rest : Prog (Resp (N := FileName)) (Except StorageError Unit × Log)) : System :=
  { x with
    writer := .ofStoring l batch rest
    accepted := x.accepted ++ committedBy batch rest }

/-- One operation of the log or of the subscription, or a call. Before its commit an
append may fail to write or to sync; a subscription that waits may be woken, or asked
again, at any time. -/
inductive Next (c : Codec) : System → System → Prop
  | append {x : System} {l : Log} {producerId : String} {events : List OtkEvent} :
      x.writer = .idle l → Decodes c events →
      Next c x (x.commit l (events.map (producerId, ·)) (appendCommit c producerId events l))
  | store {x : System} {l : Log} {batch : List (String × OtkEvent)} {o : Op FileName}
      {k : Resp o → Prog (Resp (N := FileName)) (Except StorageError Unit × Log)} {r : Resp o}
      {d : Disk FileName} :
      x.writer = .storing l batch (.step o k) → Step BatchFails x.disk o r d →
      Next c x
        ({ x with disk := d, notified := x.notified || notifies o }.commit l batch (k r))
  | roll {x : System} {l : Log} {o : Op FileName}
      {k : Resp o → Prog (Resp (N := FileName)) (Except StorageError ℕ × Log)} {r : Resp o}
      {d : Disk FileName} :
      x.writer = .rolling l (.step o k) → Step NoFail x.disk o r d →
      Next c x { x with
        disk := d
        writer := .ofRolling l (k r)
        notified := x.notified || notifies o }
  | subscribe {x : System} {l : Log} {start : ℕ} {s : Subscription} :
      x.writer = .idle l → x.reader = .absent → l.subscribe start = .ok s →
      Next c x { x with reader := .resting s, start := start }
  | arm {x : System} {s : Subscription} :
      x.reader = .resting s → s.closed = false →
      Next c x { x with
        reader := .trying (Subscription.round c x.writer.log.config.dir s)
        armed := x.writer.log.nextOffset
        notified := false
        sweep := .start }
  | look {x : System} {o : Op FileName}
      {k : Resp o → Prog (Resp (N := FileName))
        (Except StorageError Subscription.Round × Subscription)}
      {r : Resp o} {d : Disk FileName} :
      x.reader = .trying (.step o k) → Step NoFail x.disk o r d →
      Next c x { x with
        disk := d
        reader := .trying (k r)
        sweep := x.sweep.see o r
        seen := fun i => max (x.seen i) (shown x.disk i o r) }
  | finish {x : System} {r : Except StorageError Subscription.Round} {s : Subscription} :
      x.reader = .trying (.pure (r, s)) →
      Next c x { x with reader := .resting s, delivered := x.delivered ++ delivery r }

def opened (d : Disk FileName) (l : Log) : System where
  disk := d
  writer := .idle l
  first := l.nextOffset

/-- The states reached from the opening of a directory that may have had any life
before, if the states passed through satisfy `P`. -/
inductive Run (c : Codec) (P : System → Prop) : System → Prop
  | opened {t : Told} {d₀ d : Disk FileName} {config : SegmentLogConfig} {l : Log} :
      Reached c t none d₀ → Finishes (Step NoFail) d₀ (openDir c config) d (.ok l) →
      Run c P (.opened d l)
  | next {x y : System} : Run c P x → P x → Next c x y → Run c P y

/-- The log is not about to cut off what the subscription has read. -/
def Spares (x : System) : Prop :=
  ∀ i len, x.writer.pending = some (.setLen i len) → x.seen i ≤ len

end System

section Reads

variable {c : Codec} {σ : Type}

theorem reads_call {α : Type} {p : Prog (Resp (N := FileName)) (Except IoErrorKind α)}
    (h : p.Uses Op.Reads) : Uses Op.Reads (call p : Io σ α) :=
  .mapError (.liftE h) _

theorem reads_record (pos : ℕ) : Uses Op.Reads (readRecord c pos) :=
  .bind (.mapError (uses_seek pos) _) fun _ => uses_read _ _

theorem reads_readIndex (dir : String) (base : ℕ) :
    Uses Op.Reads (readIndex dir base : Io σ (List ℕ)) := by
  refine Uses.bind (reads_call (.op trivial)) fun n => ?_
  split_ifs
  · exact .throw _
  · refine Uses.bind (reads_call (.op trivial)) fun ino => ?_
    refine Uses.bind (reads_call (.op trivial)) fun bytes => ?_
    split_ifs
    · exact .throw _
    · exact .pure _

theorem reads_readWatermark : Uses Op.Reads (readWatermark : Io σ (Option ℕ)) := by
  refine Uses.bind (.lift (.op trivial)) fun r => ?_
  split
  · exact .pure _
  · exact .throw _
  · refine Uses.bind (.on (.attempt (uses_readExact 8)) _) fun r => ?_
    split
    · exact .pure _
    · exact .pure _
    · exact .throw _

theorem reads_idxExists (base : ℕ) : Uses Op.Reads (idxExists base : Io σ Bool) := by
  refine Uses.bind (.lift (.op trivial)) fun r => ?_
  split
  · exact .pure _
  · exact .pure _
  · exact .throw _

namespace Subscription

theorem reads_scanSegments (n : ℕ) :
    Uses Op.Reads (scanSegments n : Io σ (Option ℕ × Option ℕ)) := by
  refine Uses.bind (reads_call (.op trivial)) fun slots => ?_
  have hentries : ∀ found, Uses Op.Reads (scanEntries n slots found : Io σ _) := by
    induction slots with
    | nil => exact fun _ => .pure _
    | cons slot rest ih => exact fun _ => .bind (reads_call (.op trivial)) fun _ => ih _
  exact hentries _

theorem reads_rescan (n : ℕ) : Uses Op.Reads (rescan n : Io σ Opened) := by
  refine Uses.bind (reads_scanSegments n) fun found => ?_
  split
  · exact .throw _
  · exact .pure _

theorem reads_scanRecords (n pos : ℕ) : Uses Op.Reads (scanRecords c n pos) := by
  induction n generalizing pos with
  | zero => exact .pure _
  | succ n ih =>
    refine Uses.bind (.attempt (reads_record pos)) fun r => ?_
    split
    · exact .bind (.mapError uses_streamPosition _) fun next => ih next
    · split_ifs
      · exact .pure _
      · exact .throw _
    · exact .pure _
    · exact .throw _

theorem reads_seekTo (file : File) (pos : ℕ) (active : Bool) :
    Uses Op.Reads (seekTo file pos active : Io σ Opened) :=
  .bind (.on (.mapError (uses_seek pos) _) _) fun _ => .pure _

theorem reads_openIndexed (dir : String) (n base ino : ℕ) :
    Uses Op.Reads (openIndexed dir n base ino : Io σ Opened) := by
  refine Uses.bind (.attempt (reads_readIndex dir base)) fun r => ?_
  split
  · exact reads_rescan n
  · exact .throw _
  · split
    · exact .pure _
    · exact reads_seekTo _ _ _

theorem reads_openUnindexed (n base ino : ℕ) :
    Uses Op.Reads (openUnindexed c n base ino : Io σ Opened) := by
  refine Uses.bind (.on (reads_scanRecords _ _) _) fun x => ?_
  obtain ⟨found, file⟩ := x
  cases found with
  | reached pos => exact reads_seekTo _ _ _
  | ended pos => exact reads_seekTo _ _ _
  | rolled => exact .pure _

theorem reads_openSegment (dir : String) (n base : ℕ) :
    Uses Op.Reads (openSegment c dir n base : Io σ Opened) := by
  refine Uses.bind (.lift (.op trivial)) fun r => ?_
  split
  · exact reads_rescan n
  · exact .throw _
  · refine Uses.bind (reads_idxExists base) fun indexed => ?_
    split_ifs
    · exact reads_openIndexed _ _ _ _
    · exact reads_openUnindexed _ _ _

theorem reads_openToOffset (dir : String) (n : ℕ) :
    Uses Op.Reads (openToOffset c dir n : Io σ Opened) := by
  refine Uses.bind (reads_scanSegments n) fun found => ?_
  split
  · exact reads_openSegment _ _ _
  · exact .throw _
  · refine Uses.bind reads_readWatermark fun mark => ?_
    split
    · split_ifs
      · exact .throw _
      · exact .pure _
    · exact .pure _

theorem reads_openNext : Uses Op.Reads openNext := by
  refine Uses.bind .get fun s => Uses.bind (.lift (.op trivial)) fun r => ?_
  split
  · exact .bind (reads_idxExists _) fun _ => .bind (.modify _) fun _ => .pure _
  · exact .bind (.modify _) fun _ => .pure _
  · exact .throw _

theorem reads_readNext (file : File) (pos : ℕ) (active : Bool) :
    Uses Op.Reads (readNext c file pos active) := by
  refine Uses.bind (.on (.attempt (reads_record pos)) _) fun x => ?_
  obtain ⟨r, file⟩ := x
  dsimp only
  split
  · refine Uses.bind (.on (.mapError uses_streamPosition _) _) fun x => ?_
    refine Uses.bind (.modify _) fun _ => Uses.bind .get fun s => ?_
    split_ifs
    · exact .pure _
    · exact .throw _
    · exact .bind (.modify _) fun _ => .pure _
  · split_ifs
    · exact reads_openNext
    · exact .throw _
  · refine Uses.bind (.modify _) fun _ => ?_
    split_ifs
    · exact .pure _
    · exact .throw _
  · exact .throw _

theorem reads_ensureFile (dir : String) : Uses Op.Reads (ensureFile c dir) := by
  refine Uses.bind .get fun s => ?_
  split
  · exact .pure _
  · exact .bind (reads_openToOffset dir _) fun _ => .modify _

/-- A round of `next_entry` leaves the disk alone. -/
theorem reads_round (dir : String) (s : Subscription) : (round c dir s).Uses Op.Reads := by
  have htry : Uses Op.Reads (tryRound c dir) := by
    refine Uses.bind (reads_ensureFile dir) fun _ => Uses.bind .get fun s => ?_
    split
    · exact .pure _
    · exact reads_readNext _ _ _
  exact Prog.Uses.bind (htry s) fun _ => trivial

end Subscription
end Reads

/-- Readers follow, and the stored entries go on from these. -/
def following (fails : Op FileName → Prop) (entries : List LogEntry) : Mode :=
  ⟨fails, True, (entries <+: ·)⟩

theorem following_undoes (entries : List LogEntry) : (following BatchFails entries).Undoes where
  setLen _ _ h := h
  creates _ _ _ h := h
  headers _ _ _ _ hp h := absurd h (Nat.not_le_of_lt hp)

theorem following_undoes_roll (entries : List LogEntry) : (following NoFail entries).Undoes where
  setLen _ _ h := h
  creates _ _ _ h := h
  headers _ _ _ _ _ h := h

/-- How a commit ends that began with the entries `E`. -/
def Stored (c : Codec) (E : List LogEntry) (batch : List (String × OtkEvent)) :
    Except StorageError Unit × Log → World → Prop
  | (.ok (), l), w => Ready c (following NoFail E) l w ∧
      ∃ es, w.ghost.total = E ++ es ∧ payloads es = batch
  | (.error _, l), w => Rep c (following NoFail E) l w ∧ l.poisoned = false ∧ w.ghost.total = E

def Closed (c : Codec) (E : List LogEntry) (x : Except StorageError ℕ × Log) (w : World) : Prop :=
  Rep c (following NoFail E) x.2 w ∧ x.2.poisoned = false ∧ w.ghost.total = E

/-- The log has committed the entries `E`, and what it does next is right. -/
def Writer.Sound (c : Codec) (E : List LogEntry) (w : World) : Writer → Prop
  | .idle l => Rep c (following NoFail E) l w ∧ l.poisoned = false ∧ w.ghost.total = E
  | .storing l batch rest => l.nextOffset = E.length ∧
      Safe (setting c (following BatchFails E)) rest (Stored c E batch) w
  | .rolling l rest => l.nextOffset = E.length ∧
      Safe (setting c (following NoFail E)) rest (Closed c E) w

variable {c : Codec} {w : World} {l : Log} {E : List LogEntry} {batch : List (String × OtkEvent)}

theorem Writer.Sound.next {a : Writer} (h : a.Sound c E w) : a.log.nextOffset = E.length := by
  cases a with
  | idle l =>
    obtain ⟨hrep, hp, htotal⟩ := h
    exact (hrep.clean hp).trans (congrArg List.length htotal)
  | storing l batch rest => exact h.1
  | rolling l rest => exact h.1

theorem Writer.Sound.ofRolling {p : Prog (Resp (N := FileName)) (Except StorageError ℕ × Log)}
    (hn : l.nextOffset = E.length)
    (h : Safe (setting c (following NoFail E)) p (Closed c E) w) :
    (Writer.ofRolling l p).Sound c E w := by
  cases p with
  | pure x => exact h
  | step o k => exact ⟨hn, h⟩

/-- Behind an operation of a commit: the batch is committed, or nothing has changed. -/
theorem Writer.Sound.ofStoring
    {p : Prog (Resp (N := FileName)) (Except StorageError Unit × Log)}
    (hn : l.nextOffset = E.length) (hE : E <+: w.ghost.total)
    (h : Safe (setting c (following BatchFails E)) p (Stored c E batch) w) :
    ∃ es, E ++ es <+: w.ghost.total ∧ payloads es = committedBy batch p ∧
      (Writer.ofStoring l batch p).Sound c (E ++ es) w := by
  match p with
  | .step o k => exact ⟨[], by simpa using hE, rfl, by simpa using ⟨hn, h⟩⟩
  | .pure (.error err, l') =>
    refine ⟨[], by simpa using hE, rfl, ?_⟩
    rw [List.append_nil]
    exact h
  | .pure (.ok (), l') =>
    obtain ⟨hready, es, htotal, hbatch⟩ := h
    have hready' : Ready c (following NoFail (E ++ es)) l' w := hready.congr_mode Iff.rfl
    refine ⟨es, htotal ▸ List.prefix_refl _, hbatch, .ofRolling ?_ ?_⟩
    · rw [hready.rep.clean hready.clean, htotal]
    · refine hready'.appendRoll (following_undoes_roll _) (fun _ _ hf => hf)
        (htotal ▸ List.prefix_refl _) (fun l₁ w₁ hrep hrolled => ?_) fun ⟨o, ho⟩ => ho.elim
      exact ⟨hrep, hrolled.poisoned.trans hready.clean, hrolled.total.trans htotal⟩

/-- A call of `append`. -/
theorem Writer.Sound.append (h : Writer.Sound c E w (.idle l)) (producerId : String)
    {events : List OtkEvent} (hcod : Decodes c events) :
    Safe (setting c (following BatchFails E)) (appendCommit c producerId events l)
      (Stored c E (events.map (producerId, ·))) w := by
  obtain ⟨hrep, hp, rfl⟩ := h
  have hfaulty : Rep c (following BatchFails w.ghost.total) l w := hrep.congr_mode Iff.rfl
  refine hfaulty.appendCommit_seeks (following_undoes _) producerId events hcod
    (fun _ _ _ _ => List.prefix_append _ _) (fun ts l' w' hcom hready => ?_)
    fun err l' w' _ hrep' hleft => ?_
  · exact ⟨hready.congr_mode Iff.rfl, _, hcom.total, payloads_batchOf _ _ _ _⟩
  · rcases hleft with hkept | ⟨⟨i, hi⟩, -⟩
    · exact ⟨hrep'.congr_mode Iff.rfl, hkept.poisoned.trans hp, hkept.total⟩
    · exact hi.elim

theorem move_of_safe {m : Mode} {α : Type} {o : Op FileName}
    {k : Resp o → Prog (Resp (N := FileName)) α} {Q : α → World → Prop}
    (h : Safe (setting c m) (.step o k) Q w) {r : Resp o} {d : Disk FileName}
    (hs : Step m.fails w.disk o r d) :
    ∃ w', w'.disk = d ∧ Move c o w w' ∧ (m.allowed w.ghost.total → m.allowed w'.ghost.total) ∧
      (m.strict → Gentle c o w w') ∧ Safe (setting c m) (k r) Q w' := by
  obtain ⟨w', hv, ⟨hmove, hallowed, hgentle⟩, hk⟩ := h w rfl r d hs
  exact ⟨w', hv, hmove, hallowed, hgentle, hk⟩

theorem Horizon.mono {seen : ℕ → ℕ} {n n' b : ℕ} (h : Horizon c w seen n b) (hn : n ≤ n') :
    Horizon c w seen n' b := by
  intro s hs
  refine (h s hs).trans (max_le_max le_rfl (Segment.length_image_le ?_))
  exact List.take_prefix_take_left (by omega)

/-- What a round has come to stays right while the log goes on. -/
theorem Subscription.Settled.later {fails : Op FileName → Prop} {total n : ℕ}
    {a : Except StorageError Subscription.Round × Subscription} {y z : Sight c}
    (h : Settled c fails total n a y) (hyz : (watching c fails).rely y z) :
    Settled c fails total n a z := by
  obtain ⟨hlater, hsweep⟩ := hyz
  match a with
  | (.ok (.returned e), s) =>
    obtain ⟨hn, hfollows, he⟩ := h
    exact ⟨hn, hfollows.later hlater, getElem?_of_prefix hlater.total he⟩
  | (.ok .again, s) => exact ⟨h.1, h.2.later hlater⟩
  | (.ok .wait, s) =>
    obtain ⟨hn, hfollows, hidle⟩ := h
    refine ⟨hn, hfollows.later hlater, hidle.imp_right fun ⟨hblind, hmarked⟩ => ?_⟩
    exact ⟨by rwa [hsweep], hlater.marked _ hmarked⟩
  | (.error err, s) =>
    obtain ⟨hn, hexcused⟩ := h
    refine ⟨hn, hexcused.imp ?_ (Or.imp_left ?_)⟩
    · rintro ⟨earliest, rfl, hgone⟩
      exact ⟨earliest, rfl, fun hlt => (hgone hlt).trans_le (hlater.evictedCount_le y.good)⟩
    · rintro ⟨dir, t, ht, hlarge⟩
      exact ⟨dir, t, hlater.closed.subset ht, hlarge⟩

def EndsOnError (x : Except StorageError Subscription.Round × Subscription) : Prop :=
  ∀ err, x.1 = .error err → x.2.closed = true

theorem says_round_ends (dir : String) (s : Subscription) :
    Says (Subscription.round c dir s) fun x _ => EndsOnError x := by
  refine Says.bind ((Says.any _).mono ?_)
  rintro ⟨r, s'⟩ tr - err herr
  cases r with
  | ok r => cases herr
  | error err => rfl

/-- What the subscription does next is right: it is at offset `n`, and the log was at
`armed` when its round began. -/
def Reader.Sound (c : Codec) (y : Sight c) (armed n : ℕ) : Reader → Prop
  | .absent => True
  | .resting s => s.closed = false → s.nextOffset = n ∧ Subscription.Follows c y.world s
  | .trying rest => rest.Uses Op.Reads ∧ (Says rest fun x _ => EndsOnError x) ∧
      Safe (watching c NoFail) rest (Subscription.Settled c NoFail armed n) y

theorem Reader.Sound.later {a : Reader} {y z : Sight c} {armed n : ℕ} (h : a.Sound c y armed n)
    (hyz : (watching c NoFail).rely y z) : a.Sound c z armed n := by
  cases a with
  | absent => trivial
  | resting s => exact fun hopen => (h hopen).imp_right (·.later hyz.1)
  | trying rest =>
    exact ⟨h.1, h.2.1, shared_watching.later (fun a y z hyz hQ => hQ.later hyz) h.2.2 hyz⟩

/-- The log has committed the entries `E` and has stored those of the world `w`; of
the newest file the subscription needs the first `b` bytes. -/
structure System.Sound (c : Codec) (x : System) (E : List LogEntry) (w : World) (b : ℕ) : Prop where
  good : Good c w
  disk : w.disk = x.disk
  stored : E <+: w.ghost.total
  writer : x.writer.Sound c E w
  opened : x.first ≤ E.length
  accepted : payloads (E.drop x.first) = x.accepted
  horizon : Horizon c w x.seen E.length b
  reader : x.reader.Sound c ⟨w.upTo c b, good.upTo b, x.sweep⟩ x.armed
    (x.start + x.delivered.length)
  delivered : ∀ i e, x.delivered[i]? = some e → (w.upTo c b).ghost.total[x.start + i]? = some e
  absent : x.reader = .absent → x.delivered = []

namespace System

variable {x y : System} {b : ℕ}

theorem Sound.moved (h : x.Sound c E w b) (hspare : x.Spares) {o : Op FileName}
    (ho : x.writer.pending = some o) {w' : World} (hmove : Move c o w w')
    (hgentle : Gentle c o w w') (hE : E <+: w'.ghost.total) :
    ∃ b', Later (w.upTo c b) (w'.upTo c b') ∧ Horizon c w' x.seen E.length b' :=
  h.good.horizon_move hmove hgentle h.horizon hE.length_le fun i len hlen =>
    hspare i len (hlen ▸ ho)

theorem Sound.commit (h : x.Sound c E w b) (hn : l.nextOffset = E.length) (notified : Bool)
    {rest : Prog (Resp (N := FileName)) (Except StorageError Unit × Log)} {w' : World} {b' : ℕ}
    (hgood : Good c w') (hstored : E <+: w'.ghost.total)
    (hlater : Later (w.upTo c b) (w'.upTo c b')) (hhorizon : Horizon c w' x.seen E.length b')
    (hsafe : Safe (setting c (following BatchFails E)) rest (Stored c E batch) w') :
    ∃ E', System.Sound c
      ({ x with disk := w'.disk, notified := notified }.commit l batch rest) E' w' b' := by
  obtain ⟨es, hmore, hpayloads, hsound⟩ := Writer.Sound.ofStoring hn hstored hsafe
  refine ⟨E ++ es, hgood, rfl, hmore, hsound, ?_, ?_, ?_, h.reader.later ⟨hlater, rfl⟩,
    fun i e he => getElem?_of_prefix hlater.total (h.delivered i e he), h.absent⟩
  · rw [List.length_append]
    exact h.opened.trans (Nat.le_add_right _ _)
  · have haccepted : payloads ((E ++ es).drop x.first) = x.accepted ++ committedBy batch rest := by
      rw [List.drop_append_of_le_length h.opened, payloads_append, h.accepted, hpayloads]
    exact haccepted
  · exact hhorizon.mono (by simp)

theorem Sound.append (h : x.Sound c E w b) (hx : x.writer = .idle l) {producerId : String}
    {events : List OtkEvent} (hcod : Decodes c events) :
    ∃ E', System.Sound c
      (x.commit l (events.map (producerId, ·)) (appendCommit c producerId events l)) E' w b := by
  have hwriter := h.writer
  rw [hx] at hwriter
  have hgo := h.commit hwriter.next x.notified h.good h.stored (.refl _) h.horizon
    (hwriter.append producerId hcod)
  rwa [h.disk] at hgo

theorem Sound.store (h : x.Sound c E w b) (hspare : x.Spares) {o : Op FileName}
    {k : Resp o → Prog (Resp (N := FileName)) (Except StorageError Unit × Log)} {r : Resp o}
    {d : Disk FileName} (hx : x.writer = .storing l batch (.step o k))
    (hs : Step BatchFails x.disk o r d) :
    ∃ E' w' b', System.Sound c
      ({ x with disk := d, notified := x.notified || notifies o }.commit l batch (k r))
      E' w' b' := by
  have hwriter := h.writer
  rw [hx] at hwriter
  obtain ⟨w', rfl, hmove, hallowed, hgentle, hk⟩ := move_of_safe hwriter.2 (h.disk ▸ hs)
  obtain ⟨b', hlater, hhorizon⟩ := h.moved hspare (by rw [hx]; rfl) hmove (hgentle trivial)
    (hallowed h.stored)
  obtain ⟨E', hsound⟩ :=
    h.commit hwriter.1 _ (h.good.move hmove) (hallowed h.stored) hlater hhorizon hk
  exact ⟨E', w', b', hsound⟩

theorem Sound.roll (h : x.Sound c E w b) (hspare : x.Spares) {o : Op FileName}
    {k : Resp o → Prog (Resp (N := FileName)) (Except StorageError ℕ × Log)} {r : Resp o}
    {d : Disk FileName} (hx : x.writer = .rolling l (.step o k)) (hs : Step NoFail x.disk o r d) :
    ∃ E' w' b', System.Sound c { x with
      disk := d
      writer := .ofRolling l (k r)
      notified := x.notified || notifies o } E' w' b' := by
  have hwriter := h.writer
  rw [hx] at hwriter
  obtain ⟨w', rfl, hmove, hallowed, hgentle, hk⟩ := move_of_safe hwriter.2 (h.disk ▸ hs)
  obtain ⟨b', hlater, hhorizon⟩ := h.moved hspare (by rw [hx]; rfl) hmove (hgentle trivial)
    (hallowed h.stored)
  exact ⟨E, w', b', h.good.move hmove, rfl, hallowed h.stored, .ofRolling hwriter.1 hk, h.opened,
    h.accepted, hhorizon, h.reader.later ⟨hlater, rfl⟩,
    fun i e he => getElem?_of_prefix hlater.total (h.delivered i e he), h.absent⟩

theorem Sound.arm (h : x.Sound c E w b) {s : Subscription} (hx : x.reader = .resting s)
    (hs : s.closed = false) (dir : String) :
    ∃ b', System.Sound c { x with
      reader := .trying (Subscription.round c dir s)
      armed := x.writer.log.nextOffset
      notified := false
      sweep := .start } E w b' := by
  have hreader := h.reader
  rw [hx] at hreader
  obtain ⟨hn, hfollows⟩ := hreader hs
  obtain ⟨b', hb, hhorizon, htotal⟩ := h.good.horizon_committed h.horizon h.stored.length_le
  have hlater := h.good.later_upTo_upTo hb
  have hround : Safe (watching c NoFail) (Subscription.round c dir s)
      (Subscription.Settled c NoFail E.length (x.start + x.delivered.length))
      ⟨w.upTo c b', h.good.upTo b', .start⟩ :=
    Subscription.safe_round dir hn (hfollows.later hlater) htotal rfl
  refine ⟨b', h.good, h.disk, h.stored, h.writer, h.opened, h.accepted, hhorizon, ?_,
    fun i e he => getElem?_of_prefix hlater.total (h.delivered i e he), fun hnone => by cases hnone⟩
  exact ⟨Subscription.reads_round dir s, says_round_ends dir s, h.writer.next ▸ hround⟩

theorem Sound.look (h : x.Sound c E w b) {o : Op FileName}
    {k : Resp o → Prog (Resp (N := FileName))
      (Except StorageError Subscription.Round × Subscription)}
    {r : Resp o} {d : Disk FileName} (hx : x.reader = .trying (.step o k))
    (hs : Step NoFail x.disk o r d) :
    ∃ b', System.Sound c { x with
      disk := d
      reader := .trying (k r)
      sweep := x.sweep.see o r
      seen := fun i => max (x.seen i) (shown x.disk i o r) } E w b' := by
  have hreader := h.reader
  rw [hx] at hreader
  obtain ⟨⟨ho, huses⟩, hends, hsafe⟩ := hreader
  have hstep : Step NoFail w.disk o r d := h.disk ▸ hs
  obtain ⟨b', hb, hhorizon, hsight⟩ := h.horizon.look hstep ho
  have hlater := h.good.later_upTo_upTo hb
  obtain ⟨z, -, ⟨hworld, hsweep⟩, hk⟩ :=
    hsafe ⟨w.upTo c b', h.good.upTo b', x.sweep⟩ ⟨hlater, rfl⟩ r _ hsight
  obtain ⟨zw, zgood, zsweep⟩ := z
  obtain rfl : zw = w.upTo c b' := hworld
  obtain rfl : zsweep = x.sweep.see o r := hsweep
  refine ⟨b', h.good, ?_, h.stored, h.writer, h.opened, h.accepted, ?_,
    ⟨huses r, hends r, hk⟩,
    fun i e he => getElem?_of_prefix hlater.total (h.delivered i e he), fun hnone => by cases hnone⟩
  · rw [h.disk, hs.reads_same ho]
  · rw [← h.disk]
    exact hhorizon

theorem Sound.finish (h : x.Sound c E w b) {r : Except StorageError Subscription.Round}
    {s : Subscription} (hx : x.reader = .trying (.pure (r, s))) :
    System.Sound c { x with reader := .resting s, delivered := x.delivered ++ delivery r }
      E w b := by
  have hreader := h.reader
  rw [hx] at hreader
  obtain ⟨-, hends, hsettled⟩ := hreader
  have hkept : delivery r = [] → s.closed = false → s.nextOffset = x.start + x.delivered.length ∧
      Subscription.Follows c (w.upTo c b) s := by
    intro hnone hopen
    match r with
    | .ok (.returned e) => cases hnone
    | .ok .again => exact hsettled
    | .ok .wait => exact ⟨hsettled.1, hsettled.2.1⟩
    | .error err => cases hopen.symm.trans (hends err rfl)
  refine ⟨h.good, h.disk, h.stored, h.writer, h.opened, h.accepted, h.horizon, ?_, ?_,
    fun hnone => by cases hnone⟩
  · intro hopen
    cases hr : delivery r with
    | nil =>
      rw [List.append_nil]
      exact hkept hr hopen
    | cons e rest =>
      match r with
      | .ok (.returned e') =>
        obtain ⟨hn, hfollows, -⟩ := hsettled
        obtain ⟨-, rfl⟩ := List.cons.inj hr
        exact ⟨by rw [hn, List.length_append]; rfl, hfollows⟩
  · intro i e he
    rcases Nat.lt_or_ge i x.delivered.length with hlt | hge
    · rw [List.getElem?_append_left hlt] at he
      exact h.delivered i e he
    · rw [List.getElem?_append_right hge] at he
      match r with
      | .ok (.returned e') =>
        obtain ⟨-, -, htotal⟩ := hsettled
        rcases Nat.eq_zero_or_pos (i - x.delivered.length) with hzero | hpos
        · rw [hzero] at he
          obtain rfl := Option.some.inj he
          rwa [show i = x.delivered.length by omega]
        · have hnone : (delivery (.ok (.returned e')))[i - x.delivered.length]? = none :=
            List.getElem?_eq_none hpos
          cases hnone.symm.trans he

theorem Sound.subscribe (h : x.Sound c E w b) (hx : x.reader = .absent) {l : Log} {start : ℕ}
    {s : Subscription} (hs : l.subscribe start = .ok s) :
    System.Sound c { x with reader := .resting s, start := start } E w b := by
  have hnone := h.absent hx
  have hnew : s = .new start := by
    rw [Log.subscribe] at hs
    split_ifs at hs <;> exact (Except.ok.inj hs).symm
  refine ⟨h.good, h.disk, h.stored, h.writer, h.opened, h.accepted, h.horizon, fun _ => ?_, ?_,
    fun habsent => by cases habsent⟩
  · subst hnew
    refine ⟨?_, ?_⟩
    · rw [hnone]
      rfl
    · rintro opened ⟨⟩
  · intro i e he
    rw [hnone] at he
    cases he

theorem Sound.next (h : x.Sound c E w b) (hspare : x.Spares) (hx : Next c x y) :
    ∃ E' w' b', y.Sound c E' w' b' := by
  cases hx with
  | append hidle hcod =>
    obtain ⟨E', hsound⟩ := h.append hidle hcod
    exact ⟨E', w, b, hsound⟩
  | store hstoring hs => exact h.store hspare hstoring hs
  | roll hrolling hs => exact h.roll hspare hrolling hs
  | subscribe hidle habsent hsub =>
    exact ⟨E, w, b, h.subscribe habsent hsub⟩
  | arm hresting hopen => exact ⟨E, w, h.arm hresting hopen _⟩
  | look htrying hs => exact ⟨E, w, h.look htrying hs⟩
  | finish htrying => exact ⟨E, w, b, h.finish htrying⟩

theorem Run.sound {P : System → Prop} (hP : ∀ x, P x → x.Spares) (h : Run c P x) :
    ∃ E w b, x.Sound c E w b := by
  induction h with
  | @opened t d₀ d config l hlife hopen =>
    obtain ⟨w₀, rfl, hgood, -, -⟩ := hlife.world
    have hsafe : Safe (setting c calm) (openDir c config)
        (fun r w => ∀ l, r = .ok l → l.poisoned = false ∧ ∀ m, Rep c m l w) w₀ := by
      refine hgood.openDir_any calm_calm trivial config (fun _ l w hrep _ hp _ _ _ l' hl => ?_)
        fun _ msg l' hl => by cases hl
      obtain rfl := Except.ok.inj hl
      exact ⟨hp, hrep⟩
    obtain ⟨w, rfl, hl⟩ := finishes_calm hopen rfl hsafe
    obtain ⟨hp, hrep⟩ := hl l rfl
    have hwriter : Writer.Sound c w.ghost.total w (.idle l) := ⟨hrep _, hp, rfl⟩
    have hnext : l.nextOffset = w.ghost.total.length := hwriter.next
    have haccepted : payloads (w.ghost.total.drop l.nextOffset) = [] := by
      rw [List.drop_eq_nil_of_le hnext.ge]
      rfl
    exact ⟨w.ghost.total, w, 0, (hrep calm).good, rfl, List.prefix_refl _, hwriter, hnext.le,
      haccepted, fun s _ => Nat.zero_le _, trivial, fun i e he => (by cases he), fun _ => rfl⟩
  | next _ hp hx ih =>
    obtain ⟨E, w, b, h⟩ := ih
    exact h.next (hP _ hp) hx

end System

instance decidableBatchFails : DecidablePred BatchFails
  | .write _ pos _ => inferInstanceAs (Decidable (headerLen ≤ pos))
  | .sync _ => isTrue trivial
  | .now | .notify | .makeDir | .readDir | .dirEntry _ | .stat _ | .openRead _ | .openWrite _ _
  | .fileLen _ | .seek _ | .read _ _ _ | .readAll _ | .setLen _ _ | .syncDir | .rename _ _
  | .unlink _ => isFalse id

/-- Who acts next; an operation of the log may be made to fail. -/
inductive Turn
  | append (producerId : String) (events : List OtkEvent)
  | log (fails : Bool)
  | subscribe (start : ℕ)
  | arm
  | look
  | finish

def Turn.events : Turn → List OtkEvent
  | .append _ events => events
  | _ => []

def respond (clock : ℕ) (fails : Op FileName → Prop) [DecidablePred fails] (d : Disk FileName)
    (o : Op FileName) (failing : Bool) : Option (Resp o × Disk FileName) :=
  if failing then if fails o then (failure o).map (·, d) else none else answer clock d o

theorem step_of_respond {clock : ℕ} {fails : Op FileName → Prop} [DecidablePred fails]
    {d d' : Disk FileName} {o : Op FileName} {failing : Bool} {r : Resp o}
    (h : respond clock fails d o failing = some (r, d')) : Step fails d o r d' := by
  unfold respond at h
  split_ifs at h with hfailing hfails
  · obtain ⟨r', hr, hpair⟩ := Option.map_eq_some_iff.mp h
    obtain ⟨rfl, rfl⟩ := Prod.mk.inj hpair
    exact step_of_failure d hfails hr
  · exact step_of_answer h

instance decidableNoFail : DecidablePred NoFail := fun _ => isFalse id

namespace System

variable {x y : System}

def take (c : Codec) (clock : ℕ) (x : System) : Turn → Option System
  | .append producerId events =>
    match x.writer with
    | .idle l =>
      some (x.commit l (events.map (producerId, ·)) (appendCommit c producerId events l))
    | _ => none
  | .log failing =>
    match x.writer with
    | .storing l batch (.step o k) =>
      (respond clock BatchFails x.disk o failing).map fun (r, d) =>
        { x with disk := d, notified := x.notified || notifies o }.commit l batch (k r)
    | .rolling l (.step o k) =>
      (respond clock NoFail x.disk o failing).map fun (r, d) =>
        { x with
          disk := d
          writer := .ofRolling l (k r)
          notified := x.notified || notifies o }
    | _ => none
  | .subscribe start =>
    match x.writer, x.reader with
    | .idle l, .absent =>
      match l.subscribe start with
      | .ok s => some { x with reader := .resting s, start := start }
      | .error _ => none
    | _, _ => none
  | .arm =>
    match x.reader with
    | .resting s =>
      if s.closed = false then
        some { x with
          reader := .trying (Subscription.round c x.writer.log.config.dir s)
          armed := x.writer.log.nextOffset
          notified := false
          sweep := .start }
      else none
    | _ => none
  | .look =>
    match x.reader with
    | .trying (.step o k) =>
      (respond clock NoFail x.disk o false).map fun (r, d) =>
        { x with
          disk := d
          reader := .trying (k r)
          sweep := x.sweep.see o r
          seen := fun i => max (x.seen i) (shown x.disk i o r) }
    | _ => none
  | .finish =>
    match x.reader with
    | .trying (.pure (r, s)) =>
      some { x with reader := .resting s, delivered := x.delivered ++ delivery r }
    | _ => none

theorem next_of_take {clock : ℕ} {t : Turn} (h : x.take c clock t = some y)
    (hcod : Decodes c t.events) : Next c x y := by
  cases t with
  | append producerId events =>
    dsimp only [take] at h
    split at h
    · obtain rfl := Option.some.inj h
      exact .append ‹_› hcod
    · cases h
  | log failing =>
    dsimp only [take] at h
    split at h
    · obtain ⟨⟨r, d⟩, hr, rfl⟩ := Option.map_eq_some_iff.mp h
      exact .store ‹_› (step_of_respond hr)
    · obtain ⟨⟨r, d⟩, hr, rfl⟩ := Option.map_eq_some_iff.mp h
      exact .roll ‹_› (step_of_respond hr)
    · cases h
  | subscribe start =>
    dsimp only [take] at h
    split at h
    · split at h
      · obtain rfl := Option.some.inj h
        exact .subscribe ‹_› ‹_› ‹_›
      · cases h
    · cases h
  | arm =>
    dsimp only [take] at h
    split at h
    · split_ifs at h with hopen
      obtain rfl := Option.some.inj h
      exact .arm ‹_› hopen
    · cases h
  | look =>
    dsimp only [take] at h
    split at h
    · obtain ⟨⟨r, d⟩, hr, rfl⟩ := Option.map_eq_some_iff.mp h
      exact .look ‹_› (step_of_respond hr)
    · cases h
  | finish =>
    dsimp only [take] at h
    split at h
    · obtain rfl := Option.some.inj h
      exact .finish ‹_›
    · cases h

/-- Take turns while the states satisfy `P`. -/
def drive (c : Codec) (clock : ℕ) (P : System → Prop) [DecidablePred P] :
    List Turn → System → Option System
  | [], x => some x
  | t :: turns, x => if P x then (x.take c clock t).bind (drive c clock P turns) else none

theorem Run.drive {P : System → Prop} [DecidablePred P] {clock : ℕ} {turns : List Turn}
    (hx : Run c P x) (hcod : ∀ t ∈ turns, Decodes c t.events)
    (h : System.drive c clock P turns x = some y) : Run c P y := by
  induction turns generalizing x with
  | nil =>
    obtain rfl := Option.some.inj h
    exact hx
  | cons t turns ih =>
    rw [System.drive] at h
    split_ifs at h with hp
    obtain ⟨z, hz, h⟩ := Option.bind_eq_some_iff.mp h
    have hnext := next_of_take hz (hcod t List.mem_cons_self)
    exact ih (hx.next hp hnext) (fun t ht => hcod t (List.mem_cons_of_mem _ ht)) h

/-- The file that an operation cuts off, and where. -/
def cutting : Op FileName → Option (ℕ × ℕ)
  | .setLen i len => some (i, len)
  | _ => none

theorem spares_iff : x.Spares ↔
    (x.writer.pending.bind cutting).all (fun cut => x.seen cut.1 ≤ cut.2) = true := by
  unfold Spares
  cases x.writer.pending with
  | none => simp
  | some o => cases o <;> simp [cutting]

instance decidableSpares : DecidablePred Spares := fun _ => decidable_of_iff _ spares_iff.symm

/-- A log that has just been opened in an empty directory. -/
def fresh (config : SegmentLogConfig) : System := .opened .empty ⟨config, [], none, 0, false⟩

theorem run_of_drive {P : System → Prop} [DecidablePred P] {clock : ℕ} {turns : List Turn}
    {config : SegmentLogConfig}
    (hsample : turns.all (fun t => t.events.all (· = sampleHealth)) = true)
    (h : System.drive sampleCodec clock P turns (fresh config) = some y) :
    Run sampleCodec P y := by
  refine Run.drive (.opened .empty (finishes_openDir_empty config)) (fun t ht event hevent => ?_) h
  have hall := List.all_eq_true.mp (List.all_eq_true.mp hsample t ht) event hevent
  rw [of_decide_eq_true hall]
  exact decodes_sample _ List.mem_cons_self

end System

end OtkCore.SegmentLog
