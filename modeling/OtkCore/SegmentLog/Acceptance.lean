import OtkCore.SegmentLog.Completion
import OtkCore.Lib.Outcome

/-!
# What an append accepts

On a file system that does not fail, an append is decided by its arguments and
the next offset alone, whatever lies in the directory: it succeeds exactly when
every event fits into a record, the producer id does, and offsets are left.
-/
namespace OtkCore.SegmentLog

open Effect FileIO Bytes

variable {c : Codec} {d : Disk FileName}

/-- A procedure on the active segment's file, on a disk of its own. -/
theorem bare_onActive {α : Type} {fails : Op FileName → Prop} {t : Io File α} {l : Log}
    {a : ActiveSegment} {Q : Except StorageError α × Log → Disk FileName → Prop}
    (ha : l.active = some a)
    (h : Safe (bare fails) (t a.file) (fun x d' => Q (x.1, l.setFile x.2) d') d) :
    Safe (bare fails) (onActive t l) Q d := by
  unfold onActive
  rw [ha]
  refine Safe.bind (h.mono ?_)
  rintro ⟨r, f⟩ d' hx
  simpa [Safe, Log.setFile, ha] using hx

/-- The outcome of a call that succeeds exactly under `accepted`. -/
def Decides {ε α : Type} (accepted : Prop) (P : α → Prop) (r : Except ε α) : Prop :=
  (∃ a, r = .ok a ∧ P a ∧ accepted) ∨ ∃ e, r = .error e ∧ ¬ accepted

theorem calm_writeAll {bytes : List UInt8} {f : File}
    {Q : Except IoErrorKind Unit × File → Disk FileName → Prop}
    (hok : ∀ d', d'.dir = d.dir → Q (.ok (), ⟨f.ino, f.pos + bytes.length⟩) d') :
    Safe (bare NoFail) (File.writeAll FileName bytes f) Q d := by
  have hdir : ∀ j, (written d f.ino f.pos bytes j).dir = d.dir := by
    intro j
    cases j <;> rfl
  exact safe_writeAll (fun _ => hok _ (hdir _)) fun j k ⟨_, hf⟩ => hf.elim

theorem calm_seek {pos : ℕ} {f : File} {Q : Except IoErrorKind Unit × File → Disk FileName → Prop}
    (hok : Q (.ok (), ⟨f.ino, pos⟩) d) : Safe (bare NoFail) (File.seek FileName pos f) Q d :=
  quiet_bare.seek hok fun hf => hf.elim

theorem calm_sync {f : File} {Q : Except IoErrorKind Unit × File → Disk FileName → Prop}
    (hok : Q (.ok (), f) d) : Safe (bare NoFail) (File.sync FileName f) Q d :=
  quiet_bare.sync hok fun hf => hf.elim

theorem calm_streamPosition {f : File} {Q : Except IoErrorKind ℕ × File → Disk FileName → Prop}
    (hok : Q (.ok f.pos, f) d) : Safe (bare NoFail) (File.streamPosition FileName f) Q d := by
  refine safe_bare fun r d' hs => ?_
  obtain ⟨rfl, rfl | ⟨hf, -⟩⟩ := hs
  · exact hok
  · exact hf.elim

theorem calm_setLen {n : ℕ} {f : File} {Q : Except IoErrorKind Unit × File → Disk FileName → Prop}
    (hok : ∀ d', Q (.ok (), f) d') : Safe (bare NoFail) (File.setLen FileName n f) Q d := by
  refine safe_bare fun r d' hs => ?_
  obtain ⟨rfl, rfl⟩ | ⟨hf, -⟩ := hs
  · exact hok _
  · exact hf.elim

theorem calm_writeRecord (e : LogEntry) (f : File) :
    Safe (bare NoFail) (writeRecord c e f)
      (fun x _ => Decides (¬ Unfit c e.producerId [e.event])
        (fun _ => x.2 = ⟨f.ino, f.pos + (recordBytes c e).length⟩) x.1) d := by
  unfold writeRecord
  split_ifs with h₁ h₂ h₃
  · exact Or.inr ⟨_, rfl, not_not.mpr (Or.inr (Or.inr ⟨_, List.mem_singleton_self _, h₁⟩))⟩
  · exact Or.inr ⟨_, rfl, not_not.mpr (Or.inl ((producerIdBytes_eq_nil _).mp h₂))⟩
  · exact Or.inr ⟨_, rfl, not_not.mpr (Or.inr (Or.inl h₃))⟩
  · refine Safe.bindP (Safe.mapError (calm_streamPosition ?_))
    refine Safe.bindP (Safe.attempt (calm_writeAll fun d' _ => ?_))
    refine Or.inl ⟨f.pos, rfl, rfl, ?_⟩
    rintro (hnil | hlong | ⟨event, hmem, hbig⟩)
    · exact h₂ ((producerIdBytes_eq_nil _).mpr hnil)
    · exact h₃ hlong
    · obtain rfl := List.mem_singleton.mp hmem
      exact h₁ hbig

/-- The records of these events fit, and so do their offsets. -/
def BatchFits (c : Codec) (producerId : String) (offset : ℕ) (events : List OtkEvent) : Prop :=
  ∀ i event, events[i]? = some event →
    ¬ Unfit c producerId [event] ∧ offset + i < 2 ^ 64 - 1

theorem batchFits_cons {producerId : String} {offset : ℕ} {event : OtkEvent}
    {rest : List OtkEvent} :
    BatchFits c producerId offset (event :: rest) ↔
      (¬ Unfit c producerId [event] ∧ offset < 2 ^ 64 - 1) ∧
        BatchFits c producerId (offset + 1) rest := by
  constructor
  · intro h
    refine ⟨h 0 event rfl, fun i x hx => ?_⟩
    have hnext := h (i + 1) x hx
    rwa [show offset + (i + 1) = offset + 1 + i by omega] at hnext
  · rintro ⟨hhead, hrest⟩ i x hx
    cases i with
    | zero =>
      obtain rfl := Option.some.inj hx
      exact hhead
    | succ i =>
      have hnext := hrest i x hx
      rwa [show offset + 1 + i = offset + (i + 1) by omega] at hnext

theorem calm_writeBatch (ts : ℕ) (producerId : String) (batchStart offset : ℕ)
    (hoffset : offset < 2 ^ 64) (events : List OtkEvent) (f : File) :
    Safe (bare NoFail) (writeBatch c ts producerId batchStart offset events f)
      (fun x _ => Decides (BatchFits c producerId offset events)
        (fun positions => positions.length = events.length ∧
          x.2 = ⟨f.ino, f.pos + eventsLen c producerId events⟩) x.1) d := by
  induction events generalizing offset f d with
  | nil => exact Or.inl ⟨[], rfl, ⟨rfl, rfl⟩, by simp [BatchFits]⟩
  | cons event rest ih =>
    rw [writeBatch]
    split_ifs with hend
    · refine Safe.bindP (Safe.attempt (calm_setLen fun d' => Or.inr ⟨_, rfl, ?_⟩))
      rw [batchFits_cons]
      omega
    · refine Safe.bindP (Safe.attempt ((calm_writeRecord _ f).mono ?_))
      rintro ⟨r, g⟩ d' (⟨pos, hr, hg, hfit⟩ | ⟨e, hr, hunfit⟩)
      · obtain rfl : r = .ok pos := hr
        obtain rfl : g = _ := hg
        refine Safe.bindP ((ih (offset + 1) (by omega) _).mono ?_)
        rintro ⟨r, g'⟩ d'' (⟨positions, hr, ⟨hlen, hg'⟩, hrest⟩ | ⟨e, hr, hrest⟩)
        · obtain rfl : r = .ok positions := hr
          obtain rfl : g' = _ := hg'
          refine Or.inl ⟨pos :: positions, rfl, ⟨by simp [hlen], ?_⟩, ?_⟩
          · simp only [eventsLen, List.map_cons, List.sum_cons, length_recordBytes, payloadLen,
              File.mk.injEq, true_and]
            omega
          · exact batchFits_cons.mpr ⟨⟨hfit, by omega⟩, hrest⟩
        · obtain rfl : r = .error e := hr
          exact Or.inr ⟨e, rfl, fun h => hrest (batchFits_cons.mp h).2⟩
      · obtain rfl : r = .error e := hr
        refine Safe.bindP (Safe.attempt (calm_setLen fun d'' => Or.inr ⟨e, rfl, fun h => ?_⟩))
        exact hunfit (batchFits_cons.mp h).1.1

/-- A batch that an append accepts at this offset. -/
def Accepts (c : Codec) (producerId : String) (offset : ℕ) (events : List OtkEvent) : Prop :=
  events ≠ [] ∧ ¬ Unfit c producerId events ∧ offset + events.length < 2 ^ 64

theorem accepts_iff {producerId : String} {offset : ℕ} {events : List OtkEvent}
    (hevents : events ≠ []) :
    Accepts c producerId offset events ↔ BatchFits c producerId offset events := by
  have hpos := List.length_pos_of_ne_nil hevents
  constructor
  · rintro ⟨-, hfit, hroom⟩ i event hi
    have hmem := List.mem_of_getElem? hi
    have hlt := (List.getElem?_eq_some_iff.mp hi).1
    exact ⟨fun hunfit => hfit (hunfit.mono (by simpa using hmem)), by omega⟩
  · intro h
    obtain ⟨hfirst, -⟩ := h 0 (events[0]) (List.getElem?_eq_getElem hpos)
    have hlast := (h (events.length - 1) (events[events.length - 1])
      (List.getElem?_eq_getElem (by omega))).2
    refine ⟨hevents, ?_, by omega⟩
    rintro (hnil | hlong | ⟨event, hmem, hbig⟩)
    · exact hfirst (Or.inl hnil)
    · exact hfirst (Or.inr (Or.inl hlong))
    · obtain ⟨i, hi, rfl⟩ := List.getElem_of_mem hmem
      exact (h i _ (List.getElem?_eq_getElem hi)).1
        (Or.inr (Or.inr ⟨_, List.mem_singleton_self _, hbig⟩))

/-- The active file ends at most at `n` and holds at most `k` records. -/
def Within (n k : ℕ) (l : Log) : Prop :=
  ∀ a, l.active = some a → a.nextFilePos ≤ n ∧ a.positions.length ≤ k

theorem Within.setFile {n k : ℕ} {l : Log} (h : Within n k l) (f : File) :
    Within n k (l.setFile f) := by
  intro a ha
  obtain ⟨b, hb, rfl⟩ := Option.map_eq_some_iff.mp ha
  exact h b hb

theorem Within.mono {n n' k k' : ℕ} {l : Log} (h : Within n k l) (hn : n ≤ n') (hk : k ≤ k') :
    Within n' k' l :=
  fun a ha => ⟨(h a ha).1.trans hn, (h a ha).2.trans hk⟩

theorem Within.roomy {n k : ℕ} {l : Log} (h : Within n k l) {producerId : String}
    {events : List OtkEvent} (hn : headerLen ≤ n)
    (hrecords : n + eventsLen c producerId events + 4 ≤ maxFileLen)
    (hindex : 8 * (k + events.length) ≤ maxFileLen) : Roomy c producerId events l := by
  cases ha : l.active with
  | none =>
    refine ⟨?_, ?_⟩
    · simp only [ha, Option.map_none, Option.getD_none]
      omega
    · simp only [ha, Option.map_none, Option.getD_none]
      omega
  | some a =>
    obtain ⟨hpos, hlen⟩ := h a ha
    refine ⟨?_, ?_⟩
    · simp only [ha, Option.map_some, Option.getD_some]
      omega
    · simp only [ha, Option.map_some, Option.getD_some]
      omega

theorem calm_ensureActive {l : Log} {Q : Except StorageError Unit × Log → Disk FileName → Prop}
    (hok : ∀ a l' d', l'.active = some a → l'.nextOffset = l.nextOffset →
      l'.poisoned = l.poisoned → (∀ n k, headerLen ≤ n → Within n k l → Within n k l') →
      Q (.ok (), l') d') :
    Safe (bare NoFail) (ensureActive l) Q d := by
  refine Safe.getP ?_
  cases ha : l.active with
  | some a => exact hok a l d ha rfl rfl fun _ _ _ h => h
  | none =>
    refine Safe.bindP (Safe.lift (safe_bare fun ts d' _ => ?_))
    refine Safe.bindP (Safe.mapError (Safe.liftE (safe_bare fun r d'' hs => ?_)))
    cases r with
    | error k =>
      rcases hs with hs | ⟨hf, -⟩
      · cases hfind : d'.find (.seg l.nextOffset) with
        | some i => simp [hfind] at hs
        | none => simp [hfind] at hs
      · exact hf.elim
    | ok ino =>
      refine Safe.bindP (Safe.on (Safe.mapError (calm_writeAll fun d₃ _ => ?_)))
      refine Safe.bindP (Safe.lift (safe_bare fun _ d₄ _ => ?_))
      refine hok _ _ _ rfl rfl rfl fun n k hn _ a ha => ?_
      obtain rfl := Option.some.inj ha
      exact ⟨hn, Nat.zero_le _⟩

theorem calm_syncBatch (flush batchStart : ℕ) {f : File}
    {Q : Except StorageError Unit × File → Disk FileName → Prop} (hok : Q (.ok (), f) d) :
    Safe (bare NoFail) (syncBatch flush batchStart f) Q d := by
  unfold syncBatch
  split_ifs
  · exact Safe.bindP (Safe.attempt (calm_sync hok))
  · exact hok

/-- The outcome of an append from `l`. -/
structure Settles (c : Codec) (producerId : String) (events : List OtkEvent) (l : Log) {α : Type}
    (P : α → Prop) (x : Except StorageError α × Log) : Prop where
  clean : x.2.poisoned = false
  decides : Decides (Accepts c producerId l.nextOffset events)
    (fun a => P a ∧ x.2.nextOffset = l.nextOffset + events.length) x.1
  kept : ∀ e, x.1 = .error e → x.2.nextOffset = l.nextOffset
  room : ∀ n k, headerLen ≤ n → Within n k l →
    Within (n + eventsLen c producerId events) (k + events.length) x.2

theorem calm_appendCommit {l : Log} (hclean : l.poisoned = false) (hnext : l.nextOffset < 2 ^ 64)
    (producerId : String) (events : List OtkEvent) :
    Safe (bare NoFail) (appendCommit c producerId events l)
      (fun x _ => Settles c producerId events l (fun _ => True) x) d := by
  have hrefuse : ∀ (e : StorageError) (l' : Log), l'.poisoned = false →
      l'.nextOffset = l.nextOffset → (∀ n k, headerLen ≤ n → Within n k l → Within n k l') →
      ¬ Accepts c producerId l.nextOffset events →
      Settles c producerId events l (fun _ : Unit => True) (.error e, l') :=
    fun e l' hp hn hroom hnot => ⟨hp, Or.inr ⟨e, rfl, hnot⟩, fun _ _ => hn,
      fun n k hle h => (hroom n k hle h).mono (Nat.le_add_right _ _) (Nat.le_add_right _ _)⟩
  refine Safe.getP ?_
  rw [if_neg (by simp [hclean])]
  split_ifs with hevents hname
  · exact hrefuse _ _ hclean rfl (fun _ _ _ h => h) fun h => h.1 hevents
  · exact hrefuse _ _ hclean rfl (fun _ _ _ h => h) fun h => h.2.1 (Or.inl hname)
  refine Safe.bindP (calm_ensureActive fun a l₁ d₁ ha hnext₁ hclean₁ hroom₁ => ?_)
  refine Safe.bindP (Safe.lift (safe_bare fun ts d₂ _ => Safe.getP ?_))
  refine Safe.bindP (bare_onActive ha (Safe.mapError (calm_seek ?_)))
  have ha₂ := Log.setFile_active (f := ⟨a.file.ino,
    (l₁.active.map ActiveSegment.nextFilePos).getD 0⟩) ha
  refine Safe.bindP (bare_onActive ha₂
    ((calm_writeBatch ts producerId _ _ (by omega) events _).mono ?_))
  rintro ⟨r, f⟩ d₃ hbatch
  rw [hnext₁, Decides.eq_def, ← accepts_iff hevents] at hbatch
  rcases hbatch with ⟨positions, hr, ⟨hlen, hf⟩, hacc⟩ | ⟨e, hr, hnot⟩
  · obtain rfl : r = .ok positions := hr
    obtain rfl : f = _ := hf
    have ha₃ := Log.setFile_active (f := ⟨a.file.ino, (l₁.active.map ActiveSegment.nextFilePos).getD 0 +
      eventsLen c producerId events⟩) ha₂
    refine Safe.bindP (bare_onActive ha₃ (calm_syncBatch _ _ ?_))
    have ha₄ := Log.setFile_active (f := ⟨a.file.ino, (l₁.active.map ActiveSegment.nextFilePos).getD 0 +
      eventsLen c producerId events⟩) ha₃
    refine Safe.bindP (bare_onActive ha₄ (Safe.attempt (Safe.bindP (Safe.attempt
      (calm_streamPosition ?_)))))
    refine Safe.modifyP (Safe.lift (safe_bare fun _ d₄ _ => ?_))
    refine ⟨hclean₁.trans hclean, Or.inl ⟨(), rfl, ⟨trivial, ?_⟩, hacc⟩, fun e he => (by cases he),
      fun n k hle h b hb => ?_⟩
    · exact congrArg (· + events.length) hnext₁
    · obtain ⟨hpos, hcount⟩ := hroom₁ n k hle h a ha
      simp only [Log.setFile_setFile, Log.setFile_active ha, Option.map_some,
        Option.some.injEq] at hb
      subst hb
      simp only [ha, Option.map_some, Option.getD_some, List.length_append]
      omega
  · obtain rfl : r = .error e := hr
    exact hrefuse _ _ (hclean₁.trans hclean) hnext₁
      (fun n k hle h => ((hroom₁ n k hle h).setFile _).setFile _) hnot

theorem calm_replace {σ : Type} {src dst : FileName} {bytes : List UInt8} {s : σ}
    {Q : Except StorageError Unit × σ → Disk FileName → Prop} (hok : ∀ d', Q (.ok (), s) d') :
    Safe (bare NoFail) ((do
      let ino ← call (Prog.op (Op.openWrite src true))
      let (_, f) ← (onFile (File.writeAll _ bytes)).on ⟨ino, 0⟩
      let _ ← (onFile (File.sync _)).on f
      call (Prog.op (Op.rename src dst))
      let _ ← Proc.lift (Prog.op Op.syncDir)
      : Io σ Unit) s) Q d := by
  refine Safe.bindP (Safe.mapError (Safe.liftE (safe_bare fun r d₁ hs => ?_)))
  have hfound : ∃ ino i, r = .ok ino ∧ d₁.find src = some i := by
    rcases hs with hs | ⟨hf, -⟩
    · cases hfind : d.find src with
      | some i =>
        rw [hfind] at hs
        exact ⟨i, i, hs.1, by rw [hs.2]; simpa using hfind⟩
      | none =>
        rw [hfind] at hs
        exact ⟨d.next, d.next, hs.1, by rw [hs.2]; simp⟩
    · exact hf.elim
  obtain ⟨ino, i, rfl, hlinked⟩ := hfound
  refine Safe.bindP (Safe.on (Safe.mapError (calm_writeAll fun d₂ hdir => ?_)))
  refine Safe.bindP (Safe.on (Safe.mapError (calm_sync ?_)))
  refine Safe.bindP (Safe.mapError (Safe.liftE (safe_bare fun r d₃ hs => ?_)))
  have hkept : d₂.find src = some i := by rw [Disk.find, hdir, ← Disk.find, hlinked]
  rcases hs with hs | ⟨hf, -⟩
  · rw [hkept] at hs
    obtain rfl : r = .ok () := hs.1
    exact Safe.bindP (Safe.lift (safe_bare fun _ d₄ _ => hok d₄))
  · exact hf.elim

theorem calm_evictFront (front : ClosedSegment) {l : Log}
    {Q : Except StorageError Unit × Log → Disk FileName → Prop}
    (hok : ∀ d', Q (.ok (), { l with closed := l.closed.tail }) d') :
    Safe (bare NoFail) (evictFront front l) Q d := by
  refine Safe.bindP (Safe.bindP (Safe.lift (safe_bare fun r d₁ hs => ?_)))
  have hrest : Safe (bare NoFail) ((do
      let _ ← Proc.lift (Prog.op (Op.unlink (.idx front.baseOffset)))
      let _ ← Proc.lift (Prog.op Op.syncDir) : Io Log Unit) l) (fun x d' => match x with
        | (.ok a, s') => Safe (bare NoFail)
            ((Proc.modify fun s => { s with closed := s.closed.tail } : Io Log Unit) s') Q d'
        | (.error e, s') => Q (.error e, s') d') d₁ :=
    Safe.bindP (Safe.lift (safe_bare fun _ d₂ _ => Safe.bindP (Safe.lift (safe_bare
      fun _ d₃ _ => hok d₃))))
  rcases hs with hs | ⟨hf, -⟩
  · cases hfind : d.find front.path with
    | some i =>
      rw [hfind] at hs
      obtain rfl : r = .ok () := hs.1
      exact hrest
    | none =>
      rw [hfind] at hs
      obtain rfl : r = .error .notFound := hs.1
      exact hrest
  · exact hf.elim

/-- Retention succeeds and leaves the offsets alone. -/
def CameThrough (l : Log) {α : Type} (x : Except StorageError α × Log) : Prop :=
  (∃ a, x.1 = .ok a) ∧ x.2.nextOffset = l.nextOffset ∧ x.2.poisoned = l.poisoned ∧
    ∀ n k, Within n k l → Within n k x.2

theorem calm_evictOlder (cutoff : ℕ) (segs : List ClosedSegment) (l : Log) :
    Safe (bare NoFail) (evictOlder cutoff segs l) (fun x _ => CameThrough l x) d := by
  induction segs generalizing l d with
  | nil => exact ⟨⟨(), rfl⟩, rfl, rfl, fun _ _ h => h⟩
  | cons front rest ih =>
    rw [evictOlder]
    split_ifs
    · exact Safe.bindP (calm_evictFront front fun d' => ih _)
    · exact ⟨⟨(), rfl⟩, rfl, rfl, fun _ _ h => h⟩

theorem calm_evictLarger (maxBytes total : ℕ) (segs : List ClosedSegment) (l : Log) :
    Safe (bare NoFail) (evictLarger maxBytes total segs l) (fun x _ => CameThrough l x) d := by
  induction segs generalizing total l d with
  | nil => exact ⟨⟨(), rfl⟩, rfl, rfl, fun _ _ h => h⟩
  | cons front rest ih =>
    rw [evictLarger]
    split_ifs
    · exact Safe.bindP (calm_evictFront front fun d' => ih _ _)
    · exact ⟨⟨(), rfl⟩, rfl, rfl, fun _ _ h => h⟩

theorem calm_enforceRetention (l : Log) :
    Safe (bare NoFail) (enforceRetention l) (fun x _ => CameThrough l x) d := by
  have hage : ∀ n l (d : Disk FileName), Safe (bare NoFail) (retainByAge n l)
      (fun x _ => CameThrough l x) d := fun n l d =>
    Safe.bindP (Safe.lift (safe_bare fun now d' _ => Safe.getP (calm_evictOlder _ _ _)))
  have hsize : ∀ n l (d : Disk FileName), Safe (bare NoFail) (retainBySize n l)
      (fun x _ => CameThrough l x) d := fun n l d =>
    Safe.getP (calm_evictLarger _ _ _ _)
  refine Safe.getP ?_
  cases l.config.retention with
  | indefinite => exact ⟨⟨(), rfl⟩, rfl, rfl, fun _ _ h => h⟩
  | timeBased n => exact hage n l d
  | sizeBased n => exact hsize n l d
  | hybrid n k =>
    refine Safe.bindP ((hage n l d).mono ?_)
    rintro ⟨r, l'⟩ d' ⟨⟨a, hr⟩, hnext, hpoisoned, hroom⟩
    obtain rfl : r = .ok a := hr
    refine (hsize k l' d').mono ?_
    rintro x d'' ⟨hok, hnext', hpoisoned', hroom'⟩
    exact ⟨hok, hnext'.trans hnext, hpoisoned'.trans hpoisoned,
      fun n k h => hroom' n k (hroom n k h)⟩

theorem calm_closeActive {l : Log} {a : ActiveSegment} (ha : l.active = some a) :
    Safe (bare NoFail) (closeActive a l) (fun x _ => CameThrough l x) d := by
  refine Safe.bindP (bare_onActive ha (Safe.bindP (Safe.mapError (calm_sync (Safe.bindP
    (Safe.mapError (calm_writeAll fun d' _ => Safe.bindP (Safe.attempt (calm_sync ?_)))))))))
  refine Safe.bindP (Safe.attempt (calm_replace fun d₂ => ?_))
  refine Safe.bindP (bare_onActive (Log.setFile_active ha) (Safe.attempt (quiet_bare.len ?_
    fun hf => hf.elim)))
  refine Safe.modifyP (Safe.getP (Safe.bindP (calm_replace fun d₃ => ?_)))
  refine (calm_enforceRetention _).mono fun x d₄ ⟨hok, hnext, hpoisoned, hroom⟩ => ?_
  exact ⟨hok, hnext, hpoisoned, fun n k _ => hroom n k fun b hb => by cases hb⟩

theorem calm_shouldRoll (l : Log) :
    Safe (bare NoFail) (shouldRoll l) (fun x _ => (∃ b, x.1 = .ok b) ∧ x.2 = l) d := by
  refine Safe.getP ?_
  cases l.active with
  | none => exact ⟨⟨_, rfl⟩, rfl⟩
  | some a =>
    dsimp only
    split_ifs
    · exact ⟨⟨_, rfl⟩, rfl⟩
    · exact Safe.bindP (Safe.lift (safe_bare fun now d' _ => ⟨⟨_, rfl⟩, rfl⟩))

theorem calm_appendRoll (l : Log) :
    Safe (bare NoFail) (appendRoll l) (fun x _ => x.1 = .ok (l.nextOffset - 1) ∧
      CameThrough l x) d := by
  have hroll : ∀ d : Disk FileName, Safe (bare NoFail) (rollSegment l)
      (fun x _ => CameThrough l x) d := by
    intro d
    refine Safe.getP ?_
    cases ha : l.active with
    | none => exact ⟨⟨(), rfl⟩, rfl, rfl, fun _ _ h => h⟩
    | some a =>
      dsimp only
      split_ifs
      · exact Safe.modifyP (Safe.bindP (Safe.lift (safe_bare fun _ d' _ =>
          ⟨⟨(), rfl⟩, rfl, rfl, fun _ _ _ b hb => by cases hb⟩)))
      · exact calm_closeActive ha
  refine Safe.bindP ((calm_shouldRoll l).mono ?_)
  rintro ⟨r, l'⟩ d' ⟨⟨b, hr⟩, hl⟩
  obtain rfl : r = .ok b := hr
  obtain rfl : l' = l := hl
  cases b with
  | false => exact ⟨rfl, ⟨_, rfl⟩, rfl, rfl, fun _ _ h => h⟩
  | true =>
    refine Safe.bindP ((hroll d').mono ?_)
    rintro ⟨r, l₁⟩ d₁ ⟨⟨_, hr⟩, hnext, hpoisoned, hroom⟩
    obtain rfl : r = .ok () := hr
    exact ⟨congrArg (fun n => Except.ok (n - 1)) hnext, ⟨_, rfl⟩, hnext, hpoisoned, hroom⟩

/-- What an append returns when nothing fails: whether it succeeds is decided by
its arguments and the next offset. -/
theorem calm_append {l : Log} (hclean : l.poisoned = false) (hnext : l.nextOffset < 2 ^ 64)
    (producerId : String) (events : List OtkEvent) :
    Safe (bare NoFail) (append c producerId events l) (fun x _ =>
      Settles c producerId events l (· = l.nextOffset + events.length - 1) x) d := by
  refine Safe.bindP ((calm_appendCommit hclean hnext producerId events).mono ?_)
  rintro ⟨r, l₁⟩ d₁ ⟨hclean₁, ⟨_, hr, ⟨-, hnext₁⟩, hacc⟩ | ⟨e, hr, hnot⟩, hkept, hroom₁⟩
  · obtain rfl : r = .ok () := hr
    refine (calm_appendRoll l₁).mono ?_
    rintro ⟨r, l₂⟩ d₂ ⟨hr, -, hnext₂, hclean₂, hroom₂⟩
    obtain rfl : r = .ok (l₁.nextOffset - 1) := hr
    have hall : l₂.nextOffset = l.nextOffset + events.length := hnext₂.trans hnext₁
    refine ⟨hclean₂.trans hclean₁, Or.inl ⟨_, rfl, ⟨?_, hall⟩, hacc⟩, fun e he => (by cases he),
      fun n k hle h => hroom₂ _ _ (hroom₁ n k hle h)⟩
    exact congrArg (· - 1) hnext₁
  · obtain rfl : r = .error e := hr
    exact ⟨hclean₁, Or.inr ⟨e, rfl, hnot⟩, fun _ _ => hkept e rfl, hroom₁⟩

theorem says_readIndex {σ : Type} (dir : String) (base : ℕ) (s : σ) :
    Says ((readIndex dir base : Io σ (List ℕ)) s) fun x _ => x.2 = s := by
  refine Says.bindP (Says.mapError (Says.liftE ((Says.any _).mono fun r _ _ => ?_)))
  cases r with
  | error k => rfl
  | ok n =>
    simp only [Except.mapError]
    split_ifs
    · rfl
    · refine Says.bindP (Says.mapError (Says.liftE ((Says.any _).mono fun r _ _ => ?_)))
      cases r with
      | error k => rfl
      | ok ino =>
        refine Says.bindP (Says.mapError (Says.liftE ((Says.any _).mono fun r _ _ => ?_)))
        cases r with
        | error k => rfl
        | ok bytes =>
          simp only [Except.mapError]
          split_ifs <;> rfl

def Bounded (n : ℕ) : Prop := n < 2 ^ 64

theorem says_openClosed (dir : String) (base : ℕ) {st : OpenState} (h : Bounded st.nextOffset) :
    Says (openClosed c dir base st) fun x _ => Bounded x.2.nextOffset := by
  refine Says.bindP (Says.lift ((Says.any _).mono fun r _ _ => ?_))
  cases r with
  | error k => cases k <;> exact h
  | ok ino =>
    refine Says.bindP ((says_readIndex dir base st).mono ?_)
    rintro ⟨r, st'⟩ _ hst
    obtain rfl : st' = st := hst
    cases r with
    | error e => exact h
    | ok positions =>
      dsimp only
      cases positions.getLast? with
      | none => exact h
      | some lastPos =>
        dsimp only
        split_ifs with hbase
        · exact h
        · refine Says.bindP (Says.on ((Says.any _).mono fun x _ _ => ?_))
          cases hx : x.1 with
          | error e => exact h
          | ok hdr =>
            simp only [Except.map]
            split_ifs
            · exact h
            · refine Says.bindP (Says.on ((Says.any _).mono fun y _ _ => ?_))
              cases hy : y.1 with
              | error e => exact h
              | ok entry =>
                simp only [Except.map]
                split_ifs
                · exact h
                · refine Says.bindP (Says.mapError (Says.liftE ((Says.any _).mono fun r _ _ => ?_)))
                  cases r with
                  | error k => exact h
                  | ok size => exact not_le.mp hbase

theorem says_openActive (base : ℕ) {st : OpenState} (h : Bounded st.nextOffset) :
    Says (openActive c base st) fun x _ => Bounded x.2.nextOffset := by
  have horphan : Says (discardOrphan st) fun x _ => Bounded x.2.nextOffset := by
    refine Says.getP ?_
    cases st.active with
    | none => exact h
    | some prev =>
      refine Says.modifyP ?_
      split_ifs
      · exact h
      · exact Says.bindP (Says.lift ((Says.any _).mono fun _ _ _ => h))
  refine Says.bindP (horphan.mono ?_)
  rintro ⟨r, st'⟩ _ h'
  cases r with
  | error e => exact h'
  | ok _ =>
    refine Says.bindP (Says.mapError (Says.liftE ((Says.any _).mono fun r _ _ => ?_)))
    cases r with
    | error k => exact h'
    | ok ino =>
      refine Says.bindP (Says.on ((Says.any _).mono fun x _ _ => ?_))
      cases hx : x.1 with
      | error e => exact h'
      | ok found =>
        simp only [Except.map]
        split_ifs with hbase
        · exact h'
        · exact not_le.mp hbase

theorem says_openSegments (dir : String) (bases : List ℕ) {st : OpenState}
    (h : Bounded st.nextOffset) :
    Says (openSegments c dir bases st) fun x _ => Bounded x.2.nextOffset := by
  induction bases generalizing st with
  | nil => exact h
  | cons base rest ih =>
    have hexists : Says ((idxExists base : Io OpenState Bool) st) fun x _ => x.2 = st := by
      refine Says.bindP (Says.lift ((Says.any _).mono fun r _ _ => ?_))
      cases r with
      | ok _ => rfl
      | error k => cases k <;> rfl
    refine Says.bindP (hexists.mono ?_)
    rintro ⟨r, st'⟩ _ hst
    obtain rfl : st' = st := hst
    cases r with
    | error e => exact h
    | ok b =>
      cases b with
      | true =>
        change Says ((openClosed c dir base >>= fun _ => openSegments c dir rest) st') _
        refine Says.bindP ((says_openClosed dir base h).mono ?_)
        rintro ⟨r, st₁⟩ _ h₁
        cases r with
        | error e => exact h₁
        | ok _ => exact ih h₁
      | false =>
        change Says ((openActive c base >>= fun _ => openSegments c dir rest) st') _
        refine Says.bindP ((says_openActive base h).mono ?_)
        rintro ⟨r, st₁⟩ _ h₁
        cases r with
        | error e => exact h₁
        | ok _ => exact ih h₁

theorem says_scanDir {σ : Type} (slots : List (Slot FileName)) (s : σ) :
    Says ((scanDir slots : Io σ (List ℕ)) s) fun x _ => x.2 = s := by
  induction slots with
  | nil => rfl
  | cons slot rest ih =>
    refine Says.bindP (Says.mapError (Says.liftE ((Says.any _).mono fun r _ _ => ?_)))
    cases r with
    | error k => rfl
    | ok entry =>
      refine Says.bindP (ih.mono ?_)
      rintro ⟨r, s'⟩ _ hs
      cases r with
      | error e => exact hs
      | ok bases => exact hs

theorem bare_readWatermark {fails : Op FileName → Prop} {σ : Type} {s : σ}
    {Q : Except StorageError (Option ℕ) × σ → Disk FileName → Prop}
    (hok : ∀ mark : Option ℕ, (∀ n, mark = some n → Bounded n) → Q (.ok mark, s) d)
    (herr : ∀ err, (∃ o, fails o) → Q (.error err, s) d) :
    Safe (bare fails) (readWatermark s) Q d := by
  unfold readWatermark
  refine Safe.bindP (Safe.lift (quiet_bare.openRead (fun i _ => ?_) (fun _ => hok _ (by simp))
    fun hf => herr _ ⟨_, hf⟩))
  refine Safe.bindP (Safe.on (Safe.attempt ?_))
  refine quiet_bare.readExactAux i (fun ⟨_, _, hf⟩ _ => herr _ ⟨_, hf⟩) 8 8 0 [] le_rfl
    (fun hlen => ?_) fun _ _ => hok _ (by simp)
  refine hok _ fun n hn => ?_
  obtain rfl := Option.some.inj hn
  have hbound := ofLe_lt (([] : List UInt8) ++ ((d.data i).drop 0).take 8)
  rw [List.nil_append, List.length_take] at hbound
  have hwidth : 256 ^ min 8 ((d.data i).drop 0).length ≤ 256 ^ 8 :=
    Nat.pow_le_pow_right (by decide) (by omega)
  exact lt_of_lt_of_le hbound hwidth

theorem openDir_usable {fails : Op FileName → Prop} {config : SegmentLogConfig} {l : Log}
    {d d' : Disk FileName} (hx : Finishes (Step fails) d (openDir c config) d' (.ok l)) :
    l.poisoned = false ∧ l.nextOffset < 2 ^ 64 := by
  refine finishes_bare hx (Q := fun r _ => ∀ l, r = .ok l → l.poisoned = false ∧
    l.nextOffset < 2 ^ 64) (Safe.bind ?_) l rfl
  have hany : ∀ {α : Type} {p : Prog (Resp (N := FileName)) α} {Q : α → Prop} {d : Disk FileName},
      Says p (fun a _ => Q a) → Safe (bare fails) p (fun a _ => Q a) d := fun h =>
    (Says.safe (fun w o r s' _ => ⟨s', rfl, trivial⟩) h).mono fun _ _ ⟨_, hQ⟩ => hQ
  have hfail : ∀ {e : StorageError} {l : Log}, Except.error e = Except.ok l →
      l.poisoned = false ∧ l.nextOffset < 2 ^ 64 := fun h => by cases h
  refine Safe.bindP (Safe.mapError (Safe.liftE (safe_bare fun r d₁ _ => ?_)))
  cases r with
  | error k => exact fun l h => hfail h
  | ok _ =>
    refine Safe.bindP (Safe.mapError (Safe.liftE (safe_bare fun r d₂ _ => ?_)))
    cases r with
    | error k => exact fun l h => hfail h
    | ok slots =>
      refine Safe.bindP ((hany (says_scanDir slots _)).mono ?_)
      rintro ⟨r, st⟩ d₃ hst
      obtain rfl : st = ⟨[], none, 0⟩ := hst
      cases r with
      | error e => exact fun l h => hfail h
      | ok bases =>
        have hzero : Bounded (⟨[], none, 0⟩ : OpenState).nextOffset := Nat.two_pow_pos 64
        refine Safe.bindP ((hany (says_openSegments config.dir _ hzero)).mono ?_)
        rintro ⟨r, st⟩ d₄ hbounded
        cases r with
        | error e => exact fun l h => hfail h
        | ok _ =>
          refine Safe.getP ?_
          split_ifs
          · refine Safe.bindP (bare_readWatermark (fun wm hwm => ?_) fun e _ l h => hfail h)
            cases wm with
            | none =>
              rintro l ⟨⟩
              exact ⟨rfl, hbounded⟩
            | some n =>
              rintro l ⟨⟩
              exact ⟨rfl, hwm n rfl⟩
          · rintro l ⟨⟩
            exact ⟨rfl, hbounded⟩

end OtkCore.SegmentLog
