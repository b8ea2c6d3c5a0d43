import OtkCore.SegmentLog.InOrder
import OtkCore.Lib.WriteOrder

/-!
# The order of writes and syncs

In synchronous mode the log changes one file at a time, and the directory only while
every file is on the medium: a batch, a sentinel, an index and a watermark are synced
before anything else is touched. Between two calls only the file of the active segment
may be behind, and after a successful append no file is.
-/
namespace OtkCore.SegmentLog

open Effect FileIO

variable {c : Codec} {fails : Op FileName → Prop} {m : Cached FileName}

section Handle

variable {P : ℕ → Cached FileName → Prop}

theorem preserves_readRecord (pos : ℕ) :
    Preserves (ordered fails) (OnFile P) (readRecord c pos) :=
  .bind (.mapError (preserves_seek _) _) fun _ => preserves_read _ _

theorem preserves_readRecords (offset : ℕ) (positions : List ℕ) :
    Preserves (ordered fails) (OnFile P) (readRecords c offset positions) := by
  induction positions generalizing offset with
  | nil => exact .pure _
  | cons pos rest ih =>
    rw [readRecords]
    refine (preserves_readRecord pos).bind fun entry => ?_
    split_ifs
    · exact .throw _
    · exact (ih _).bind fun _ => .pure _

theorem preserves_batchEnd : Preserves (ordered fails) (OnFile P) batchEnd := by
  refine (preserves_streamPosition.attempt).bind fun r => ?_
  cases r with
  | ok pos => exact .pure _
  | error k =>
    refine (preserves_seekEnd.attempt).bind fun r => ?_
    cases r with
    | ok pos => exact .pure _
    | error _ => exact .throw _

variable (hP : Editable P)

include hP

theorem preserves_writeRecord (e : LogEntry) :
    Preserves (ordered fails) (OnFile P) (writeRecord c e) := by
  unfold writeRecord
  dsimp only
  split_ifs
  · exact .throw _
  · exact .throw _
  · exact .throw _
  · refine (preserves_streamPosition.mapError _).bind fun start => ?_
    refine ((hP.preserves_writeAll _).attempt).bind fun r => ?_
    cases r with
    | error k => exact ((hP.preserves_setLen _).attempt).bind fun _ => .throw _
    | ok _ => exact .pure _

theorem preserves_writeBatch (ts : ℕ) (producerId : String) (start offset : ℕ)
    (events : List OtkEvent) :
    Preserves (ordered fails) (OnFile P) (writeBatch c ts producerId start offset events) := by
  induction events generalizing offset with
  | nil => exact .pure _
  | cons event rest ih =>
    rw [writeBatch]
    split_ifs
    · exact ((hP.preserves_setLen _).attempt).bind fun _ => .throw _
    · refine ((preserves_writeRecord hP _).attempt).bind fun r => ?_
      cases r with
      | ok pos => exact (ih _).bind fun _ => .pure _
      | error err => exact ((hP.preserves_setLen _).attempt).bind fun _ => .throw _

theorem preserves_cutAt (pos : ℕ) : Preserves (ordered fails) (OnFile P) (cutAt pos) :=
  .bind (.mapError (hP.preserves_setLen _) _) fun _ => .mapError (preserves_seek _) _

theorem preserves_recoverLoop (base fileLen fuel : ℕ) (positions : List ℕ) (pos : ℕ) :
    Preserves (ordered fails) (OnFile P) (recoverLoop c base fileLen fuel positions pos) := by
  induction fuel generalizing positions pos with
  | zero => exact .pure _
  | succ fuel ih =>
    have hcut : ∀ x, Preserves (ordered fails) (OnFile P) (do
        cutAt pos
        pure x : Io File (List ℕ × ℕ)) := fun x => (preserves_cutAt hP pos).bind fun _ => .pure _
    rw [recoverLoop]
    split_ifs
    · exact .pure _
    · refine ((preserves_seek pos).mapError _).bind fun _ =>
        ((preserves_readExactAux 4 4 []).attempt).bind fun r => ?_
      cases r with
      | error e =>
        cases e with
        | unexpectedEof => exact hcut _
        | notFound | writeZero | other => exact .throw _
      | ok buf =>
        by_cases hzero : Bytes.ofLe buf = 0
        · simp only [hzero, if_true]
          exact hcut _
        · simp only [hzero, if_false]
          refine ((preserves_readRecord pos).attempt).bind fun r => ?_
          cases r with
          | ok entry =>
            dsimp only
            split_ifs
            · exact .throw _
            · exact hcut _
            · exact ih _ _
            · exact hcut _
          | error err =>
            cases err with
            | io e =>
              cases e with
              | unexpectedEof => exact hcut _
              | notFound | writeZero | other => exact .throw _
            | corrupted _ => exact hcut _
            | invalidInput _ | configuration _ | retentionExpired _ _ => exact .throw _

theorem preserves_openHeader (base : ℕ) :
    Preserves (ordered fails) (OnFile P) (openHeader base) := by
  refine (preserves_len.mapError _).bind fun fileLen => ?_
  split_ifs
  · refine (preserves_read _ _).bind fun hdr => ?_
    split_ifs
    · exact .throw _
    · exact .pure _
  · refine (preserves_still (o := .now) trivial).bind fun ts => ?_
    refine ((hP.preserves_setLen _).mapError _).bind fun _ => ?_
    refine ((preserves_seek _).mapError _).bind fun _ => ?_
    exact ((hP.preserves_writeAll _).mapError _).bind fun _ => .pure _

theorem preserves_recoverFile (base : ℕ) :
    Preserves (ordered fails) (OnFile P) (recoverFile c base) := by
  refine (preserves_openHeader hP base).bind fun created => ?_
  have hactive : Preserves (ordered fails) (OnFile P) (recoverActive c base) :=
    (preserves_len.mapError _).bind fun n => (preserves_recoverLoop hP _ _ _ _ _).bind
      fun _ => .pure _
  refine hactive.bind fun ⟨positions, nextFilePos, recordCount⟩ => ?_
  dsimp only
  cases positions.getLast? with
  | none => exact .pure _
  | some lastPos => exact (preserves_readRecord lastPos).bind fun _ => .pure _

end Handle

theorem ordered_written {f : File} (h : m.Alone f.ino) (bytes : List UInt8) :
    Safe (ordered NoFail) (File.writeAll FileName bytes f) (fun x m' => x.1 = .ok () ∧
      x.2.ino = f.ino ∧ Cached.Edited x.2.ino m m') m := by
  refine (ordered_writeAll h bytes).mono ?_
  rintro ⟨r, f'⟩ m' ⟨hino, hedit, hok⟩
  exact ⟨hok fun _ => id, hino, hino ▸ hedit⟩

theorem ordered_synced {f : File} (h : m.Alone f.ino) :
    Safe (ordered NoFail) (File.sync FileName f) (fun x m' => x = (.ok (), f) ∧
      m'.Stored ∧ Cached.Edited f.ino m m') m := by
  refine (ordered_sync h).mono ?_
  rintro ⟨r, f'⟩ m' ⟨rfl, hedit, hok⟩
  obtain ⟨rfl, hstored⟩ := hok fun _ => id
  exact ⟨rfl, hstored, hedit⟩

theorem ordered_syncBatch {f : File} (h : m.Alone f.ino) (start : ℕ) :
    Safe (ordered NoFail) (syncBatch 0 start f) (fun x m' => x.1 = .ok () ∧ x.2 = f ∧
      m'.Stored ∧ Cached.Edited f.ino m m') m := by
  rw [syncBatch, if_pos rfl]
  refine Safe.bindP (Safe.attempt ((ordered_synced h).mono ?_))
  rintro _ m' ⟨rfl, hstored, hedit⟩
  exact ⟨rfl, rfl, hstored, hedit⟩

theorem ordered_writeSentinel {f : File} (h : m.Alone f.ino) (pos : ℕ) :
    Safe (ordered NoFail) (writeSentinel pos f) (fun x m' => x.1 = .ok () ∧
      x.2.ino = f.ino ∧ m'.Stored ∧ Cached.Edited f.ino m m') m := by
  refine Safe.bindP (Safe.mapError ((ordered_synced h).mono ?_))
  rintro _ m₁ ⟨rfl, -, hedit₁⟩
  refine Safe.bindP (Safe.mapError ((ordered_written hedit₁.alone _).mono ?_))
  rintro ⟨_, f₂⟩ m₂ ⟨rfl, hino, hedit₂⟩
  refine Safe.bindP (Safe.attempt ((ordered_synced hedit₂.alone).mono ?_))
  rintro _ m₃ ⟨rfl, hstored, hedit₃⟩
  have hedit := hedit₂.trans hedit₃
  dsimp only at hino hedit
  rw [hino] at hedit
  exact ⟨rfl, hino, hstored, hedit₁.trans hedit⟩

/-- A scratch file is synced before it gets its name, and the name after. -/
theorem ordered_scratch {σ : Type} {s : σ} (hstored : m.Stored) (hlisted : m.Listed)
    (x y : FileName) (bytes : List UInt8) :
    Safe (ordered NoFail) ((do
      let ino ← call (Prog.op (Op.openWrite x true))
      let (_, f) ← (onFile (File.writeAll _ bytes)).on ⟨ino, 0⟩
      let _ ← (onFile (File.sync _)).on f
      call (Prog.op (Op.rename x y))
      let _ ← Proc.lift (Prog.op Op.syncDir) : Io σ Unit) s)
      (fun z m' => z = (.ok (), s) ∧ m'.Stored ∧ m'.Listed) m := by
  refine Safe.bindP (Safe.mapError (Safe.liftE (ordered_openWrite hstored hlisted x true
    (fun i m₁ halone hfind _ => ?_) fun hf => hf.elim)))
  have hwrite := ordered_written (f := ⟨i, 0⟩) halone bytes
  refine Safe.bindP (Safe.on (Safe.mapError (hwrite.mono ?_)))
  rintro ⟨_, f⟩ m₂ ⟨rfl, -, hedit⟩
  refine Safe.bindP (Safe.on (Safe.mapError ((ordered_synced hedit.alone).mono ?_)))
  rintro _ m₃ ⟨rfl, hstored', hedit'⟩
  refine Safe.bindP (Safe.mapError (Safe.liftE (ordered_rename hstored' x y (fun m₄ h₄ => ?_)
    (fun hnone => ?_) fun hf => hf.elim)))
  · refine Safe.bindP (Safe.lift (ordered_syncDir (fun m₅ hl hs _ => ?_) fun hf => hf.elim))
    exact ⟨rfl, hs h₄, hl⟩
  · rw [hedit'.find, hedit.find, hfind] at hnone
    cases hnone

theorem ordered_deleteSegment {σ : Type} {s : σ} (hstored : m.Stored)
    (path : FileName) (base : ℕ) :
    Safe (ordered NoFail) (deleteSegment path base s)
      (fun x m' => x.2 = s ∧ m'.Stored ∧ m'.Listed) m := by
  have hrest : ∀ m₁ : Cached FileName, m₁.Stored → Safe (ordered NoFail) ((do
      let _ ← Proc.lift (Prog.op (Op.unlink (.idx base)))
      let _ ← Proc.lift (Prog.op Op.syncDir) : Io σ Unit) s)
      (fun x m' => x.2 = s ∧ m'.Stored ∧ m'.Listed) m₁ := by
    intro m₁ h₁
    have hsync : ∀ m₂ : Cached FileName, m₂.Stored → Safe (ordered NoFail)
        ((Proc.lift (Prog.op Op.syncDir) >>= fun _ => pure () : Io σ Unit) s)
        (fun x m' => x.2 = s ∧ m'.Stored ∧ m'.Listed) m₂ := fun m₂ h₂ =>
      Safe.bindP (Safe.lift (ordered_syncDir (fun m₃ hl hs _ => ⟨rfl, hs h₂, hl⟩)
        fun hf => hf.elim))
    exact Safe.bindP (Safe.lift (ordered_unlink h₁ _ hsync (hsync m₁ h₁) fun hf => hf.elim))
  refine Safe.bindP (Safe.lift (ordered_unlink hstored path hrest (hrest m hstored) ?_))
  exact fun hf => hf.elim

/-- Between two calls: only the file of the active segment may be behind. -/
structure OnlyActive (l : Log) (m : Cached FileName) : Prop where
  synchronous : l.config.flushIntervalMs = 0
  listed : m.Listed
  stored : l.active = none → m.Stored
  alone : ∀ a, l.active = some a → m.Alone a.file.ino

/-- A fact about the file of the active segment, in synchronous mode. -/
def OnActive (P : ℕ → Cached FileName → Prop) (l : Log) (m : Cached FileName) : Prop :=
  l.config.flushIntervalMs = 0 ∧ ∃ a, l.active = some a ∧ P a.file.ino m

theorem OnActive.onlyActive {P : ℕ → Cached FileName → Prop} {l : Log} (h : OnActive P l m)
    (hP : ∀ i, P i m → m.Alone i ∧ m.Listed) : OnlyActive l m := by
  obtain ⟨hsync, a, ha, hp⟩ := h
  refine ⟨hsync, (hP _ hp).2, fun hnone => ?_, fun b hb => ?_⟩
  · rw [ha] at hnone
    cases hnone
  · obtain rfl := Option.some.inj (ha.symm.trans hb)
    exact (hP _ hp).1

theorem ordered_onActive {α : Type} {t : Io File α} {l : Log} {a : ActiveSegment}
    {Q : Except StorageError α × Log → Cached FileName → Prop} (ha : l.active = some a)
    (h : Safe (ordered fails) (t a.file) (fun x m' => Q (x.1, l.setFile x.2) m') m) :
    Safe (ordered fails) (onActive t l) Q m := by
  unfold onActive
  rw [ha]
  refine Safe.bind (h.mono ?_)
  rintro ⟨r, f⟩ m' hx
  simpa [Safe, Log.setFile, ha] using hx

theorem preserves_onActive {α : Type} {P : ℕ → Cached FileName → Prop} {t : Io File α}
    (ht : Preserves (ordered fails) (OnFile P) t) :
    Preserves (ordered fails) (OnActive P) (onActive t) := by
  rintro l m ⟨hsync, a, ha, hp⟩
  refine ordered_onActive ha ((ht a.file m hp).mono ?_)
  rintro ⟨r, f⟩ m' hf
  exact ⟨hsync, _, Log.setFile_active ha, hf⟩

def Writing (i : ℕ) (m : Cached FileName) : Prop := m.Alone i ∧ m.Listed

theorem editable_writing : Editable Writing := editable_listed

variable {l : Log}

theorem OnlyActive.ordered_ensureActive (h : OnlyActive l m) :
    Safe (ordered NoFail) (ensureActive l) (fun x m' => OnActive Writing x.2 m') m := by
  unfold ensureActive
  apply Safe.getP
  cases ha : l.active with
  | some a => exact ⟨h.synchronous, a, ha, h.alone a ha, h.listed⟩
  | none =>
    refine Safe.bindP (Safe.lift (ordered_still trivial fun ts _ => ?_))
    refine Safe.bindP (Safe.mapError (Safe.liftE (ordered_openWrite (h.stored ha) h.listed _ _
      (fun i m₁ halone _ _ => ?_) fun hf => hf.elim)))
    refine Safe.bindP (Safe.on (Safe.mapError ((ordered_written (f := ⟨i, 0⟩) halone _).mono ?_)))
    rintro ⟨_, f⟩ m₂ ⟨rfl, -, hedit⟩
    refine Safe.bindP (Safe.lift (ordered_syncDir (fun m₃ hlisted _ hsame => ?_) fun hf => hf.elim))
    exact ⟨h.synchronous, _, rfl, hsame _ hedit.alone, hlisted⟩

theorem OnlyActive.ordered_appendCommit (h : OnlyActive l m) (producerId : String)
    (events : List OtkEvent) :
    Safe (ordered NoFail) (appendCommit c producerId events l) (fun x m' => OnlyActive x.2 m' ∧
      ∀ u, x.1 = .ok u → m'.Stored ∧ ∀ a, x.2.active = some a → a.positions ≠ []) m := by
  apply Safe.getP
  split_ifs with hpoisoned hnil hname
  · exact ⟨h, by simp⟩
  · exact ⟨h, by simp⟩
  · exact ⟨h, by simp⟩
  refine Safe.bindP (h.ordered_ensureActive.mono ?_)
  rintro ⟨r, l₁⟩ m₁ h₁
  cases r with
  | error err => exact ⟨h₁.onlyActive fun _ => id, by simp⟩
  | ok _ =>
  refine Safe.bindP (Safe.lift (ordered_still trivial fun ts _ => Safe.getP ?_))
  refine Safe.bindP ((preserves_onActive (.mapError (preserves_seek _) _) l₁ m₁ h₁).mono ?_)
  rintro ⟨r, l₂⟩ m₂ h₂
  cases r with
  | error err => exact ⟨h₂.onlyActive fun _ => id, by simp⟩
  | ok _ =>
  obtain ⟨hsync, a, ha, hw⟩ := h₂
  dsimp only at ha hsync
  refine Safe.bindP (ordered_onActive ha (((says_writeBatch ts producerId _ _ events _).and_safe
    (preserves_writeBatch editable_writing _ _ _ _ _ a.file m₂ hw)).mono ?_))
  rintro ⟨r, f⟩ m₃ ⟨hw₃, -, hlen⟩
  have ha₃ := Log.setFile_active (f := f) ha
  cases r with
  | error err => exact ⟨OnActive.onlyActive ⟨hsync, _, ha₃, hw₃⟩ fun _ => id, by simp⟩
  | ok positions =>
  have hne : positions ≠ [] := by
    rintro rfl
    exact hnil (List.length_eq_zero_iff.mp (hlen _ rfl).symm)
  have hzero := h₁.1
  dsimp only at hzero ⊢
  rw [hzero]
  refine Safe.bindP (ordered_onActive ha₃ ((ordered_syncBatch hw₃.1 _).mono ?_))
  rintro ⟨r, f'⟩ m₄ ⟨rfl, rfl, hstored, hedit⟩
  have hon : OnActive (fun i m => Writing i m ∧ m.Stored) ((l₂.setFile f').setFile f') m₄ :=
    ⟨hsync, _, Log.setFile_active ha₃, ⟨hedit.alone, hedit.listed hw₃.2⟩, hstored⟩
  refine Safe.bindP ((preserves_onActive (.attempt preserves_batchEnd) _ m₄ hon).mono ?_)
  rintro ⟨r, l₅⟩ m₅ ⟨hsync₅, b, hb, hw₅, hstored₅⟩
  dsimp only at hb hsync₅
  cases r with
  | error err => exact ⟨OnActive.onlyActive ⟨hsync₅, b, hb, hw₅⟩ fun _ => id, by simp⟩
  | ok r =>
    cases r with
    | error k =>
      exact Safe.modifyP ⟨OnActive.onlyActive ⟨hsync₅, b, hb, hw₅⟩ fun _ => id, by simp⟩
    | ok newFilePos =>
      refine Safe.modifyP (Safe.lift (ordered_still trivial fun _ _ => ?_))
      refine ⟨OnActive.onlyActive (P := Writing)
        ⟨hsync₅, _, congrArg (Option.map _) hb, hw₅⟩ fun _ => id,
        fun _ _ => ⟨hstored₅, fun a' ha' => ?_⟩⟩
      rw [hb] at ha'
      obtain rfl := Option.some.inj ha'
      simp [hne]

/-- No segment is open, and everything is on the medium. -/
def AtRest (l : Log) (m : Cached FileName) : Prop :=
  l.config.flushIntervalMs = 0 ∧ l.active = none ∧ m.Stored ∧ m.Listed

theorem AtRest.onlyActive (h : AtRest l m) : OnlyActive l m ∧ m.Stored := by
  obtain ⟨hsync, hnone, hstored, hlisted⟩ := h
  refine ⟨⟨hsync, hlisted, fun _ => hstored, fun a ha => ?_⟩, hstored⟩
  rw [hnone] at ha
  cases ha

theorem preserves_evictFront (front : ClosedSegment) :
    Preserves (ordered NoFail) AtRest (evictFront front) := by
  refine Preserves.bind (fun l m h => ?_) fun _ => .modify fun l m h => h
  obtain ⟨hsync, hnone, hstored, -⟩ := h
  refine (ordered_deleteSegment hstored front.path front.baseOffset).mono ?_
  rintro ⟨r, l'⟩ m' ⟨rfl, hs, hl⟩
  exact ⟨hsync, hnone, hs, hl⟩

theorem preserves_enforceRetention : Preserves (ordered NoFail) AtRest enforceRetention := by
  have holder : ∀ cutoff segs, Preserves (ordered NoFail) AtRest (evictOlder cutoff segs) := by
    intro cutoff segs
    induction segs with
    | nil => exact .pure _
    | cons front rest ih =>
      rw [evictOlder]
      split_ifs
      · exact (preserves_evictFront front).bind fun _ => ih
      · exact .pure _
  have hlarger : ∀ maxBytes segs total,
      Preserves (ordered NoFail) AtRest (evictLarger maxBytes total segs) := by
    intro maxBytes segs
    induction segs with
    | nil => exact fun _ => .pure _
    | cons front rest ih =>
      intro total
      rw [evictLarger]
      split_ifs
      · exact (preserves_evictFront front).bind fun _ => ih _
      · exact .pure _
  have hage : ∀ n, Preserves (ordered NoFail) AtRest (retainByAge n) := fun n =>
    (preserves_still (o := .now) trivial).bind fun _ => Preserves.get.bind fun _ => holder _ _
  have hsize : ∀ n, Preserves (ordered NoFail) AtRest (retainBySize n) := fun n =>
    Preserves.get.bind fun _ => hlarger _ _ _
  refine Preserves.get.bind fun s => ?_
  cases s.config.retention with
  | indefinite => exact .pure _
  | timeBased n => exact hage n
  | sizeBased n => exact hsize n
  | hybrid n k => exact (hage n).bind fun _ => hsize k

/-- The sentinel is synced before the index appears, and the index before the watermark. -/
theorem OnlyActive.ordered_closeActive (h : OnlyActive l m) {a : ActiveSegment}
    (ha : l.active = some a) :
    Safe (ordered NoFail) (closeActive a l) (fun x m' => OnlyActive x.2 m' ∧ m'.Stored) m := by
  refine Safe.bindP (ordered_onActive ha ((ordered_writeSentinel (h.alone a ha) _).mono ?_))
  rintro ⟨r, f⟩ m₁ ⟨rfl, hino, hstored, hedit⟩
  have hlisted := hedit.listed h.listed
  refine Safe.bindP (Safe.attempt ((ordered_scratch hstored hlisted _ _ _).mono ?_))
  rintro z m₂ ⟨rfl, hstored₂, hlisted₂⟩
  refine Safe.bindP (ordered_onActive (Log.setFile_active ha) (Safe.attempt ((preserves_len
    (P := fun _ m' => m'.Stored ∧ m'.Listed) _ m₂ ⟨hstored₂, hlisted₂⟩).mono ?_)))
  rintro ⟨r, f'⟩ m₃ ⟨hstored₃, hlisted₃⟩
  have hrest : ∀ l' : Log, l'.config = l.config → l'.active = none →
      Safe (ordered NoFail) ((do
        let s ← Proc.get
        writeWatermark s.nextOffset
        enforceRetention : Io Log Unit) l') (fun x m' => OnlyActive x.2 m' ∧ m'.Stored) m₃ := by
    intro l' hconfig hnone
    refine Safe.getP (Safe.bindP ((ordered_scratch hstored₃ hlisted₃ _ _ _).mono ?_))
    rintro z m₄ ⟨rfl, hstored₄, hlisted₄⟩
    refine (preserves_enforceRetention l' m₄
      ⟨hconfig ▸ h.synchronous, hnone, hstored₄, hlisted₄⟩).mono ?_
    exact fun x m' hx => hx.onlyActive
  exact Safe.modifyP (hrest _ rfl rfl)

theorem preserves_shouldRoll {J : Log → Cached FileName → Prop} :
    Preserves (ordered fails) J shouldRoll := by
  refine Preserves.get.bind fun l => ?_
  cases l.active with
  | none => exact .pure _
  | some a =>
    dsimp only
    split_ifs
    · exact .pure _
    · exact (preserves_still (o := .now) trivial).bind fun _ => .pure _

/-- An append leaves only the file of the active segment behind, and if it succeeds none. -/
theorem OnlyActive.ordered_append (h : OnlyActive l m) (producerId : String)
    (events : List OtkEvent) :
    Safe (ordered NoFail) (append c producerId events l)
      (fun x m' => OnlyActive x.2 m' ∧ ∀ n, x.1 = .ok n → m'.Stored) m := by
  refine Safe.bindP ((h.ordered_appendCommit producerId events).mono ?_)
  rintro ⟨r, l₁⟩ m₁ ⟨h₁, hok⟩
  cases r with
  | error err => exact ⟨h₁, by simp⟩
  | ok u =>
  obtain ⟨hstored, hne⟩ := hok u rfl
  have hget : ∀ (l' : Log) (m' : Cached FileName), OnlyActive l' m' ∧ m'.Stored →
      Safe (ordered NoFail) ((do
        let s ← Proc.get
        pure (s.nextOffset - 1) : Io Log ℕ) l')
        (fun x m' => OnlyActive x.2 m' ∧ ∀ n, x.1 = .ok n → m'.Stored) m' :=
    fun _ _ h' => ⟨h'.1, fun _ _ => h'.2⟩
  have hshould : Safe (ordered NoFail) (shouldRoll l₁) (fun x m' => x.2 = l₁ ∧ m' = m₁) m₁ :=
    preserves_shouldRoll (J := fun l' m' => l' = l₁ ∧ m' = m₁) l₁ m₁ ⟨rfl, rfl⟩
  refine Safe.bindP (hshould.mono ?_)
  rintro ⟨r, l₂⟩ m₂ ⟨rfl, rfl⟩
  cases r with
  | error err => exact ⟨h₁, by simp⟩
  | ok roll =>
    cases roll with
    | false => exact hget _ _ ⟨h₁, hstored⟩
    | true =>
      apply Safe.bindP
      have hroll : Safe (ordered NoFail) (rollSegment l₂)
          (fun x m' => OnlyActive x.2 m' ∧ m'.Stored) m₂ := by
        apply Safe.getP
        cases ha : l₂.active with
        | none => exact ⟨h₁, hstored⟩
        | some a =>
          dsimp only
          rw [if_neg (hne a ha)]
          exact h₁.ordered_closeActive ha
      apply hroll.mono
      rintro ⟨r, l₃⟩ m₃ h₃
      cases r with
      | error err => exact ⟨h₃.1, by simp⟩
      | ok _ => exact hget _ _ h₃

theorem OnlyActive.setFile (h : OnlyActive l m) {a : ActiveSegment} (ha : l.active = some a)
    {f : File} (hf : f.ino = a.file.ino) : OnlyActive (l.setFile f) m := by
  refine ⟨h.synchronous, h.listed, fun hnone => ?_, fun b hb => ?_⟩
  · rw [Log.setFile_active ha] at hnone
    cases hnone
  · rw [Log.setFile_active ha] at hb
    obtain rfl := Option.some.inj hb
    exact hf ▸ h.alone a ha

theorem OnlyActive.ordered_readRange (h : OnlyActive l m) (start : ℕ) (stop : Option ℕ) :
    Safe (ordered fails) (readRange c start stop l)
      (fun x m' => OnlyActive x.2 m' ∧ m' = m) m := by
  have hclosed : ∀ segs start stop, Preserves (ordered fails)
      (fun l' m' => OnlyActive l' m' ∧ m' = m) (readClosed c start stop segs) := by
    intro segs start stop
    induction segs with
    | nil => exact .pure _
    | cons seg rest ih =>
      rw [readClosed]
      split_ifs
      · exact ih
      · exact .pure _
      · refine ((preserves_call (.op trivial)).mapError _).bind fun ino => ?_
        refine Preserves.bind (.on fun l' m' h' => ?_) fun _ => ih.bind fun _ => .pure _
        exact preserves_readRecords (P := fun _ m'' => OnlyActive l' m'' ∧ m'' = m) _ _ _ m' h'
  have hactive : ∀ start stop, Preserves (ordered fails)
      (fun l' m' => OnlyActive l' m' ∧ m' = m) (readActive c start stop) := by
    rintro start stop l' m' ⟨h', rfl⟩
    apply Safe.getP
    cases ha : l'.active with
    | none => exact ⟨h', rfl⟩
    | some a =>
      dsimp only
      split_ifs
      · refine ordered_onActive ha ((preserves_readRecords
          (P := fun i m'' => i = a.file.ino ∧ m'' = m') _ _ a.file m' ⟨rfl, rfl⟩).mono ?_)
        rintro ⟨r, f⟩ m'' ⟨hino, rfl⟩
        exact ⟨h'.setFile ha hino, rfl⟩
      · exact ⟨h', rfl⟩
  have hread : Preserves (ordered fails) (fun l' m' => OnlyActive l' m' ∧ m' = m)
      (readRange c start stop) := by
    refine Preserves.get.bind fun s => ?_
    split_ifs
    · exact .pure _
    · exact .pure _
    · exact .throw _
    · exact .throw _
    · exact (hclosed _ _ _).bind fun _ => (hactive _ _).bind fun _ => .pure _
  exact hread l m ⟨h, rfl⟩

section Opening

variable {σ : Type}

theorem uses_scanDir (slots : List (Slot FileName)) :
    Uses Op.Still (scanDir slots : Io σ (List ℕ)) := by
  induction slots with
  | nil => exact .pure _
  | cons slot rest ih =>
    exact .bind (.mapError (.liftE (.op trivial)) _) fun _ => .bind ih fun _ => .pure _

theorem ordered_idxExists {s : σ} (base : ℕ) :
    Safe (ordered NoFail) (idxExists base s)
      (fun x m' => x = (.ok (m.disk.find (.idx base)).isSome, s) ∧ m' = m) m := by
  refine Safe.bindP (Safe.lift (ordered_still trivial fun r hs => ?_))
  obtain ⟨-, hr | ⟨hf, -⟩⟩ := hs
  · cases hfind : m.disk.find (.idx base) with
    | some i =>
      simp only [hfind] at hr
      subst hr
      exact ⟨rfl, rfl⟩
    | none =>
      simp only [hfind] at hr
      subst hr
      exact ⟨rfl, rfl⟩
  · exact hf.elim

theorem preserves_readIndex {J : σ → Cached FileName → Prop} (dir : String) (base : ℕ) :
    Preserves (ordered fails) J (readIndex dir base : Io σ (List ℕ)) := by
  refine ((preserves_call (.op trivial)).mapError _).bind fun fileLen => ?_
  split_ifs
  · exact .throw _
  · refine ((preserves_call (.op trivial)).mapError _).bind fun ino => ?_
    refine ((preserves_call (.op trivial)).mapError _).bind fun bytes => ?_
    split_ifs
    · exact .throw _
    · exact .pure _

theorem preserves_readWatermark {J : σ → Cached FileName → Prop} :
    Preserves (ordered fails) J (readWatermark : Io σ (Option ℕ)) := by
  refine (preserves_still (o := .openRead FileName.watermark) trivial).bind fun r => ?_
  cases r with
  | error k =>
    cases k with
    | notFound => exact .pure _
    | unexpectedEof | writeZero | other => exact .throw _
  | ok ino =>
    refine Preserves.bind (.on fun s m' h => ?_) fun x => ?_
    · exact (preserves_readExactAux (P := fun _ m'' => J s m'') 8 8 []).attempt _ m' h
    · obtain ⟨r, f⟩ := x
      cases r with
      | ok buf => exact .pure _
      | error k =>
        cases k with
        | unexpectedEof => exact .pure _
        | notFound | writeZero | other => exact .throw _

theorem preserves_openClosed (dir : String) (base : ℕ) :
    Preserves (ordered fails) (fun st m' => st.active = none ∧ m' = m)
      (openClosed c dir base) := by
  refine (preserves_still (o := .openRead (FileName.seg base)) trivial).bind fun r => ?_
  cases r with
  | error k =>
    cases k with
    | notFound => exact .pure _
    | unexpectedEof | writeZero | other => exact .throw _
  | ok ino =>
    refine (preserves_readIndex dir base).bind fun positions => ?_
    cases positions.getLast? with
    | none => exact .pure _
    | some lastPos =>
      dsimp only
      split_ifs
      · exact .throw _
      refine Preserves.bind (.on fun st m' h => preserves_read
        (P := fun _ m'' => st.active = none ∧ m'' = m) _ _ _ m' h) fun ⟨hdr, file⟩ => ?_
      dsimp only
      split_ifs
      · exact .throw _
      refine Preserves.bind (.on fun st m' h => preserves_readRecord
        (P := fun _ m'' => st.active = none ∧ m'' = m) _ _ m' h) fun ⟨entry, _⟩ => ?_
      dsimp only
      split_ifs
      · exact .throw _
      · exact ((preserves_call (.op trivial)).mapError _).bind fun _ => .modify fun _ _ h => h

theorem ordered_openActive (hstored : m.Stored) (hlisted : m.Listed) {st : OpenState}
    (hnone : st.active = none) {base : ℕ} (hseg : (m.disk.find (.seg base)).isSome = true) :
    Safe (ordered NoFail) (openActive c base st) (fun x m' => ∀ u, x.1 = .ok u →
      ∃ a, x.2.active = some a ∧ Writing a.file.ino m') m := by
  unfold openActive discardOrphan
  refine Safe.bindP (Safe.getP ?_)
  rw [hnone]
  refine Safe.bindP (Safe.mapError (Safe.liftE (ordered_openWrite hstored hlisted _ _
    (fun i m₁ halone _ hl => ?_) fun hf => hf.elim)))
  refine Safe.bindP (Safe.on ((preserves_recoverFile editable_writing base ⟨i, 0⟩ m₁
    ⟨halone, hl hseg⟩).mono ?_))
  rintro ⟨r, f⟩ m₂ hw
  cases r with
  | error err => simp [Except.map]
  | ok x =>
    dsimp only [Except.map]
    split_ifs
    · simp [Safe]
    · exact fun _ _ => ⟨_, rfl, hw⟩

theorem ordered_openSegments (hstored : m.Stored) (hlisted : m.Listed) (dir : String)
    {bases : List ℕ} (hbases : ∀ b ∈ bases, (m.disk.find (.idx b)).isSome = true)
    {tail : Option ℕ} (htail : ∀ b, tail = some b →
      m.disk.find (.idx b) = none ∧ (m.disk.find (.seg b)).isSome = true)
    {st : OpenState} (hnone : st.active = none) :
    Safe (ordered NoFail) (openSegments c dir (bases ++ tail.toList) st)
      (fun x m' => ∀ u, x.1 = .ok u → x.2.active = none ∧ m'.Stored ∧ m'.Listed ∨
        ∃ a, x.2.active = some a ∧ Writing a.file.ino m') m := by
  induction bases generalizing st with
  | nil =>
    cases tail with
    | none => exact fun _ _ => Or.inl ⟨hnone, hstored, hlisted⟩
    | some b =>
      obtain ⟨hidx, hseg⟩ := htail b rfl
      refine Safe.bindP ((ordered_idxExists b).mono ?_)
      rintro x m' ⟨rfl, rfl⟩
      rw [hidx]
      refine Safe.bindP ((ordered_openActive hstored hlisted hnone hseg).mono ?_)
      rintro ⟨r, st'⟩ m₁ h₁
      cases r with
      | error err => simp
      | ok u => exact fun _ _ => Or.inr (h₁ u rfl)
  | cons b rest ih =>
    rw [List.cons_append, openSegments]
    refine Safe.bindP ((ordered_idxExists b).mono ?_)
    rintro x m' ⟨rfl, rfl⟩
    rw [hbases b List.mem_cons_self]
    refine Safe.bindP ((preserves_openClosed dir b st m' ⟨hnone, rfl⟩).mono ?_)
    rintro ⟨r, st'⟩ m₁ ⟨hnone', rfl⟩
    cases r with
    | error err => simp
    | ok u => exact ih (fun b' hb' => hbases b' (List.mem_cons_of_mem _ hb')) hnone'

/-- Opening a directory that the log has left behind, with everything on the medium. -/
theorem ordered_openDir {w : World} (h : Good c w) (hd : w.disk = m.disk)
    (hstored : m.Stored) (hlisted : m.Listed) (config : SegmentLogConfig) :
    Safe (ordered NoFail) (openDir c config)
      (fun r m' => ∀ l, r = .ok l → config.flushIntervalMs = 0 → OnlyActive l m') m := by
  unfold openDir
  apply Safe.bind
  unfold openLog
  refine Safe.bindP (Safe.mapError (Safe.liftE (ordered_still trivial fun r hs => ?_)))
  obtain ⟨-, rfl | ⟨hf, -⟩⟩ := hs
  swap
  · exact hf.elim
  refine Safe.bindP (Safe.mapError (Safe.liftE (ordered_still trivial fun r hs => ?_)))
  obtain ⟨-, ⟨slots, rfl, hperm, hfresh⟩ | ⟨hf, -⟩⟩ := hs
  swap
  · exact hf.elim
  have hscan : Safe (bare NoFail) (scanDir slots (⟨[], none, 0⟩ : OpenState)) (fun x _ =>
      x = (.ok ((knownNames slots).filterMap FileName.segBase?), ⟨[], none, 0⟩)) m.disk := by
    refine safe_scanDir quiet_bare (fun x hx => ?_) hfresh rfl fun _ hf => hf.elim
    refine (m.disk.mem_keys x).mp (hperm.mem_iff.mp ?_)
    exact List.mem_filterMap.mpr ⟨_, hx, rfl⟩
  refine Safe.bindP ((ordered_of_bare (uses_scanDir slots _) hscan).mono ?_)
  rintro x m' ⟨rfl, rfl⟩
  dsimp only
  rw [← hd] at hperm
  rw [h.sorted_bases hperm, Ghost.linked, List.map_append]
  have htails : w.ghost.tail.toList.map Segment.base = (w.ghost.tail.map Segment.base).toList := by
    cases w.ghost.tail <;> rfl
  rw [htails]
  refine Safe.bindP ((ordered_openSegments hstored hlisted config.dir (fun b hb => ?_)
    (fun b hb => ?_) rfl).mono ?_)
  · obtain ⟨s, hs, rfl⟩ := List.mem_map.mp hb
    exact hd ▸ h.idx s hs
  · obtain ⟨s, hs, rfl⟩ := Option.map_eq_some_iff.mp hb
    rw [← hd]
    exact ⟨h.idx_tail hs, by rw [h.find_tail hs]; rfl⟩
  rintro ⟨r, st⟩ m₁ h₁
  cases r with
  | error err => simp [Safe]
  | ok u =>
    have hlog : ∀ n, config.flushIntervalMs = 0 →
        OnlyActive ⟨config, st.closed, st.active, n, false⟩ m₁ := by
      intro n hsync
      rcases h₁ u rfl with ⟨hnone, hs, hl⟩ | ⟨a, ha, hw⟩
      · exact (AtRest.onlyActive ⟨hsync, hnone, hs, hl⟩).1
      · exact OnActive.onlyActive (P := Writing) ⟨hsync, a, ha, hw⟩ fun _ => id
    apply Safe.getP
    split_ifs
    · have hread : Safe (ordered NoFail) (readWatermark st) (fun x m' => x.2 = st ∧ m' = m₁) m₁ :=
        preserves_readWatermark (J := fun st' m' => st' = st ∧ m' = m₁) st m₁ ⟨rfl, rfl⟩
      refine Safe.bindP (Safe.bindP (hread.mono ?_))
      rintro ⟨r, st'⟩ m₂ ⟨rfl, rfl⟩
      cases r with
      | error err => simp [Safe]
      | ok wm =>
        cases wm with
        | none =>
          rintro l hl hsync
          obtain rfl := Except.ok.inj hl
          exact hlog _ hsync
        | some n =>
          rintro l hl hsync
          obtain rfl := Except.ok.inj hl
          exact hlog _ hsync
    · rintro l hl hsync
      obtain rfl := Except.ok.inj hl
      exact hlog _ hsync

end Opening

end OtkCore.SegmentLog
