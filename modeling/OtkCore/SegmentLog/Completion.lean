import OtkCore.SegmentLog.Reading

/-!
# Operations that come to an end

Opening a directory and reading a range never wait for the file system, and
neither does an append whose files stay below the largest file: started from
any disk, they can be run to their end.
-/
namespace OtkCore.SegmentLog

open Effect FileIO Bytes

variable {c : Codec} {fails : Op FileName → Prop} {σ : Type}

theorem free_call {α : Type} {p : Prog (Resp (N := FileName)) (Except IoErrorKind α)}
    (h : Flows fails p fun _ => True) : Free fails (call p : Io σ α) :=
  fun _ => Flows.mapError (Flows.liftE h)

theorem flows_op {o : Op FileName} (h : o.Ready) : Flows fails (Prog.op o) fun _ => True :=
  ⟨h, fun _ _ => trivial⟩

theorem free_nowNs : Free fails (nowNs : Io σ ℕ) := Free.lift (by trivial)

theorem free_readRecord (pos : ℕ) : Free fails (readRecord c pos) :=
  ((Free.seek pos).mapError _).bind fun _ => Parser.free_read _ _

theorem free_readIndex (dir : String) (base : ℕ) : Free fails (readIndex dir base : Io σ (List ℕ)) := by
  refine (free_call (flows_op (by trivial))).bind fun n => ?_
  split_ifs
  · exact .throw _
  · refine (free_call (flows_op (by trivial))).bind fun ino => ?_
    refine (free_call (flows_op (by trivial))).bind fun bytes => ?_
    split_ifs
    · exact .throw _
    · exact .pure _

theorem free_readWatermark : Free fails (readWatermark : Io σ (Option ℕ)) := by
  refine (Free.lift (by trivial)).bind fun r => ?_
  match r with
  | .error .notFound => exact .pure _
  | .error .unexpectedEof => exact .throw _
  | .error .writeZero => exact .throw _
  | .error .other => exact .throw _
  | .ok ino =>
    refine (Free.on ((Free.readExact 8).attempt _)).bind fun x => ?_
    match x with
    | (.ok buf, f) => exact .pure _
    | (.error .unexpectedEof, f) => exact .pure _
    | (.error .notFound, f) => exact .throw _
    | (.error .writeZero, f) => exact .throw _
    | (.error .other, f) => exact .throw _

theorem free_scanDir (slots : List (Slot FileName)) : Free fails (scanDir slots : Io σ (List ℕ)) := by
  induction slots with
  | nil => exact .pure _
  | cons slot rest ih =>
    exact (free_call (flows_op (by trivial))).bind fun _ => ih.bind fun _ => .pure _

theorem free_idxExists (base : ℕ) : Free fails (idxExists base : Io σ Bool) := by
  refine (Free.lift (by trivial)).bind fun r => ?_
  match r with
  | .ok _ => exact .pure _
  | .error .notFound => exact .pure _
  | .error .unexpectedEof => exact .throw _
  | .error .writeZero => exact .throw _
  | .error .other => exact .throw _

theorem free_openClosed (dir : String) (base : ℕ) : Free fails (openClosed c dir base) := by
  refine (Free.lift (by trivial)).bind fun r => ?_
  match r with
  | .error .notFound => exact .pure _
  | .error .unexpectedEof => exact .throw _
  | .error .writeZero => exact .throw _
  | .error .other => exact .throw _
  | .ok ino =>
    refine (free_readIndex dir base).bind fun positions => ?_
    cases positions.getLast? with
    | none => exact .pure _
    | some lastPos =>
      dsimp only
      split_ifs
      · exact .throw _
      · refine (Free.on (Parser.free_read _ _ _)).bind fun x => ?_
        split_ifs
        · exact .throw _
        · refine (Free.on (free_readRecord _ _)).bind fun y => ?_
          split_ifs
          · exact .throw _
          · exact (free_call (flows_op (by trivial))).bind fun _ => .modify _

theorem free_discardOrphan : Free fails discardOrphan := by
  refine Free.get.bind fun st => ?_
  cases st.active with
  | none => exact .pure _
  | some prev =>
    refine (Free.modify _).bind fun _ => ?_
    split_ifs
    · exact .throw _
    · exact (Free.lift (by trivial)).bind fun _ => .pure _

theorem free_openHeader (base : ℕ) : Free fails (openHeader base) := by
  refine ((Free.len).mapError _).bind fun n => ?_
  split_ifs
  · refine (Parser.free_read _ _).bind fun hdr => ?_
    split_ifs
    · exact .throw _
    · exact .pure _
  · refine free_nowNs.bind fun ts => ((Free.setLen 0).mapError _).bind fun _ => fun f => ?_
    refine Flows.bindP (Flows.mapError (Flows.op trivial fun r _ => ?_))
    cases r with
    | error k => trivial
    | ok _ =>
      refine Flows.bindP (Flows.mapError (Flows.writeAll ?_ ?_ fun _ _ => trivial))
      · simp [maxFileLen]
      · trivial

theorem free_cutAt (pos : ℕ) : Free fails (cutAt pos) :=
  ((Free.setLen pos).mapError _).bind fun _ => (Free.seek pos).mapError _

theorem free_recoverLoop (base fileLen fuel : ℕ) (positions : List ℕ) (pos : ℕ) :
    Free fails (recoverLoop c base fileLen fuel positions pos) := by
  induction fuel generalizing positions pos with
  | zero => exact .pure _
  | succ fuel ih =>
    have hcut : ∀ x, Free fails (do
        cutAt pos
        pure x : Io File (List ℕ × ℕ)) := fun x => (free_cutAt pos).bind fun _ => .pure _
    rw [recoverLoop]
    split_ifs
    · exact .pure _
    · refine ((Free.seek pos).mapError _).bind fun _ => ((Free.readExact 4).attempt).bind fun r => ?_
      cases r with
      | error e =>
        cases e with
        | unexpectedEof => exact hcut _
        | notFound | writeZero | other => exact .throw _
      | ok buf =>
        by_cases hzero : ofLe buf = 0
        · simp only [hzero, if_true]
          exact hcut _
        · simp only [hzero, if_false]
          refine ((free_readRecord pos).attempt).bind fun r => ?_
          cases r with
          | ok entry =>
            dsimp only
            split_ifs
            · exact .throw _
            · exact hcut _
            · exact ih _ _
            · exact hcut _
          | error err =>
            cases err with
            | io e =>
              cases e with
              | unexpectedEof => exact hcut _
              | notFound | writeZero | other => exact .throw _
            | corrupted _ => exact hcut _
            | invalidInput _ | configuration _ | retentionExpired _ _ => exact .throw _

theorem free_recoverFile (base : ℕ) : Free fails (recoverFile c base) := by
  refine (free_openHeader base).bind fun created => ?_
  have hactive : Free fails (recoverActive c base) :=
    ((Free.len).mapError _).bind fun n => (free_recoverLoop _ _ _ _ _).bind fun _ => .pure _
  refine hactive.bind fun ⟨positions, nextFilePos, recordCount⟩ => ?_
  dsimp only
  cases positions.getLast? with
  | none => exact .pure _
  | some lastPos => exact (free_readRecord lastPos).bind fun _ => .pure _

theorem free_openActive (base : ℕ) : Free fails (openActive c base) := by
  refine free_discardOrphan.bind fun _ => (free_call (flows_op (by trivial))).bind fun ino => ?_
  refine (Free.on (free_recoverFile base _)).bind fun x => ?_
  dsimp only
  split_ifs
  · exact .throw _
  · exact .modify _

theorem free_openSegments (dir : String) (bases : List ℕ) :
    Free fails (openSegments c dir bases) := by
  induction bases with
  | nil => exact .pure _
  | cons base rest ih =>
    refine (free_idxExists base).bind fun b => ?_
    cases b with
    | true => exact (free_openClosed dir base).bind fun _ => ih
    | false => exact (free_openActive base).bind fun _ => ih

/-- `open` can be run to its end from every disk. -/
theorem flows_openDir (config : SegmentLogConfig) : Flows fails (openDir c config) fun _ => True := by
  suffices h : Free fails (openLog c config) from Flows.bind ((h _).mono fun _ _ => trivial)
  refine (free_call (flows_op (by trivial))).bind fun _ => ?_
  refine (free_call (flows_op (by trivial))).bind fun slots => ?_
  refine (free_scanDir slots).bind fun bases => (free_openSegments _ _).bind fun _ => ?_
  refine Free.get.bind fun st => ?_
  split_ifs
  · refine free_readWatermark.bind fun wm => ?_
    cases wm with
    | none => exact .pure _
    | some n => exact .pure _
  · exact .pure _

theorem free_readRecords (offset : ℕ) (positions : List ℕ) :
    Free fails (readRecords c offset positions) := by
  induction positions generalizing offset with
  | nil => exact .pure _
  | cons pos rest ih =>
    refine (free_readRecord pos).bind fun entry => ?_
    split_ifs
    · exact .throw _
    · exact (ih _).bind fun _ => .pure _

theorem free_readClosed (start stop : ℕ) (segs : List ClosedSegment) :
    Free fails (readClosed c start stop segs) := by
  induction segs with
  | nil => exact .pure _
  | cons seg rest ih =>
    rw [readClosed]
    split_ifs
    · exact ih
    · exact .pure _
    · refine (free_call (flows_op (by trivial))).bind fun ino => ?_
      exact (Free.on (free_readRecords _ _ _)).bind fun _ => ih.bind fun _ => .pure _

theorem free_onActive {α : Type} {t : Io File α} (h : Free fails t) : Free fails (onActive t) := by
  intro l
  unfold onActive
  cases l.active with
  | none => trivial
  | some a => exact Flows.bind ((h a.file).mono fun _ _ => trivial)

/-- `read_range` can be run to its end from every disk. -/
theorem free_readRange (start : ℕ) (stop : Option ℕ) : Free fails (readRange c start stop) := by
  refine Free.get.bind fun l => ?_
  split_ifs
  · exact .pure _
  · exact .pure _
  · exact .throw _
  · exact .throw _
  · refine (free_readClosed _ _ _).bind fun old => ?_
    refine Free.bind (Free.get.bind fun l => ?_) fun _ => .pure _
    cases l.active with
    | none => exact .pure _
    | some a =>
      dsimp only
      split_ifs
      · exact free_onActive (free_readRecords _ _)
      · exact .pure _

def NoFail : Op FileName → Prop := fun _ => False

def eventsLen (c : Codec) (producerId : String) (events : List OtkEvent) : ℕ :=
  (events.map fun event => 30 + (producerIdBytes producerId).length + (c.encode event).length).sum

theorem flows_onActive {α : Type} {t : Io File α} {l : Log} {a : ActiveSegment}
    {Q : Except StorageError α × Log → Prop} (ha : l.active = some a)
    (h : Flows fails (t a.file) fun x => Q (x.1, l.setFile x.2)) : Flows fails (onActive t l) Q := by
  unfold onActive
  rw [ha]
  refine Flows.bind (h.mono ?_)
  rintro ⟨r, f⟩ hx
  simpa [Flows, Log.setFile, ha] using hx

theorem flows_seek {pos : ℕ} {f : File} {Q : Except IoErrorKind Unit × File → Prop}
    (hok : Q (.ok (), ⟨f.ino, pos⟩)) : Flows NoFail (File.seek FileName pos f) Q := by
  refine Flows.op trivial fun r hr => ?_
  obtain ⟨d, d', -, rfl | ⟨hf, -⟩⟩ := hr
  · exact hok
  · exact hf.elim

theorem flows_streamPosition {f : File} {Q : Except IoErrorKind ℕ × File → Prop}
    (hok : Q (.ok f.pos, f)) : Flows NoFail (File.streamPosition FileName f) Q := by
  refine Flows.op trivial fun r hr => ?_
  obtain ⟨d, d', -, rfl | ⟨hf, -⟩⟩ := hr
  · exact hok
  · exact hf.elim

theorem flows_writeRecord (e : LogEntry) {f : File}
    (hmax : f.pos + (recordBytes c e).length ≤ maxFileLen)
    {Q : Except StorageError ℕ × File → Prop}
    (hok : Q (.ok f.pos, ⟨f.ino, f.pos + (recordBytes c e).length⟩))
    (herr : ∀ err p, Q (.error err, ⟨f.ino, p⟩)) : Flows NoFail (writeRecord c e f) Q := by
  unfold writeRecord
  split_ifs
  · exact herr _ _
  · exact herr _ _
  · exact herr _ _
  · refine Flows.bindP (Flows.mapError (flows_streamPosition ?_))
    refine Flows.bindP (Flows.attempt (Flows.writeAll hmax hok fun k p => ?_))
    refine Flows.bindP (Flows.attempt (Flows.op trivial fun r _ => ?_))
    cases r with
    | ok _ => exact herr _ _
    | error k => exact herr _ _

theorem flows_writeBatch (ts : ℕ) (producerId : String) (batchStart offset : ℕ)
    (events : List OtkEvent) {f : File}
    (hmax : f.pos + eventsLen c producerId events ≤ maxFileLen)
    {Q : Except StorageError (List ℕ) × File → Prop}
    (hok : ∀ positions, positions.length = events.length →
      Q (.ok positions, ⟨f.ino, f.pos + eventsLen c producerId events⟩))
    (herr : ∀ err p, Q (.error err, ⟨f.ino, p⟩)) :
    Flows NoFail (writeBatch c ts producerId batchStart offset events f) Q := by
  induction events generalizing offset f Q with
  | nil => exact hok [] rfl
  | cons event rest ih =>
    have hback : ∀ err p, Flows NoFail ((do
        let _ ← Proc.attempt (File.setLen FileName batchStart)
        Proc.throw err : Io File (List ℕ)) ⟨f.ino, p⟩) Q := by
      intro err p
      refine Flows.bindP (Flows.attempt (Flows.op trivial fun r _ => ?_))
      cases r with
      | ok _ => exact herr _ _
      | error k => exact herr _ _
    have hsum : eventsLen c producerId (event :: rest) =
        30 + (producerIdBytes producerId).length + (c.encode event).length +
          eventsLen c producerId rest := by
      simp [eventsLen]
    have hlen : (recordBytes c ⟨offset, ts, producerId, event⟩).length =
        30 + (producerIdBytes producerId).length + (c.encode event).length := by
      simp only [length_recordBytes, payloadLen]
      omega
    rw [hsum] at hmax hok
    rw [writeBatch]
    split_ifs
    · exact hback _ _
    · refine Flows.bindP (Flows.attempt (flows_writeRecord _ (by omega) ?_ fun err p => hback _ _))
      refine Flows.bindP (ih (offset + 1) ?_ (fun positions hp => ?_) fun err p => ?_)
      · dsimp only
        omega
      · have hfin := hok (f.pos :: positions) (by simp [hp])
        rw [← Nat.add_assoc] at hfin
        rw [hlen]
        exact hfin
      · exact herr _ _

theorem flows_syncBatch (flush batchStart : ℕ) {f : File} {Q : Except StorageError Unit × File → Prop}
    (hok : Q (.ok (), f)) (herr : ∀ err p, Q (.error err, ⟨f.ino, p⟩)) :
    Flows NoFail (syncBatch flush batchStart f) Q := by
  unfold syncBatch
  split_ifs
  · refine Flows.bindP (Flows.attempt (Flows.op trivial fun r _ => ?_))
    cases r with
    | ok _ => exact hok
    | error k =>
      refine Flows.bindP (Flows.attempt (Flows.op trivial fun r _ => ?_))
      cases r with
      | ok _ => exact herr _ _
      | error k' => exact herr _ _
  · exact hok

theorem flows_batchEnd {f : File} {Q : Except StorageError (Except IoErrorKind ℕ) × File → Prop}
    (hok : Q (.ok (.ok f.pos), f)) :
    Flows NoFail ((Proc.attempt batchEnd : Io File _) f) Q :=
  Flows.attempt (Flows.bindP (Flows.attempt (flows_streamPosition hok)))

structure Roomy (c : Codec) (producerId : String) (events : List OtkEvent) (l : Log) : Prop where
  records : (l.active.map ActiveSegment.nextFilePos).getD headerLen +
    eventsLen c producerId events + 4 ≤ maxFileLen
  index : 8 * ((l.active.map fun a => a.positions.length).getD 0 + events.length) ≤ maxFileLen

theorem flows_writeFile {x : FileName} {bytes : List UInt8} {l : Log}
    (hmax : bytes.length ≤ maxFileLen) {t : Io Log Unit} {Q : Except StorageError Unit × Log → Prop}
    (ht : Flows NoFail (t l) Q) (herr : ∀ err, Q (.error err, l)) :
    Flows NoFail ((do
      let ino ← call (Prog.op (Op.openWrite x true))
      let (_, f) ← (onFile (File.writeAll _ bytes)).on ⟨ino, 0⟩
      let _ ← (onFile (File.sync _)).on f
      t : Io Log Unit) l) Q := by
  refine Flows.bindP (Flows.mapError (Flows.liftE (Flows.op (by trivial) fun r _ => ?_)))
  cases r with
  | error k => exact herr _
  | ok ino =>
    refine Flows.bindP (Flows.on (Flows.mapError (Flows.writeAll (by simpa using hmax) ?_
      fun k p => herr _)))
    refine Flows.bindP (Flows.on (Flows.mapError (Flows.op (by trivial) fun r _ => ?_)))
    cases r with
    | error k => exact herr _
    | ok _ => exact ht

/-- A file written under a temporary name and renamed into place. -/
theorem flows_replace {x y : FileName} {bytes : List UInt8} {l : Log}
    (hmax : bytes.length ≤ maxFileLen) {Q : Except StorageError Unit × Log → Prop}
    (hok : Q (.ok (), l)) (herr : ∀ err, Q (.error err, l)) :
    Flows NoFail ((do
      let ino ← call (Prog.op (Op.openWrite x true))
      let (_, f) ← (onFile (File.writeAll _ bytes)).on ⟨ino, 0⟩
      let _ ← (onFile (File.sync _)).on f
      call (Prog.op (Op.rename x y))
      let _ ← Proc.lift (Prog.op Op.syncDir) : Io Log Unit) l) Q := by
  refine flows_writeFile hmax ?_ herr
  refine Flows.bindP (Flows.mapError (Flows.liftE (Flows.op (by trivial) fun r _ => ?_)))
  cases r with
  | error k => exact herr _
  | ok _ => exact Flows.bindP (Flows.lift (Flows.op (by trivial) fun _ _ => hok))

theorem free_evictFront (front : ClosedSegment) : Free fails (evictFront front) := by
  refine Free.bind ((Free.lift (by trivial)).bind fun r => ?_) fun _ => .modify _
  have hrest : Free fails (do
      let _ ← Proc.lift (Prog.op (Op.unlink (.idx front.baseOffset)))
      let _ ← Proc.lift (Prog.op Op.syncDir) : Io Log Unit) :=
    (Free.lift (by trivial)).bind fun _ => (Free.lift (by trivial)).bind fun _ => .pure _
  match r with
  | .ok () => exact hrest
  | .error .notFound => exact hrest
  | .error .unexpectedEof => exact .throw _
  | .error .writeZero => exact .throw _
  | .error .other => exact .throw _

theorem free_enforceRetention : Free fails enforceRetention := by
  have hage : ∀ n, Free fails (retainByAge n) := fun n => by
    refine free_nowNs.bind fun now => Free.get.bind fun l => ?_
    induction l.closed with
    | nil => exact .pure _
    | cons front rest ih =>
      rw [evictOlder]
      split_ifs
      · exact (free_evictFront front).bind fun _ => ih
      · exact .pure _
  have hsize : ∀ n, Free fails (retainBySize n) := fun n => by
    refine Free.get.bind fun l => ?_
    generalize ((l.closed.map ClosedSegment.byteSize).sum +
      (l.active.map ActiveSegment.byteSize).getD 0) % 2 ^ 64 = total
    induction l.closed generalizing total with
    | nil => exact .pure _
    | cons front rest ih =>
      dsimp only at ih ⊢
      rw [evictLarger]
      split_ifs
      · exact (free_evictFront front).bind fun _ => ih _
      · exact .pure _
  refine Free.get.bind fun l => ?_
  cases l.config.retention with
  | indefinite => exact .pure _
  | timeBased n => exact hage n
  | sizeBased n => exact hsize n
  | hybrid n k => exact (hage n).bind fun _ => hsize k

/-- Closing a segment whose sentinel and index have room, up to retention. -/
theorem flows_closeActive {l : Log} {a : ActiveSegment} (ha : l.active = some a)
    (hpos : a.file.pos + 4 ≤ maxFileLen) (hidx : 8 * a.positions.length ≤ maxFileLen)
    {Q : Except StorageError Unit × Log → Prop}
    (hok : ∀ cs l', cs.positions = a.positions → l'.config = l.config →
      l'.closed = l.closed ++ [cs] → Flows NoFail (enforceRetention l') Q)
    (herr : ∀ err l', Q (.error err, l')) : Flows NoFail (closeActive a l) Q := by
  have hsentinel : Flows NoFail (onActive (writeSentinel a.nextFilePos) l) fun x =>
      ∃ f, x.2 = l.setFile f := by
    refine flows_onActive ha ?_
    refine Flows.bindP (Flows.mapError (Flows.op (by trivial) fun r _ => ?_))
    cases r with
    | error e => exact ⟨_, rfl⟩
    | ok _ =>
      refine Flows.bindP (Flows.mapError (Flows.writeAll (by simpa using hpos) ?_
        fun _ _ => ⟨_, rfl⟩))
      refine Flows.bindP (Flows.attempt (Flows.op (by trivial) fun r _ => ?_))
      cases r with
      | ok _ => exact ⟨_, rfl⟩
      | error e =>
        refine ((((Free.setLen a.nextFilePos).attempt).bind fun _ =>
          ((Free.seek a.nextFilePos).attempt).bind fun _ => .throw _ : Free NoFail _) _).mono ?_
        intro x _
        exact ⟨_, rfl⟩
  refine Flows.bindP (hsentinel.mono ?_)
  rintro ⟨r, l₁⟩ ⟨f, rfl⟩
  cases r with
  | error e => exact herr _ _
  | ok _ =>
    -- Past the sentinel only new files are written.
    refine Flows.bindP (Flows.attempt (flows_replace (by simpa using hidx) ?_ fun err => ?_))
    · refine Flows.bindP (flows_onActive (Log.setFile_active ha) (Flows.attempt (Flows.op
        (by trivial) fun r _ => ?_)))
      refine Flows.modifyP (Flows.getP (Flows.bindP (flows_replace (by simp [maxFileLen]) ?_
        fun err => herr _ _)))
      exact hok _ _ rfl rfl rfl
    · refine Flows.bindP ((free_onActive ((Free.setLen _).attempt.bind fun _ =>
        (Free.seek _).attempt.bind fun _ => .pure _) _).mono ?_)
      rintro ⟨r, l'⟩ -
      cases r with
      | error e => exact herr _ _
      | ok _ => exact herr _ _

theorem flows_shouldRoll (l : Log) :
    Flows NoFail (shouldRoll l) fun x => x.2 = l ∧ ∃ b, x.1 = .ok b ∧
      (l.active.isSome = true → l.config.maxSegmentAgeSecs = 0 → b = true) := by
  refine Flows.getP ?_
  cases l.active with
  | none => exact ⟨rfl, _, rfl, by simp⟩
  | some a =>
    dsimp only
    split_ifs
    · exact ⟨rfl, _, rfl, fun _ _ => rfl⟩
    · refine Flows.bindP (Flows.lift (Flows.op (by trivial) fun now _ => ?_))
      exact ⟨rfl, _, rfl, fun _ hage => by simp [hage, satMul]⟩

/-- With an age limit of zero and indefinite retention, success means that a
segment of `count` records was closed. -/
def Closes (count : ℕ) (l : Log) (x : Except StorageError ℕ × Log) : Prop :=
  l.config.maxSegmentAgeSecs = 0 → l.config.retention = .indefinite → ∀ n, x.1 = .ok n →
    ∃ cs : ClosedSegment, cs.positions.length = count ∧ x.2.closed = l.closed ++ [cs]

theorem flows_appendRoll {l : Log} {a : ActiveSegment} (ha : l.active = some a)
    (hpos : a.file.pos + 4 ≤ maxFileLen) (hidx : 8 * a.positions.length ≤ maxFileLen)
    (hne : a.positions ≠ []) :
    Flows NoFail (appendRoll l) (Closes a.positions.length l) := by
  have herr : ∀ (err : StorageError) (l' : Log), Closes a.positions.length l (.error err, l') := by
    intro err l' _ _ n hn
    simp at hn
  refine Flows.bindP ((flows_shouldRoll l).mono ?_)
  rintro ⟨r, l'⟩ ⟨hl, b, hr, hb⟩
  obtain rfl : l' = l := hl
  obtain rfl : r = .ok b := hr
  cases b with
  | false =>
    intro hage
    simp [ha, hage] at hb
  | true =>
    refine Flows.bindP (Flows.getP ?_)
    rw [ha]
    dsimp only
    rw [if_neg hne]
    refine flows_closeActive ha hpos hidx (fun cs l₁ hcs hconfig hclosed => ?_) herr
    by_cases hret : l₁.config.retention = .indefinite
    · have hkeep : enforceRetention l₁ = .pure (.ok (), l₁) := by
        unfold enforceRetention
        simp [Proc.bind_apply, hret]
      rw [hkeep]
      exact fun _ _ _ _ => ⟨cs, by rw [hcs], hclosed⟩
    · refine (free_enforceRetention l₁).mono ?_
      rintro ⟨r, l₂⟩ -
      cases r with
      | error err => exact herr _ _
      | ok _ =>
        intro _ hindef
        rw [hconfig] at hret
        exact absurd hindef hret

/-- `ensure_active` leaves an active segment whose records end where they did. -/
theorem flows_ensureActive (l : Log) {Q : Except StorageError Unit × Log → Prop}
    (hok : ∀ a l', l'.active = some a → l'.config = l.config → l'.closed = l.closed →
      a.nextFilePos = (l.active.map ActiveSegment.nextFilePos).getD headerLen →
      a.positions.length = (l.active.map fun a => a.positions.length).getD 0 → Q (.ok (), l'))
    (herr : ∀ err, Q (.error err, l)) : Flows NoFail (ensureActive l) Q := by
  refine Flows.getP ?_
  cases ha : l.active with
  | some a => exact hok a l ha rfl rfl (by simp [ha]) (by simp [ha])
  | none =>
    refine Flows.bindP (Flows.lift (Flows.op (by trivial) fun ts _ => ?_))
    refine Flows.bindP (Flows.mapError (Flows.liftE (Flows.op (by trivial) fun r _ => ?_)))
    cases r with
    | error k => exact herr _
    | ok ino =>
      refine Flows.bindP (Flows.on (Flows.mapError (Flows.writeAll (by simp [maxFileLen]) ?_
        fun k p => herr _)))
      refine Flows.bindP (Flows.lift (Flows.op (by trivial) fun r _ => ?_))
      exact hok _ _ rfl rfl rfl (by simp [ha]) (by simp [ha])

/-- `append` can be run to its end when its files have room. -/
theorem flows_append {producerId : String} {events : List OtkEvent} {l : Log}
    (h : Roomy c producerId events l) :
    Flows NoFail (append c producerId events l)
      (Closes ((l.active.map fun a => a.positions.length).getD 0 + events.length) l) := by
  generalize hcount : (l.active.map fun a => a.positions.length).getD 0 + events.length = count
  have herr : ∀ (err : StorageError) (l' : Log), Closes count l (.error err, l') := by
    intro err l' _ _ n hn
    simp at hn
  refine Flows.bindP (Flows.getP ?_)
  split_ifs with hpoison hempty hname
  · exact herr _ _
  · exact herr _ _
  · exact herr _ _
  refine Flows.bindP (flows_ensureActive l (fun a l₁ ha hconfig hclosed hpos hlen => ?_)
    fun _ => herr _ _)
  refine Flows.bindP (Flows.lift (Flows.op (by trivial) fun ts _ => Flows.getP ?_))
  have hstart : (l₁.active.map ActiveSegment.nextFilePos).getD 0 = a.nextFilePos := by simp [ha]
  have hrec := h.records
  have hidx := h.index
  rw [← hpos] at hrec
  rw [← hlen] at hidx hcount
  simp only [hstart]
  refine Flows.bindP (flows_onActive ha (Flows.mapError (flows_seek ?_)))
  refine Flows.bindP (flows_onActive (Log.setFile_active ha) (flows_writeBatch _ _ _ _ _ ?_
    (fun positions hp => ?_) fun _ _ => herr _ _))
  · dsimp only
    omega
  refine Flows.bindP (flows_onActive (Log.setFile_active (Log.setFile_active ha))
    (flows_syncBatch _ _ ?_ fun _ _ => herr _ _))
  refine Flows.bindP (flows_onActive
    (Log.setFile_active (Log.setFile_active (Log.setFile_active ha))) (flows_batchEnd ?_))
  refine Flows.modifyP (Flows.lift (Flows.op (by trivial) fun _ _ => ?_))
  have hlength : (a.positions ++ positions).length = count := by rw [List.length_append, hp, hcount]
  have hne : a.positions ++ positions ≠ [] := by
    have hpos := List.length_pos_of_ne_nil hempty
    exact List.ne_nil_of_length_pos (by omega)
  refine (flows_appendRoll (a := { a with
    file := ⟨a.file.ino, a.nextFilePos + eventsLen c producerId events⟩
    positions := a.positions ++ positions
    nextFilePos := a.nextFilePos + eventsLen c producerId events
    byteSize := a.nextFilePos + eventsLen c producerId events - headerLen
    lastAppendedAtNs := ts }) ?_ hrec ?_ hne).mono ?_
  · simp [Log.setFile, ha]
  · simpa [hp] using hidx
  · intro x hx hage hret n hn
    obtain ⟨cs, hcs, hx⟩ := hx (by rw [← hage, ← hconfig]; rfl) (by rw [← hret, ← hconfig]; rfl) n hn
    exact ⟨cs, hcs.trans hlength, hx.trans (by rw [← hclosed]; rfl)⟩

end OtkCore.SegmentLog
