import OtkCore.Lib.QueuedFile
import OtkCore.SegmentLog.Log

/-!
# The log on queued handles

The handles of the log queue their writes: the error of a failing write comes
back from the next write on the same handle, and is lost with the handle. These
are the procedures of the log that write, on such handles; those that only read,
cut, sync or delete are taken over. As long as no write fails they do what the
procedures on plain handles do.
-/
namespace OtkCore.SegmentLog.Queued

open Effect FileIO Bytes

/-- A state with the error that the handle of its active segment keeps. -/
structure Deferred (σ : Type) where
  state : σ
  failed : Option IoErrorKind
  deriving DecidableEq

def Deferred.clean {σ : Type} (s : σ) : Deferred σ := ⟨s, none⟩

section Procedures

variable {α σ : Type}

/-- A procedure that waits for the worker and writes nothing. -/
def settled {ε : Type} (t : Proc (Resp (N := FileName)) ε File α) :
    Proc (Resp (N := FileName)) ε QueuedFile α :=
  t.zoom QueuedFile.file fun f h => { h with file := f }

/-- A procedure that writes nothing to the active segment. -/
def onState (t : Io σ α) : Io (Deferred σ) α := t.zoom Deferred.state fun s x => { x with state := s }

/-- A procedure on a handle whose error is passed on with `?`. -/
def onHandle (t : QueuedProc FileName α) : Io QueuedFile α := t.mapError .io

def writeHeader (h : SegmentHeader) : Io QueuedFile Unit := onHandle (QueuedFile.writeAll _ h.bytes)

/-- Write one entry at the cursor and return where it begins. What is cut off
here is left by an earlier write, whose error this one returns. -/
def writeRecord (c : Codec) (e : LogEntry) : Io QueuedFile ℕ :=
  let cbor := c.encode e.event
  let producerId := producerIdBytes e.producerId
  if cbor.length > maxEventCbor then
    Proc.throw (.invalidInput ("event CBOR (" ++ toString cbor.length ++
      " bytes) exceeds maximum record size (" ++ toString maxEventCbor ++ " bytes)"))
  else if producerId = [] then
    Proc.throw (.invalidInput "producer_id must not be empty")
  else if producerId.length > maxProducerIdBytes then
    Proc.throw (.invalidInput ("producer_id (" ++ toString producerId.length ++
      " bytes) exceeds maximum length (" ++ toString maxProducerIdBytes ++ " bytes)"))
  else do
    let recordStart ← settled (onFile (File.streamPosition _))
    match ← Proc.attempt (QueuedFile.writeAll _ (recordBytes c e)) with
    | .error k => do
      let _ ← settled (Proc.attempt (File.setLen FileName recordStart))
      Proc.throw (.io k)
    | .ok () => pure recordStart

def writeIndex (base : ℕ) (positions : List ℕ) : Io σ Unit := do
  let ino ← call (Prog.op (Op.openWrite (.idxTmp base) true))
  let (_, tmp) ← (onHandle (QueuedFile.writeAll _ (indexBytes positions))).on (.clean ⟨ino, 0⟩)
  let _ ← (onFile (File.sync _)).on tmp.file
  call (Prog.op (Op.rename (.idxTmp base) (.idx base)))
  let _ ← Proc.lift (Prog.op Op.syncDir)

def writeWatermark (nextOffset : ℕ) : Io σ Unit := do
  let ino ← call (Prog.op (Op.openWrite .watermarkTmp true))
  let (_, f) ← (onHandle (QueuedFile.writeAll _ (le 8 nextOffset))).on (.clean ⟨ino, 0⟩)
  let _ ← (onFile (File.sync _)).on f.file
  call (Prog.op (Op.rename .watermarkTmp .watermark))
  let _ ← Proc.lift (Prog.op Op.syncDir)

end Procedures

def openHeader (base : ℕ) : Io QueuedFile ℕ := do
  let fileLen ← settled (onFile (File.len _))
  if fileLen ≥ headerLen then do
    let hdr ← settled SegmentHeader.read
    if hdr.baseOffset ≠ base then
      Proc.throw (.corrupted ("active segment " ++ pad20 base ++ ": header base_offset " ++
        toString hdr.baseOffset ++ " does not match filename"))
    else pure hdr.createdAtNs
  else do
    let ts ← nowNs
    settled (onFile (File.setLen _ 0))
    settled (onFile (File.seek _ 0))
    writeHeader ⟨base, ts⟩
    pure ts

def recoverFile (c : Codec) (base : ℕ) : Io QueuedFile (ℕ × List ℕ × ℕ × ℕ × ℕ) := do
  let createdAtNs ← openHeader base
  -- The scan asks for the length without waiting for a new header to be written;
  -- with it or without it there is nothing to scan.
  let (positions, nextFilePos, recordCount) ← settled (recoverActive c base)
  match positions.getLast? with
  | none => pure (createdAtNs, positions, nextFilePos, recordCount, 0)
  | some lastPos => do
    let last ← settled (readRecord c lastPos)
    pure (createdAtNs, positions, nextFilePos, recordCount, last.appendedAtNs)

def openActive (c : Codec) (base : ℕ) : Io (Deferred OpenState) Unit := do
  onState discardOrphan
  let ino ← call (Prog.op (Op.openWrite (.seg base) false))
  let ((createdAtNs, positions, nextFilePos, recordCount, lastAppendedAtNs), handle) ←
    (recoverFile c base).on (.clean ⟨ino, 0⟩)
  if base + recordCount ≥ 2 ^ 64 then
    Proc.throw (.corrupted ("active segment " ++ pad20 base ++
      ": base + record_count overflows u64"))
  else
    Proc.modify fun s =>
      ⟨{ s.state with
        nextOffset := base + recordCount
        active := some ⟨base, .seg base, handle.file, positions, nextFilePos - headerLen,
          createdAtNs, nextFilePos, lastAppendedAtNs⟩ }, handle.failed⟩

def openSegments (c : Codec) (dir : String) : List ℕ → Io (Deferred OpenState) Unit
  | [] => pure ()
  | base :: rest => do
    if ← onState (idxExists base) then onState (openClosed c dir base) else openActive c base
    openSegments c dir rest

def openLog (c : Codec) (config : SegmentLogConfig) : Io (Deferred OpenState) Log := do
  call (Prog.op Op.makeDir)
  let slots ← call (Prog.op Op.readDir)
  let bases ← onState (scanDir slots)
  openSegments c config.dir (bases.mergeSort (· ≤ ·))
  let s ← Proc.get
  let nextOffset ←
    if s.state.nextOffset = 0 ∧ s.state.closed = [] ∧ s.state.active = none then do
      match ← onState readWatermark with
      | some wm => pure wm
      | none => pure s.state.nextOffset
    else pure s.state.nextOffset
  pure ⟨config, s.state.closed, s.state.active, nextOffset, false⟩

/-- `SegmentLog::open`. -/
def openDir (c : Codec) (config : SegmentLogConfig) :
    Prog (Resp (N := FileName)) (Except StorageError (Deferred Log)) :=
  openLog c config (.clean ⟨[], none, 0⟩) >>= fun x => .pure (x.1.map fun l => ⟨l, x.2.failed⟩)

def ensureActive : Io (Deferred Log) Unit := do
  let s ← Proc.get
  match s.state.active with
  | some _ => pure ()
  | none =>
    let base := s.state.nextOffset
    let ts ← nowNs
    let ino ← call (Prog.op (Op.openWrite (.seg base) true))
    let (_, handle) ← (writeHeader ⟨base, ts⟩).on (.clean ⟨ino, 0⟩)
    let _ ← Proc.lift (Prog.op Op.syncDir)
    Proc.modify fun s =>
      ⟨{ s.state with active := some ⟨base, .seg base, handle.file, [], 0, ts, headerLen, 0⟩ },
        handle.failed⟩

/-- Run a procedure on the active segment's handle. -/
def onActive {α : Type} (t : Io QueuedFile α) : Io (Deferred Log) α := fun s =>
  match s.state.active with
  | none => .pure (.error (.corrupted "no active segment"), s)
  | some a => t ⟨a.file, s.failed⟩ >>= fun (r, handle) =>
      .pure (r, ⟨{ s.state with
        active := s.state.active.map fun a => { a with file := handle.file } }, handle.failed⟩)

def writeBatch (c : Codec) (ts : ℕ) (producerId : String) (batchStart : ℕ) :
    ℕ → List OtkEvent → Io QueuedFile (List ℕ)
  | _, [] => pure []
  | offset, event :: rest =>
    if offset = 2 ^ 64 - 1 then do
      let _ ← settled (Proc.attempt (File.setLen FileName batchStart))
      Proc.throw (.invalidInput "offset space exhausted")
    else do
      match ← Proc.attempt (writeRecord c ⟨offset, ts, producerId, event⟩) with
      | .ok pos => do
        let positions ← writeBatch c ts producerId batchStart (offset + 1) rest
        pure (pos :: positions)
      | .error e => do
        let _ ← settled (Proc.attempt (File.setLen FileName batchStart))
        Proc.throw e

/-- `append` up to and including the wake-up of the subscriptions. Nothing in it
asks for the error of the last record's write. -/
def appendCommit (c : Codec) (producerId : String) (events : List OtkEvent) :
    Io (Deferred Log) Unit := do
  let s ← Proc.get
  if s.state.poisoned then
    Proc.throw (.corrupted ("log is poisoned: position query failed after a durable write; " ++
      "reopen the log to recover"))
  else if events = [] then Proc.throw (.invalidInput "events slice must not be empty")
  else if producerId = "" then Proc.throw (.invalidInput "producer_id must not be empty")
  else do
    ensureActive
    let ts ← nowNs
    let s ← Proc.get
    let batchStart := (s.state.active.map ActiveSegment.nextFilePos).getD 0
    onActive (settled (onFile (File.seek _ batchStart)))
    let newPositions ← onActive (writeBatch c ts producerId batchStart s.state.nextOffset events)
    onActive (settled (syncBatch s.state.config.flushIntervalMs batchStart))
    match ← onActive (settled (Proc.attempt batchEnd)) with
    | .error k => do
      Proc.modify fun s => { s with state := { s.state with poisoned := true } }
      Proc.throw (.io k)
    | .ok newFilePos => do
      Proc.modify fun s =>
        { s with
          state := { s.state with
            active := s.state.active.map fun a =>
              { a with
                positions := a.positions ++ newPositions
                nextFilePos := newFilePos
                byteSize := newFilePos - headerLen
                lastAppendedAtNs := ts }
            nextOffset := s.state.nextOffset + events.length } }
      Proc.lift (Prog.op Op.notify)

def writeSentinel (sentinelPos : ℕ) : Io QueuedFile Unit := do
  settled (onFile (File.sync _))
  onHandle (QueuedFile.writeAll _ sentinel)
  match ← settled (Proc.attempt (File.sync FileName)) with
  | .ok () => pure ()
  | .error k => do
    let _ ← settled (Proc.attempt (File.setLen FileName sentinelPos))
    let _ ← settled (Proc.attempt (File.seek FileName sentinelPos))
    Proc.throw (.io k)

def closeActive (a : ActiveSegment) : Io (Deferred Log) Unit := do
  onActive (writeSentinel a.nextFilePos)
  match ← Proc.attempt (writeIndex a.baseOffset a.positions) with
  | .error e => do
    onActive (settled do
      let _ ← Proc.attempt (File.setLen FileName a.nextFilePos)
      let _ ← Proc.attempt (File.seek FileName a.nextFilePos))
    Proc.throw e
  | .ok () => do
    let r ← onActive (settled (Proc.attempt (File.len FileName)))
    let segSize := match r with
      | .ok n => n
      | .error _ => a.nextFilePos
    Proc.modify fun s =>
      .clean { s.state with
        active := none
        closed := s.state.closed ++ [⟨a.baseOffset, a.baseOffset + a.positions.length - 1,
          a.lastAppendedAtNs, segSize, a.path, a.positions⟩] }
    let s ← Proc.get
    writeWatermark s.state.nextOffset
    onState enforceRetention

def rollSegment : Io (Deferred Log) Unit := do
  let s ← Proc.get
  match s.state.active with
  | none => pure ()
  | some a =>
    if a.positions = [] then do
      Proc.modify fun s => .clean { s.state with active := none }
      let _ ← Proc.lift (Prog.op (Op.unlink a.path))
    else closeActive a

def appendRoll : Io (Deferred Log) ℕ := do
  if ← onState shouldRoll then rollSegment
  let s ← Proc.get
  pure (s.state.nextOffset - 1)

/-- `SegmentLog::append`. -/
def append (c : Codec) (producerId : String) (events : List OtkEvent) : Io (Deferred Log) ℕ := do
  appendCommit c producerId events
  appendRoll

/-- `SegmentLog::read_range`. -/
def readRange (c : Codec) (start : ℕ) (stop : Option ℕ) : Io (Deferred Log) (List LogEntry) :=
  onState (SegmentLog.readRange c start stop)

section Mirrored

variable {α σ τ : Type} {f : σ → τ}

theorem mirrors_settled {ε : Type} (t : Proc (Resp (N := FileName)) ε File α) :
    MirrorsP QueuedFile.clean (settled t) t :=
  .zoom (fun _ => rfl) fun _ _ => rfl

theorem mirrors_onState (t : Io σ α) : MirrorsP Deferred.clean (onState t) t :=
  .zoom (fun _ => rfl) fun _ _ => rfl

theorem mirrors_call (p : Prog (Resp (N := FileName)) (Except IoErrorKind α)) :
    MirrorsP f (call p) (call p) :=
  (MirrorsP.liftE p).mapError _

theorem mirrors_nowNs : MirrorsP f nowNs nowNs := .lift _

theorem mirrors_write (bytes : List UInt8) :
    MirrorsP QueuedFile.clean (onHandle (QueuedFile.writeAll _ bytes))
      (onFile (File.writeAll _ bytes)) :=
  (mirrors_writeAll bytes).mapError _

theorem mirrors_writeRecord (c : Codec) (e : LogEntry) :
    MirrorsP QueuedFile.clean (writeRecord c e) (SegmentLog.writeRecord c e) := by
  unfold writeRecord SegmentLog.writeRecord
  dsimp only
  split_ifs
  · exact .throw _
  · exact .throw _
  · exact .throw _
  refine (mirrors_settled _).bind fun start => ?_
  refine .bind (.attempt (mirrors_writeAll _)) fun r => ?_
  cases r with
  | error k => exact (mirrors_settled _).bind fun _ => .throw _
  | ok _ => exact .pure _

theorem mirrors_writeIndex (base : ℕ) (positions : List ℕ) :
    MirrorsP f (writeIndex base positions) (SegmentLog.writeIndex base positions) := by
  refine (mirrors_call _).bind fun ino => ?_
  refine (mirrors_write _).bind_on ⟨ino, 0⟩ fun _ file => ?_
  refine (MirrorsP.on _ file).bind fun _ => ?_
  exact (mirrors_call _).bind fun _ => (MirrorsP.lift _).bind fun _ => .pure _

theorem mirrors_writeWatermark (nextOffset : ℕ) :
    MirrorsP f (writeWatermark nextOffset) (SegmentLog.writeWatermark nextOffset) := by
  refine (mirrors_call _).bind fun ino => ?_
  refine (mirrors_write _).bind_on ⟨ino, 0⟩ fun _ file => ?_
  refine (MirrorsP.on _ file).bind fun _ => ?_
  exact (mirrors_call _).bind fun _ => (MirrorsP.lift _).bind fun _ => .pure _

theorem mirrors_openHeader (base : ℕ) :
    MirrorsP QueuedFile.clean (openHeader base) (SegmentLog.openHeader base) := by
  refine (mirrors_settled _).bind fun fileLen => ?_
  split_ifs
  · refine (mirrors_settled _).bind fun hdr => ?_
    split_ifs
    · exact .throw _
    · exact .pure _
  · refine mirrors_nowNs.bind fun ts => ?_
    refine (mirrors_settled _).bind fun _ => (mirrors_settled _).bind fun _ => ?_
    exact (mirrors_write _).bind fun _ => .pure _

theorem mirrors_recoverFile (c : Codec) (base : ℕ) :
    MirrorsP QueuedFile.clean (recoverFile c base) (SegmentLog.recoverFile c base) := by
  refine (mirrors_openHeader base).bind fun createdAtNs => ?_
  refine (mirrors_settled _).bind ?_
  rintro ⟨positions, nextFilePos, recordCount⟩
  dsimp only
  cases positions.getLast? with
  | none => exact .pure _
  | some lastPos => exact (mirrors_settled _).bind fun _ => .pure _

theorem mirrors_openActive (c : Codec) (base : ℕ) :
    MirrorsP Deferred.clean (openActive c base) (SegmentLog.openActive c base) := by
  refine (mirrors_onState _).bind fun _ => ?_
  refine (mirrors_call _).bind fun ino => ?_
  refine (mirrors_recoverFile c base).bind_on ⟨ino, 0⟩ ?_
  rintro ⟨createdAtNs, positions, nextFilePos, recordCount, lastAppendedAtNs⟩ file
  dsimp only
  split_ifs
  · exact .throw _
  · exact .modify fun _ => rfl

theorem mirrors_openSegments (c : Codec) (dir : String) (bases : List ℕ) :
    MirrorsP Deferred.clean (openSegments c dir bases) (SegmentLog.openSegments c dir bases) := by
  induction bases with
  | nil => exact .pure _
  | cons base rest ih =>
    refine (mirrors_onState _).bind fun found => ?_
    cases found with
    | true => exact (mirrors_onState _).bind fun _ => ih
    | false => exact (mirrors_openActive c base).bind fun _ => ih

theorem mirrors_openLog (c : Codec) (config : SegmentLogConfig) :
    MirrorsP Deferred.clean (openLog c config) (SegmentLog.openLog c config) := by
  refine (mirrors_call _).bind fun _ => (mirrors_call _).bind fun slots => ?_
  refine (mirrors_onState _).bind fun bases => ?_
  refine (mirrors_openSegments c config.dir _).bind fun _ => ?_
  refine .bind_get fun s => ?_
  dsimp only [Deferred.clean]
  split_ifs
  · refine (mirrors_onState _).bind fun wm => ?_
    cases wm with
    | some wm => exact (MirrorsP.pure wm).bind fun _ => .pure _
    | none => exact (MirrorsP.pure s.nextOffset).bind fun _ => .pure _
  · exact (MirrorsP.pure s.nextOffset).bind fun _ => .pure _

theorem mirrors_openDir (c : Codec) (config : SegmentLogConfig) :
    Mirrors (Except.map Deferred.clean) (openDir c config) (SegmentLog.openDir c config) :=
  (mirrors_openLog c config _).bind fun x => .pure x.1

theorem mirrors_ensureActive : MirrorsP Deferred.clean ensureActive SegmentLog.ensureActive := by
  refine .bind_get fun s => ?_
  dsimp only [Deferred.clean]
  cases s.active with
  | some a => exact .pure _
  | none =>
    refine mirrors_nowNs.bind fun ts => (mirrors_call _).bind fun ino => ?_
    refine (mirrors_write _).bind_on ⟨ino, 0⟩ fun _ file => ?_
    exact (MirrorsP.lift _).bind fun _ => .modify fun _ => rfl

theorem mirrors_onActive {t' : Io QueuedFile α} {t : Io File α}
    (h : MirrorsP QueuedFile.clean t' t) :
    MirrorsP Deferred.clean (onActive t') (SegmentLog.onActive t) := by
  intro s
  unfold onActive SegmentLog.onActive
  dsimp only [Deferred.clean]
  cases s.active with
  | none => exact .done Deferred.clean (.error _, s)
  | some a => exact (h a.file).bind fun x => .done Deferred.clean (x.1, _)

theorem mirrors_writeBatch (c : Codec) (ts : ℕ) (producerId : String) (batchStart offset : ℕ)
    (events : List OtkEvent) :
    MirrorsP QueuedFile.clean (writeBatch c ts producerId batchStart offset events)
      (SegmentLog.writeBatch c ts producerId batchStart offset events) := by
  induction events generalizing offset with
  | nil => exact .pure _
  | cons event rest ih =>
    rw [writeBatch, SegmentLog.writeBatch]
    split_ifs
    · exact (mirrors_settled _).bind fun _ => .throw _
    · refine .bind (.attempt (mirrors_writeRecord c _)) fun r => ?_
      cases r with
      | ok pos => exact (ih _).bind fun _ => .pure _
      | error e => exact (mirrors_settled _).bind fun _ => .throw _

theorem mirrors_appendCommit (c : Codec) (producerId : String) (events : List OtkEvent) :
    MirrorsP Deferred.clean (appendCommit c producerId events)
      (SegmentLog.appendCommit c producerId events) := by
  refine .bind_get fun s => ?_
  dsimp only [Deferred.clean]
  split_ifs
  · exact .throw _
  · exact .throw _
  · exact .throw _
  refine mirrors_ensureActive.bind fun _ => mirrors_nowNs.bind fun ts => .bind_get fun s₁ => ?_
  refine (mirrors_onActive (mirrors_settled _)).bind fun _ => ?_
  refine (mirrors_onActive (mirrors_writeBatch c ts producerId _ _ events)).bind fun positions => ?_
  refine (mirrors_onActive (mirrors_settled _)).bind fun _ => ?_
  refine (mirrors_onActive (mirrors_settled _)).bind fun r => ?_
  cases r with
  | error k => exact .bind (.modify fun _ => rfl) fun _ => .throw _
  | ok pos => exact .bind (.modify fun _ => rfl) fun _ => .lift _

theorem mirrors_writeSentinel (sentinelPos : ℕ) :
    MirrorsP QueuedFile.clean (writeSentinel sentinelPos)
      (SegmentLog.writeSentinel sentinelPos) := by
  refine (mirrors_settled _).bind fun _ => (mirrors_write _).bind fun _ => ?_
  refine (mirrors_settled _).bind fun r => ?_
  cases r with
  | ok _ => exact .pure _
  | error k => exact (mirrors_settled _).bind fun _ => (mirrors_settled _).bind fun _ => .throw _

theorem mirrors_closeActive (a : ActiveSegment) :
    MirrorsP Deferred.clean (closeActive a) (SegmentLog.closeActive a) := by
  refine (mirrors_onActive (mirrors_writeSentinel _)).bind fun _ => ?_
  refine .bind (.attempt (mirrors_writeIndex _ _)) fun r => ?_
  cases r with
  | error e => exact (mirrors_onActive (mirrors_settled _)).bind fun _ => .throw _
  | ok _ =>
    refine (mirrors_onActive (mirrors_settled _)).bind fun r => ?_
    refine .bind (.modify fun _ => rfl) fun _ => .bind_get fun s => ?_
    exact (mirrors_writeWatermark _).bind fun _ => mirrors_onState _

theorem mirrors_rollSegment : MirrorsP Deferred.clean rollSegment SegmentLog.rollSegment := by
  refine .bind_get fun s => ?_
  dsimp only [Deferred.clean]
  cases s.active with
  | none => exact .pure _
  | some a =>
    dsimp only
    split_ifs
    · exact .bind (.modify fun _ => rfl) fun _ => (MirrorsP.lift _).bind fun _ => .pure _
    · exact mirrors_closeActive a

theorem mirrors_appendRoll : MirrorsP Deferred.clean appendRoll SegmentLog.appendRoll := by
  refine (mirrors_onState _).bind fun roll => ?_
  have hend : MirrorsP Deferred.clean
      (Proc.get >>= fun s : Deferred Log => pure (s.state.nextOffset - 1))
      (Proc.get >>= fun s => pure (s.nextOffset - 1) : Io Log ℕ) := .bind_get fun _ => .pure _
  cases roll with
  | true => exact mirrors_rollSegment.bind fun _ => hend
  | false => exact hend

theorem mirrors_append (c : Codec) (producerId : String) (events : List OtkEvent) :
    MirrorsP Deferred.clean (append c producerId events) (SegmentLog.append c producerId events) :=
  (mirrors_appendCommit c producerId events).bind fun _ => mirrors_appendRoll

end Mirrored

end OtkCore.SegmentLog.Queued
