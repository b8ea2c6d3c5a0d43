import OtkCore.SegmentLog.Format
import Mathlib.Data.List.Infix
import Mathlib.Data.List.Sort

/-!
# Segment log

The log as a state with procedures: opening a directory, appending, rolling,
retention and range reads. A stored offset, time, size or file position is a
natural number below `2 ^ 64`; where the source checks or wraps, so does the
model. Waking the subscriptions is an operation of its own, so that a run
shows when an append committed.
-/
namespace OtkCore.SegmentLog

open Effect FileIO Bytes

structure SegmentLogConfig where
  dir : String := "otk-log"
  maxSegmentBytes : ℕ := 64 * 1024 * 1024
  maxSegmentAgeSecs : ℕ := 3600
  flushIntervalMs : ℕ := 0
  retention : RetentionPolicy := .indefinite
  deriving DecidableEq, Repr

structure ClosedSegment where
  baseOffset : ℕ
  lastOffset : ℕ
  lastAppendedAtNs : ℕ
  byteSize : ℕ
  path : FileName
  positions : List ℕ
  deriving DecidableEq

structure ActiveSegment where
  baseOffset : ℕ
  path : FileName
  file : File
  positions : List ℕ
  byteSize : ℕ
  createdAtNs : ℕ
  nextFilePos : ℕ
  lastAppendedAtNs : ℕ
  deriving DecidableEq

structure Log where
  config : SegmentLogConfig
  closed : List ClosedSegment
  active : Option ActiveSegment
  nextOffset : ℕ
  poisoned : Bool
  deriving DecidableEq

/-- `u64::saturating_mul`. -/
def satMul (a b : ℕ) : ℕ := min (a * b) (2 ^ 64 - 1)

def writeWatermark {σ : Type} (nextOffset : ℕ) : Io σ Unit := do
  let ino ← call (Prog.op (Op.openWrite .watermarkTmp true))
  let (_, f) ← (onFile (File.writeAll _ (le 8 nextOffset))).on ⟨ino, 0⟩
  let _ ← (onFile (File.sync _)).on f
  call (Prog.op (Op.rename .watermarkTmp .watermark))
  let _ ← Proc.lift (Prog.op Op.syncDir)

/-- The persisted watermark; `none` if there is no complete one. -/
def readWatermark {σ : Type} : Io σ (Option ℕ) := do
  match ← Proc.lift (Prog.op (Op.openRead .watermark)) with
  | .error .notFound => pure none
  | .error k => Proc.throw (.io k)
  | .ok ino => do
    let r ← (Proc.attempt (File.readExact FileName 8) : Io File _).on ⟨ino, 0⟩
    match r.1 with
    | .ok buf => pure (some (ofLe buf))
    | .error .unexpectedEof => pure none
    | .error k => Proc.throw (.io k)

/-- The base offsets of the segment files that a directory scan returns. -/
def scanDir {σ : Type} : List (Slot FileName) → Io σ (List ℕ)
  | [] => pure []
  | slot :: rest => do
    let entry ← call (Prog.op (Op.dirEntry slot))
    let bases ← scanDir rest
    pure ((entry.bind FileName.segBase?).toList ++ bases)

def idxExists {σ : Type} (base : ℕ) : Io σ Bool := do
  match ← Proc.lift (Prog.op (Op.stat (.idx base))) with
  | .ok _ => pure true
  | .error .notFound => pure false
  | .error k => Proc.throw (.io k)

/-- What `open` has collected so far. -/
structure OpenState where
  closed : List ClosedSegment
  active : Option ActiveSegment
  nextOffset : ℕ

def openClosed (c : Codec) (dir : String) (base : ℕ) : Io OpenState Unit := do
  match ← Proc.lift (Prog.op (Op.openRead (.seg base))) with
  | .error .notFound => pure ()
  | .error k => Proc.throw (.io k)
  | .ok ino => do
    let positions ← readIndex dir base
    match positions.getLast? with
    | none => pure ()
    | some lastPos =>
      let nextSegBase := base + positions.length
      if nextSegBase ≥ 2 ^ 64 then
        Proc.throw (.corrupted ("segment " ++ pad20 base ++ ": base + index_len overflows u64"))
      else do
        let lastOffset := nextSegBase - 1
        let (hdr, file) ← SegmentHeader.read.on ⟨ino, 0⟩
        if hdr.baseOffset ≠ base then
          Proc.throw (.corrupted ("closed segment " ++ pad20 base ++ ": header base_offset " ++
            toString hdr.baseOffset ++ " does not match filename"))
        else do
          let (lastEntry, _) ← (readRecord c lastPos).on file
          if lastEntry.offset ≠ lastOffset then
            Proc.throw (.corrupted ("closed segment " ++ pad20 base ++
              ": index claims last offset " ++ toString lastOffset ++
              " but record contains " ++ toString lastEntry.offset))
          else do
            let segSize ← call (Prog.op (Op.stat (.seg base)))
            Proc.modify fun s =>
              { s with
                closed := s.closed ++ [⟨base, lastOffset, lastEntry.appendedAtNs, segSize,
                  .seg base, positions⟩]
                nextOffset := nextSegBase }

/-- An unindexed segment below another one: an empty orphan is deleted, records
in it would be lost. -/
def discardOrphan : Io OpenState Unit := do
  let s ← Proc.get
  match s.active with
  | none => pure ()
  | some prev =>
    Proc.modify fun s => { s with active := none }
    if prev.positions ≠ [] then
      Proc.throw (.corrupted ("segment " ++ pad20 prev.baseOffset ++
        " has no index but is not the highest unindexed segment; " ++
        toString prev.positions.length ++ " record(s) would be lost"))
    else do
      let _ ← Proc.lift (Prog.op (Op.unlink prev.path))

/-- The creation time in the header, after writing a header to a file that is
too short for one. -/
def openHeader (base : ℕ) : Io File ℕ := do
  let fileLen ← onFile (File.len _)
  if fileLen ≥ headerLen then do
    let hdr ← SegmentHeader.read
    if hdr.baseOffset ≠ base then
      Proc.throw (.corrupted ("active segment " ++ pad20 base ++ ": header base_offset " ++
        toString hdr.baseOffset ++ " does not match filename"))
    else pure hdr.createdAtNs
  else do
    let ts ← nowNs
    onFile (File.setLen _ 0)
    onFile (File.seek _ 0)
    SegmentHeader.write ⟨base, ts⟩
    pure ts

/-- Header, records and the time of the last record of an unindexed segment. -/
def recoverFile (c : Codec) (base : ℕ) : Io File (ℕ × List ℕ × ℕ × ℕ × ℕ) := do
  let createdAtNs ← openHeader base
  let (positions, nextFilePos, recordCount) ← recoverActive c base
  match positions.getLast? with
  | none => pure (createdAtNs, positions, nextFilePos, recordCount, 0)
  | some lastPos => do
    let last ← readRecord c lastPos
    pure (createdAtNs, positions, nextFilePos, recordCount, last.appendedAtNs)

/-- Load a segment without an index as the active one. -/
def openActive (c : Codec) (base : ℕ) : Io OpenState Unit := do
  discardOrphan
  let ino ← call (Prog.op (Op.openWrite (.seg base) false))
  let ((createdAtNs, positions, nextFilePos, recordCount, lastAppendedAtNs), file) ←
    (recoverFile c base).on ⟨ino, 0⟩
  if base + recordCount ≥ 2 ^ 64 then
    Proc.throw (.corrupted ("active segment " ++ pad20 base ++
      ": base + record_count overflows u64"))
  else
    Proc.modify fun s =>
      { s with
        nextOffset := base + recordCount
        active := some ⟨base, .seg base, file, positions, nextFilePos - headerLen, createdAtNs,
          nextFilePos, lastAppendedAtNs⟩ }

def openSegments (c : Codec) (dir : String) : List ℕ → Io OpenState Unit
  | [] => pure ()
  | base :: rest => do
    if ← idxExists base then openClosed c dir base else openActive c base
    openSegments c dir rest

/-- Open a directory: load closed segments through their indexes, recover the
unindexed one, and fall back on the watermark when there is no segment. -/
def openLog (c : Codec) (config : SegmentLogConfig) : Io OpenState Log := do
  call (Prog.op Op.makeDir)
  let slots ← call (Prog.op Op.readDir)
  let bases ← scanDir slots
  openSegments c config.dir (bases.mergeSort (· ≤ ·))
  let s ← Proc.get
  let nextOffset ←
    if s.nextOffset = 0 ∧ s.closed = [] ∧ s.active = none then do
      match ← readWatermark with
      | some wm => pure wm
      | none => pure s.nextOffset
    else pure s.nextOffset
  pure ⟨config, s.closed, s.active, nextOffset, false⟩

/-- `SegmentLog::open` as a program. -/
def openDir (c : Codec) (config : SegmentLogConfig) :
    Prog (Resp (N := FileName)) (Except StorageError Log) :=
  (openLog c config) ⟨[], none, 0⟩ >>= fun x => .pure x.1

/-- Create the active segment file if there is none. -/
def ensureActive : Io Log Unit := do
  let s ← Proc.get
  match s.active with
  | some _ => pure ()
  | none =>
    let base := s.nextOffset
    let ts ← nowNs
    let ino ← call (Prog.op (Op.openWrite (.seg base) true))
    let (_, file) ← (SegmentHeader.write ⟨base, ts⟩).on ⟨ino, 0⟩
    let _ ← Proc.lift (Prog.op Op.syncDir)
    Proc.modify fun s =>
      { s with active := some ⟨base, .seg base, file, [], 0, ts, headerLen, 0⟩ }

/-- Run a file procedure on the active segment's handle. The source unwraps
`active` here. -/
def onActive {α : Type} (t : Io File α) : Io Log α := fun s =>
  match s.active with
  | none => .pure (.error (.corrupted "no active segment"), s)
  | some a => t a.file >>= fun (r, file) =>
      .pure (r, { s with active := s.active.map fun a => { a with file := file } })

/-- Write the records of a batch from the cursor on. On failure everything from
`batchStart` on is cut off again, as far as that succeeds. -/
def writeBatch (c : Codec) (ts : ℕ) (producerId : String) (batchStart : ℕ) :
    ℕ → List OtkEvent → Io File (List ℕ)
  | _, [] => pure []
  | offset, event :: rest =>
    if offset = 2 ^ 64 - 1 then do
      let _ ← Proc.attempt (File.setLen FileName batchStart)
      Proc.throw (.invalidInput "offset space exhausted")
    else do
      match ← Proc.attempt (writeRecord c ⟨offset, ts, producerId, event⟩) with
      | .ok pos => do
        let positions ← writeBatch c ts producerId batchStart (offset + 1) rest
        pure (pos :: positions)
      | .error e => do
        let _ ← Proc.attempt (File.setLen FileName batchStart)
        Proc.throw e

/-- `fsync` in synchronous mode; a failure cuts the batch off again. -/
def syncBatch (flushIntervalMs batchStart : ℕ) : Io File Unit :=
  if flushIntervalMs = 0 then do
    match ← Proc.attempt (File.sync FileName) with
    | .ok () => pure ()
    | .error k => do
      let _ ← Proc.attempt (File.setLen FileName batchStart)
      Proc.throw (.io k)
  else pure ()

/-- The write position after a batch, by `stream_position` or else by seeking
to the end. -/
def batchEnd : FileProc FileName ℕ := do
  match ← Proc.attempt (File.streamPosition FileName) with
  | .ok pos => pure pos
  | .error k₁ => do
    match ← (Proc.attempt (File.seekEnd FileName) : FileProc FileName _) with
    | .ok pos => pure pos
    | .error _ => Proc.throw k₁

/-- `append` up to and including the wake-up of the subscriptions: the batch is
written, synced and committed in memory. -/
def appendCommit (c : Codec) (producerId : String) (events : List OtkEvent) : Io Log Unit := do
  let s ← Proc.get
  if s.poisoned then
    Proc.throw (.corrupted ("log is poisoned: position query failed after a durable write; " ++
      "reopen the log to recover"))
  else if events = [] then Proc.throw (.invalidInput "events slice must not be empty")
  else if producerId = "" then Proc.throw (.invalidInput "producer_id must not be empty")
  else do
    ensureActive
    let ts ← nowNs
    let s ← Proc.get
    let batchStart := (s.active.map ActiveSegment.nextFilePos).getD 0
    onActive (onFile (File.seek _ batchStart))
    let newPositions ← onActive (writeBatch c ts producerId batchStart s.nextOffset events)
    onActive (syncBatch s.config.flushIntervalMs batchStart)
    match ← onActive (Proc.attempt batchEnd) with
    | .error k => do
      Proc.modify fun s => { s with poisoned := true }
      Proc.throw (.io k)
    | .ok newFilePos => do
      Proc.modify fun s =>
        { s with
          active := s.active.map fun a =>
            { a with
              positions := a.positions ++ newPositions
              nextFilePos := newFilePos
              byteSize := newFilePos - headerLen
              lastAppendedAtNs := ts }
          nextOffset := s.nextOffset + events.length }
      Proc.lift (Prog.op Op.notify)

def shouldRoll : Io Log Bool := do
  let s ← Proc.get
  match s.active with
  | none => pure false
  | some a =>
    if a.byteSize ≥ s.config.maxSegmentBytes then pure true
    else do
      let now ← nowNs
      pure (now - a.createdAtNs ≥ satMul s.config.maxSegmentAgeSecs 1000000000)

/-- Unlink a segment file, then its index as far as that succeeds. -/
def deleteSegment {σ : Type} (path : FileName) (base : ℕ) : Io σ Unit := do
  match ← Proc.lift (Prog.op (Op.unlink path)) with
  | .ok () | .error .notFound => do
    let _ ← Proc.lift (Prog.op (Op.unlink (.idx base)))
    let _ ← Proc.lift (Prog.op Op.syncDir)
  | .error k => Proc.throw (.io k)

def evictFront (front : ClosedSegment) : Io Log Unit := do
  deleteSegment front.path front.baseOffset
  Proc.modify fun s => { s with closed := s.closed.tail }

/-- Delete closed segments from the front while their last entry is older than
the cutoff. -/
def evictOlder (cutoff : ℕ) : List ClosedSegment → Io Log Unit
  | [] => pure ()
  | front :: rest =>
    if front.lastAppendedAtNs < cutoff then do
      evictFront front
      evictOlder cutoff rest
    else pure ()

/-- Delete closed segments from the front while more than `maxBytes` remain. -/
def evictLarger (maxBytes : ℕ) : ℕ → List ClosedSegment → Io Log Unit
  | _, [] => pure ()
  | total, front :: rest =>
    if total > maxBytes then do
      evictFront front
      evictLarger maxBytes (total - front.byteSize) rest
    else pure ()

def retainByAge (maxAgeSecs : ℕ) : Io Log Unit := do
  let now ← nowNs
  let s ← Proc.get
  evictOlder (now - satMul maxAgeSecs 1000000000) s.closed

def retainBySize (maxBytes : ℕ) : Io Log Unit := do
  let s ← Proc.get
  let total := ((s.closed.map ClosedSegment.byteSize).sum +
    (s.active.map ActiveSegment.byteSize).getD 0) % 2 ^ 64
  evictLarger maxBytes total s.closed

def enforceRetention : Io Log Unit := do
  let s ← Proc.get
  match s.config.retention with
  | .indefinite => pure ()
  | .timeBased maxAgeSecs => retainByAge maxAgeSecs
  | .sizeBased maxBytes => retainBySize maxBytes
  | .hybrid maxAgeSecs maxBytes => do
    retainByAge maxAgeSecs
    retainBySize maxBytes

/-- Sync the records, then write and sync the sentinel. -/
def writeSentinel (sentinelPos : ℕ) : Io File Unit := do
  onFile (File.sync _)
  onFile (File.writeAll _ sentinel)
  match ← Proc.attempt (File.sync FileName) with
  | .ok () => pure ()
  | .error k => do
    let _ ← Proc.attempt (File.setLen FileName sentinelPos)
    let _ ← Proc.attempt (File.seek FileName sentinelPos)
    Proc.throw (.io k)

/-- Close a non-empty active segment: sentinel, index, bookkeeping, watermark,
retention. Nothing before the bookkeeping takes `active`. -/
def closeActive (a : ActiveSegment) : Io Log Unit := do
  onActive (writeSentinel a.nextFilePos)
  match ← Proc.attempt (writeIndex a.baseOffset a.positions) with
  | .error e => do
    onActive do
      let _ ← Proc.attempt (File.setLen FileName a.nextFilePos)
      let _ ← Proc.attempt (File.seek FileName a.nextFilePos)
    Proc.throw e
  | .ok () => do
    let r ← onActive (Proc.attempt (File.len FileName))
    let segSize := match r with
      | .ok n => n
      | .error _ => a.nextFilePos
    Proc.modify fun s =>
      { s with
        active := none
        closed := s.closed ++ [⟨a.baseOffset, a.baseOffset + a.positions.length - 1,
          a.lastAppendedAtNs, segSize, a.path, a.positions⟩] }
    let s ← Proc.get
    writeWatermark s.nextOffset
    enforceRetention

def rollSegment : Io Log Unit := do
  let s ← Proc.get
  match s.active with
  | none => pure ()
  | some a =>
    if a.positions = [] then do
      Proc.modify fun s => { s with active := none }
      let _ ← Proc.lift (Prog.op (Op.unlink a.path))
    else closeActive a

/-- The part of `append` after the commit. -/
def appendRoll : Io Log ℕ := do
  if ← shouldRoll then rollSegment
  let s ← Proc.get
  pure (s.nextOffset - 1)

def append (c : Codec) (producerId : String) (events : List OtkEvent) : Io Log ℕ := do
  appendCommit c producerId events
  appendRoll

namespace Log

/-- The earliest retained offset. A header without records does not count. -/
def earliestOffset (l : Log) : Option ℕ :=
  match l.closed with
  | first :: _ => some first.baseOffset
  | [] => l.active.bind fun a => if a.positions = [] then none else some a.baseOffset

/-- The last appended offset, also when it has been evicted. -/
def latestOffset (l : Log) : Option ℕ :=
  match l.active.filter fun a => a.positions ≠ [] with
  | some a => some (a.baseOffset + a.positions.length - 1)
  | none =>
    match l.closed.getLast? with
    | some back => some back.lastOffset
    | none => if l.nextOffset > 0 then some (l.nextOffset - 1) else none

def isFullyEvicted (l : Log) : Bool :=
  l.closed.isEmpty && (l.active.all fun a => a.positions.isEmpty) && 0 < l.nextOffset

end Log

/-- A subscription: the next offset, the open segment file with the position of
its next record and whether it is still written, and whether the subscription
has ended. -/
structure Subscription where
  nextOffset : ℕ
  currentFile : Option (File × ℕ × Bool)
  closed : Bool
  deriving DecidableEq

def Subscription.new (start : ℕ) : Subscription := ⟨start, none, false⟩

/-- Subscribe from an offset on; at or beyond the tail this always succeeds. -/
def Log.subscribe (l : Log) (start : ℕ) : Except StorageError Subscription :=
  if start ≥ l.nextOffset then .ok (.new start)
  else if l.isFullyEvicted then .error (.retentionExpired start none)
  else if l.earliestOffset.any (start < ·) then .error (.retentionExpired start l.earliestOffset)
  else .ok (.new start)

/-- Read the records of `positions` from one file and check their offsets. -/
def readRecords (c : Codec) : ℕ → List ℕ → Io File (List LogEntry)
  | _, [] => pure []
  | offset, pos :: rest => do
    let entry ← readRecord c pos
    if entry.offset ≠ offset then
      Proc.throw (.corrupted ("index points to wrong record at position " ++ toString pos ++
        ": expected offset " ++ toString offset ++ ", got " ++ toString entry.offset))
    else do
      let entries ← readRecords c (offset + 1) rest
      pure (entry :: entries)

/-- The positions of the offsets `[start, stop)` in a segment that begins with
offset `base`. -/
def positionsOf (base start stop : ℕ) (positions : List ℕ) : List ℕ :=
  (positions.drop (start - base)).take (stop - start)

def readClosed (c : Codec) (start stop : ℕ) : List ClosedSegment → Io Log (List LogEntry)
  | [] => pure []
  | seg :: rest =>
    if seg.lastOffset < start then readClosed c start stop rest
    else if seg.baseOffset ≥ stop then pure []
    else do
      let first := max start seg.baseOffset
      let last := min stop (seg.lastOffset + 1)
      let ino ← call (Prog.op (Op.openRead seg.path))
      let (entries, _) ←
        (readRecords c first (positionsOf seg.baseOffset first last seg.positions)).on ⟨ino, 0⟩
      let more ← readClosed c start stop rest
      pure (entries ++ more)

def readActive (c : Codec) (start stop : ℕ) : Io Log (List LogEntry) := do
  let s ← Proc.get
  match s.active with
  | none => pure []
  | some a =>
    let last := a.baseOffset + a.positions.length
    if a.baseOffset < stop ∧ a.positions ≠ [] ∧ last > start then
      let first := max start a.baseOffset
      onActive (readRecords c first (positionsOf a.baseOffset first (min stop last) a.positions))
    else pure []

/-- Entries with offsets in `[start, stop)`; `none` stands for no upper bound. -/
def readRange (c : Codec) (start : ℕ) (stop : Option ℕ) : Io Log (List LogEntry) := do
  let s ← Proc.get
  if stop.any (· ≤ start) then pure []
  else if start ≥ s.nextOffset then pure []
  else if s.isFullyEvicted then Proc.throw (.retentionExpired start none)
  else if s.earliestOffset.any (start < ·) then
    Proc.throw (.retentionExpired start s.earliestOffset)
  else do
    let bound := stop.getD (2 ^ 64 - 1)
    let old ← readClosed c start bound s.closed
    let new ← readActive c start bound
    pure (old ++ new)

end OtkCore.SegmentLog
