import OtkCore.SegmentLog.Log

/-!
# Following a log

A subscription as a program. It shares no lock with the log: it lists the
directory, opens segment files and reads on while the log writes, closes and
deletes them. One round of the loop of `next_entry` is a program of its own,
because the wake-up is armed at the start of each round.
-/
namespace OtkCore.SegmentLog.Subscription

open Effect FileIO Bytes

/-- The largest base at most `offset` and the smallest base, after another one. -/
def scanEntry (offset : ℕ) (found : Option ℕ × Option ℕ) (base : ℕ) : Option ℕ × Option ℕ :=
  (if base ≤ offset then some (found.1.elim base (max · base)) else found.1,
    some (found.2.elim base (min · base)))

def scanEntries {σ : Type} (offset : ℕ) :
    List (Slot FileName) → Option ℕ × Option ℕ → Io σ (Option ℕ × Option ℕ)
  | [], found => pure found
  | slot :: rest, found => do
    let entry ← call (Prog.op (Op.dirEntry slot))
    scanEntries offset rest ((entry.bind FileName.segBase?).elim found (scanEntry offset found))

/-- The segment that should contain `offset`, and the oldest one. -/
def scanSegments {σ : Type} (offset : ℕ) : Io σ (Option ℕ × Option ℕ) := do
  let slots ← call (Prog.op Op.readDir)
  scanEntries offset slots (none, none)

/-- An open segment file with the position of the next record and whether the
segment is still written; `none` stands for no data yet. -/
abbrev Opened : Type := Option (File × ℕ × Bool)

/-- The segment found by the scan or its index has been deleted since. -/
def rescan {σ : Type} (offset : ℕ) : Io σ Opened := do
  match ← scanSegments offset with
  | (none, some oldest) => Proc.throw (.retentionExpired offset (some oldest))
  | _ => pure none

inductive Scan
  | reached (pos : ℕ)
  | rolled
  | ended (pos : ℕ)

/-- Skip `n` records from `pos` on. -/
def scanRecords (c : Codec) : ℕ → ℕ → Io File Scan
  | 0, pos => pure (.reached pos)
  | n + 1, pos => do
    match ← Proc.attempt (readRecord c pos) with
    | .ok _ => do
      let next ← onFile (File.streamPosition _)
      scanRecords c n next
    | .error (.corrupted msg) =>
      if msg = sentinelMsg then pure .rolled else Proc.throw (.corrupted msg)
    | .error (.io .unexpectedEof) => pure (.ended pos)
    | .error e => Proc.throw e

def seekTo {σ : Type} (file : File) (pos : ℕ) (active : Bool) : Io σ Opened := do
  let (_, file) ← (onFile (File.seek _ pos)).on file
  pure (some (file, pos, active))

def openIndexed {σ : Type} (dir : String) (offset base ino : ℕ) : Io σ Opened := do
  match ← Proc.attempt (readIndex dir base) with
  | .error (.io .notFound) => rescan offset
  | .error e => Proc.throw e
  | .ok positions =>
    match positions[offset - base]? with
    | none => pure none
    | some pos => seekTo ⟨ino, 0⟩ pos false

/-- Find the record in the active segment by reading the ones before it. -/
def openUnindexed {σ : Type} (c : Codec) (offset base ino : ℕ) : Io σ Opened := do
  let (found, file) ← (scanRecords c (offset - base) headerLen).on ⟨ino, 0⟩
  match found with
  | .reached pos | .ended pos => seekTo file pos true
  | .rolled => pure none

def openSegment {σ : Type} (c : Codec) (dir : String) (offset base : ℕ) : Io σ Opened := do
  match ← Proc.lift (Prog.op (Op.openRead (.seg base))) with
  | .error .notFound => rescan offset
  | .error k => Proc.throw (.io k)
  | .ok ino =>
    if ← idxExists base then openIndexed dir offset base ino
    else openUnindexed c offset base ino

/-- There is no segment file at all: the log has never been written, or all of it
has been deleted. -/
def openNothing {σ : Type} (offset : ℕ) : Io σ Opened := do
  match ← readWatermark with
  | some mark =>
    if mark > offset then Proc.throw (.retentionExpired offset none) else pure none
  | none => pure none

/-- Open the segment that contains `offset`. -/
def openToOffset {σ : Type} (c : Codec) (dir : String) (offset : ℕ) : Io σ Opened := do
  match ← scanSegments offset with
  | (some base, _) => openSegment c dir offset base
  | (none, some oldest) => Proc.throw (.retentionExpired offset (some oldest))
  | (none, none) => openNothing offset

/-- How a round of `next_entry` ends when it does not fail. -/
inductive Round
  | returned (entry : LogEntry)
  | again
  | wait

/-- Behind the sentinel: the next segment begins with the next offset. -/
def openNext : Io Subscription Round := do
  let s ← Proc.get
  match ← Proc.lift (Prog.op (Op.openRead (.seg s.nextOffset))) with
  | .ok ino => do
    let closed ← idxExists s.nextOffset
    Proc.modify fun s => { s with currentFile := some (⟨ino, 0⟩, headerLen, !closed) }
    pure .again
  | .error .notFound => do
    Proc.modify fun s => { s with currentFile := none }
    pure .again
  | .error k => Proc.throw (.io k)

/-- Read the record at `pos`. -/
def readNext (c : Codec) (file : File) (pos : ℕ) (active : Bool) : Io Subscription Round := do
  let (r, file) ← (Proc.attempt (readRecord c pos) : Io File _).on file
  match r with
  | .ok entry => do
    let (next, file) ← (onFile (File.streamPosition _)).on file
    Proc.modify fun s => { s with currentFile := some (file, next, active) }
    let s ← Proc.get
    if entry.offset < s.nextOffset ∧ active = true then pure .again
    else if entry.offset ≠ s.nextOffset then
      Proc.throw (.corrupted ("subscription offset mismatch: expected " ++ toString s.nextOffset ++
        ", got " ++ toString entry.offset))
    else do
      Proc.modify fun s => { s with nextOffset := s.nextOffset + 1 }
      pure (.returned entry)
  | .error (.corrupted msg) =>
    if msg = sentinelMsg then openNext else Proc.throw (.corrupted msg)
  | .error (.io .unexpectedEof) => do
    Proc.modify fun s => { s with currentFile := some (file, pos, active) }
    if active then pure .wait
    else Proc.throw (.corrupted ("unexpected EOF on closed segment at byte position " ++
      toString pos))
  | .error e => Proc.throw e

/-- The file that is open, after opening one if there is none. -/
def ensureFile (c : Codec) (dir : String) : Io Subscription Unit := do
  let s ← Proc.get
  match s.currentFile with
  | some _ => pure ()
  | none => do
    let opened ← openToOffset c dir s.nextOffset
    Proc.modify fun s => { s with currentFile := opened }

def tryRound (c : Codec) (dir : String) : Io Subscription Round := do
  ensureFile c dir
  let s ← Proc.get
  match s.currentFile with
  | none => pure .wait
  | some (file, pos, active) => readNext c file pos active

def settle : Except StorageError Round × Subscription → Except StorageError Round × Subscription
  | (.ok r, s) => (.ok r, s)
  | (.error e, s) => (.error e, { s with closed := true })

/-- One round of the loop of `next_entry`, from the arming of the wake-up on. -/
def round (c : Codec) (dir : String) (s : Subscription) :
    Prog (Resp (N := FileName)) (Except StorageError Round × Subscription) :=
  tryRound c dir s >>= fun x => .pure (settle x)

end OtkCore.SegmentLog.Subscription
