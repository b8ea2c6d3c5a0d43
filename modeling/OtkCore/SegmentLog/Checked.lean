import OtkCore.SegmentLog.Records
import OtkCore.SegmentLog.Subscribing
import OtkCore.SegmentLog.InOrder
import OtkCore.SegmentLog.Acceptance

/-!
# Offset arithmetic

The procedures that compute with offsets once more, as they run where arithmetic
on `u64` is checked: an operation that leaves the range ends in `.overflow`. In a
log whose segments end within the range they do what the procedures without the
checks do.
-/
namespace OtkCore.SegmentLog

open Effect FileIO Bytes

abbrev CheckedIo (σ α : Type) : Type := Proc (Resp (N := FileName)) ReadFault σ α

def plain {σ α : Type} (t : Io σ α) : CheckedIo σ α := t.mapError .storage

namespace Checked

variable {σ : Type}

/-- `u64` addition under overflow checks. -/
def addU64 (a b : ℕ) : CheckedIo σ ℕ :=
  if a + b < 2 ^ 64 then pure (a + b) else Proc.throw .overflow

/-- `u64` subtraction under overflow checks. -/
def subU64 (a b : ℕ) : CheckedIo σ ℕ :=
  if b ≤ a then pure (a - b) else Proc.throw .overflow

def openClosed (c : Codec) (dir : String) (base : ℕ) : CheckedIo OpenState Unit := do
  match ← plain (Proc.lift (Prog.op (Op.openRead (.seg base)))) with
  | .error .notFound => pure ()
  | .error k => plain (Proc.throw (.io k))
  | .ok ino => do
    let positions ← plain (readIndex dir base)
    match positions.getLast? with
    | none => pure ()
    | some lastPos =>
      -- `checked_add`
      let nextSegBase := base + positions.length
      if nextSegBase ≥ 2 ^ 64 then
        plain (Proc.throw (.corrupted ("segment " ++ pad20 base ++
          ": base + index_len overflows u64")))
      else do
        let lastOffset ← subU64 nextSegBase 1
        plain do
          let (hdr, file) ← SegmentHeader.read.on ⟨ino, 0⟩
          if hdr.baseOffset ≠ base then
            Proc.throw (.corrupted ("closed segment " ++ pad20 base ++ ": header base_offset " ++
              toString hdr.baseOffset ++ " does not match filename"))
          else do
            let (lastEntry, _) ← (readRecord c lastPos).on file
            if lastEntry.offset ≠ lastOffset then
              Proc.throw (.corrupted ("closed segment " ++ pad20 base ++
                ": index claims last offset " ++ toString lastOffset ++
                " but record contains " ++ toString lastEntry.offset))
            else do
              let segSize ← call (Prog.op (Op.stat (.seg base)))
              Proc.modify fun s =>
                { s with
                  closed := s.closed ++ [⟨base, lastOffset, lastEntry.appendedAtNs, segSize,
                    .seg base, positions⟩]
                  nextOffset := nextSegBase }

/-- `openActive` adds with `checked_add` only. -/
def openSegments (c : Codec) (dir : String) : List ℕ → CheckedIo OpenState Unit
  | [] => pure ()
  | base :: rest => do
    if ← plain (idxExists base) then openClosed c dir base else plain (openActive c base)
    openSegments c dir rest

def openLog (c : Codec) (config : SegmentLogConfig) : CheckedIo OpenState Log := do
  plain (call (Prog.op Op.makeDir))
  let slots ← plain (call (Prog.op Op.readDir))
  let bases ← plain (scanDir slots)
  openSegments c config.dir (bases.mergeSort (· ≤ ·))
  let s ← Proc.get
  let nextOffset ←
    if s.nextOffset = 0 ∧ s.closed = [] ∧ s.active = none then do
      match ← plain readWatermark with
      | some wm => pure wm
      | none => pure s.nextOffset
    else pure s.nextOffset
  pure ⟨config, s.closed, s.active, nextOffset, false⟩

def openDir (c : Codec) (config : SegmentLogConfig) :
    Prog (Resp (N := FileName)) (Except ReadFault Log) :=
  (openLog c config) ⟨[], none, 0⟩ >>= fun x => .pure x.1

def onActive {α : Type} (t : CheckedIo File α) : CheckedIo Log α := fun s =>
  match s.active with
  | none => .pure (.error (.storage (.corrupted "no active segment")), s)
  | some a => t a.file >>= fun (r, file) =>
      .pure (r, { s with active := s.active.map fun a => { a with file := file } })

/-- The positions of the records and `local_next_offset` after them. -/
def writeBatch (c : Codec) (ts : ℕ) (producerId : String) (batchStart : ℕ) :
    ℕ → List OtkEvent → CheckedIo File (List ℕ × ℕ)
  | offset, [] => pure ([], offset)
  | offset, event :: rest =>
    if offset = 2 ^ 64 - 1 then plain do
      let _ ← Proc.attempt (File.setLen FileName batchStart)
      Proc.throw (.invalidInput "offset space exhausted")
    else do
      match ← plain (Proc.attempt (writeRecord c ⟨offset, ts, producerId, event⟩)) with
      | .ok pos => do
        let next ← addU64 offset 1
        let (positions, localNext) ← writeBatch c ts producerId batchStart next rest
        pure (pos :: positions, localNext)
      | .error e => plain do
        let _ ← Proc.attempt (File.setLen FileName batchStart)
        Proc.throw e

def appendCommit (c : Codec) (producerId : String) (events : List OtkEvent) :
    CheckedIo Log Unit := do
  let s ← Proc.get
  if s.poisoned then
    plain (Proc.throw (.corrupted ("log is poisoned: position query failed after a durable write; " ++
      "reopen the log to recover")))
  else if events = [] then plain (Proc.throw (.invalidInput "events slice must not be empty"))
  else if producerId = "" then plain (Proc.throw (.invalidInput "producer_id must not be empty"))
  else do
    plain ensureActive
    let ts ← plain nowNs
    let s ← Proc.get
    let batchStart := (s.active.map ActiveSegment.nextFilePos).getD 0
    plain (SegmentLog.onActive (onFile (File.seek _ batchStart)))
    let (newPositions, localNext) ←
      onActive (writeBatch c ts producerId batchStart s.nextOffset events)
    plain do
      SegmentLog.onActive (syncBatch s.config.flushIntervalMs batchStart)
      match ← SegmentLog.onActive (Proc.attempt batchEnd) with
      | .error k => do
        Proc.modify fun s => { s with poisoned := true }
        Proc.throw (.io k)
      | .ok newFilePos => do
        Proc.modify fun s =>
          { s with
            active := s.active.map fun a =>
              { a with
                positions := a.positions ++ newPositions
                nextFilePos := newFilePos
                byteSize := newFilePos - headerLen
                lastAppendedAtNs := ts }
            nextOffset := localNext }
        Proc.lift (Prog.op Op.notify)

def closeActive (a : ActiveSegment) : CheckedIo Log Unit := do
  plain (SegmentLog.onActive (writeSentinel a.nextFilePos))
  match ← plain (Proc.attempt (writeIndex a.baseOffset a.positions)) with
  | .error e => plain do
    SegmentLog.onActive do
      let _ ← Proc.attempt (File.setLen FileName a.nextFilePos)
      let _ ← Proc.attempt (File.seek FileName a.nextFilePos)
    Proc.throw e
  | .ok () => do
    let r ← plain (SegmentLog.onActive (Proc.attempt (File.len FileName)))
    let segSize := match r with
      | .ok n => n
      | .error _ => a.nextFilePos
    let past ← addU64 a.baseOffset a.positions.length
    let lastOffset ← subU64 past 1
    plain do
      Proc.modify fun s =>
        { s with
          active := none
          closed := s.closed ++ [⟨a.baseOffset, lastOffset, a.lastAppendedAtNs, segSize, a.path,
            a.positions⟩] }
      let s ← Proc.get
      writeWatermark s.nextOffset
      enforceRetention

def rollSegment : CheckedIo Log Unit := do
  let s ← Proc.get
  match s.active with
  | none => pure ()
  | some a =>
    if a.positions = [] then plain do
      Proc.modify fun s => { s with active := none }
      let _ ← Proc.lift (Prog.op (Op.unlink a.path))
    else closeActive a

def appendRoll : CheckedIo Log ℕ := do
  if ← plain shouldRoll then rollSegment
  let s ← Proc.get
  subU64 s.nextOffset 1

def append (c : Codec) (producerId : String) (events : List OtkEvent) : CheckedIo Log ℕ := do
  appendCommit c producerId events
  appendRoll

/-- `latest_offset`. -/
def latestOffset : CheckedIo Log (Option ℕ) := do
  let l ← Proc.get
  match l.active.filter fun a => a.positions ≠ [] with
  | some a => do
    let past ← addU64 a.baseOffset a.positions.length
    let last ← subU64 past 1
    pure (some last)
  | none =>
    match l.closed.getLast? with
    | some back => pure (some back.lastOffset)
    | none =>
      if l.nextOffset > 0 then do
        let last ← subU64 l.nextOffset 1
        pure (some last)
      else pure none

/-- The loop over `n` offsets of a segment from `offset` on. -/
def readSpan (c : Codec) (base : ℕ) (positions : List ℕ) : ℕ → ℕ → CheckedIo File (List LogEntry)
  | 0, _ => pure []
  | n + 1, offset => do
    let i ← subU64 offset base
    match positions[i]? with
    | none => pure []
    | some pos => do
      let entry ← plain (readRecord c pos)
      if entry.offset ≠ offset then
        plain (Proc.throw (.corrupted ("index points to wrong record at position " ++ toString pos ++
          ": expected offset " ++ toString offset ++ ", got " ++ toString entry.offset)))
      else do
        let entries ← readSpan c base positions n (offset + 1)
        pure (entry :: entries)

def readClosed (c : Codec) (start stop : ℕ) :
    List ClosedSegment → CheckedIo Log (List LogEntry)
  | [] => pure []
  | seg :: rest =>
    if seg.lastOffset < start then readClosed c start stop rest
    else if seg.baseOffset ≥ stop then pure []
    else do
      let first := max start seg.baseOffset
      let past ← addU64 seg.lastOffset 1
      let last := min stop past
      let ino ← plain (call (Prog.op (Op.openRead seg.path)))
      let (entries, _) ←
        (readSpan c seg.baseOffset seg.positions (last - first) first).on ⟨ino, 0⟩
      let more ← readClosed c start stop rest
      pure (entries ++ more)

def readActive (c : Codec) (start stop : ℕ) : CheckedIo Log (List LogEntry) := do
  let s ← Proc.get
  match s.active with
  | none => pure []
  | some a =>
    if a.baseOffset < stop ∧ a.positions ≠ [] then do
      let last ← addU64 a.baseOffset a.positions.length
      if last > start then do
        let first := max start a.baseOffset
        let last ← addU64 a.baseOffset a.positions.length
        onActive (readSpan c a.baseOffset a.positions (min stop last - first) first)
      else pure []
    else pure []

def readRange (c : Codec) (start : ℕ) (stop : Option ℕ) : CheckedIo Log (List LogEntry) := do
  let s ← Proc.get
  if stop.any (· ≤ start) then pure []
  else if start ≥ s.nextOffset then pure []
  else if s.isFullyEvicted then plain (Proc.throw (.retentionExpired start none))
  else if s.earliestOffset.any (start < ·) then
    plain (Proc.throw (.retentionExpired start s.earliestOffset))
  else do
    let bound := stop.getD (2 ^ 64 - 1)
    let old ← readClosed c start bound s.closed
    let new ← readActive c start bound
    pure (old ++ new)

open Subscription (Opened Scan Round rescan seekTo scanSegments openNothing openNext)

/-- The scan with `current` for the offset that comes next; `n` records are left
to skip. -/
def scanRecords (c : Codec) : ℕ → ℕ → ℕ → CheckedIo File Scan
  | 0, _, pos => pure (.reached pos)
  | n + 1, current, pos => do
    match ← plain (Proc.attempt (readRecord c pos)) with
    | .ok _ => do
      let next ← plain (onFile (File.streamPosition _))
      let current ← addU64 current 1
      scanRecords c n current next
    | .error (.corrupted msg) =>
      if msg = sentinelMsg then pure .rolled else plain (Proc.throw (.corrupted msg))
    | .error (.io .unexpectedEof) => pure (.ended pos)
    | .error e => plain (Proc.throw e)

def openIndexed (dir : String) (offset base ino : ℕ) : CheckedIo σ Opened := do
  match ← plain (Proc.attempt (readIndex dir base)) with
  | .error (.io .notFound) => plain (rescan offset)
  | .error e => plain (Proc.throw e)
  | .ok positions => do
    let i ← subU64 offset base
    match positions[i]? with
    | none => pure none
    | some pos => plain (seekTo ⟨ino, 0⟩ pos false)

def openUnindexed (c : Codec) (offset base ino : ℕ) : CheckedIo σ Opened := do
  let (found, file) ← (scanRecords c (offset - base) base headerLen).on ⟨ino, 0⟩
  match found with
  | .reached pos | .ended pos => plain (seekTo file pos true)
  | .rolled => pure none

def openSegment (c : Codec) (dir : String) (offset base : ℕ) : CheckedIo σ Opened := do
  match ← plain (Proc.lift (Prog.op (Op.openRead (.seg base)))) with
  | .error .notFound => plain (rescan offset)
  | .error k => plain (Proc.throw (.io k))
  | .ok ino =>
    if ← plain (idxExists base) then openIndexed dir offset base ino
    else openUnindexed c offset base ino

def openToOffset (c : Codec) (dir : String) (offset : ℕ) : CheckedIo σ Opened := do
  match ← plain (scanSegments offset) with
  | (some base, _) => openSegment c dir offset base
  | (none, some oldest) => plain (Proc.throw (.retentionExpired offset (some oldest)))
  | (none, none) => plain (openNothing offset)

def readNext (c : Codec) (file : File) (pos : ℕ) (active : Bool) :
    CheckedIo Subscription Round := do
  let (r, file) ← plain ((Proc.attempt (readRecord c pos) : Io File _).on file)
  match r with
  | .ok entry => do
    let (next, file) ← plain ((onFile (File.streamPosition _)).on file)
    Proc.modify fun s => { s with currentFile := some (file, next, active) }
    let s ← Proc.get
    if entry.offset < s.nextOffset ∧ active = true then pure .again
    else if entry.offset ≠ s.nextOffset then
      plain (Proc.throw (.corrupted ("subscription offset mismatch: expected " ++
        toString s.nextOffset ++ ", got " ++ toString entry.offset)))
    else do
      let next ← addU64 s.nextOffset 1
      Proc.modify fun s => { s with nextOffset := next }
      pure (.returned entry)
  | .error (.corrupted msg) =>
    if msg = sentinelMsg then plain openNext else plain (Proc.throw (.corrupted msg))
  | .error (.io .unexpectedEof) => plain do
    Proc.modify fun s => { s with currentFile := some (file, pos, active) }
    if active then pure .wait
    else Proc.throw (.corrupted ("unexpected EOF on closed segment at byte position " ++
      toString pos))
  | .error e => plain (Proc.throw e)

def ensureFile (c : Codec) (dir : String) : CheckedIo Subscription Unit := do
  let s ← Proc.get
  match s.currentFile with
  | some _ => pure ()
  | none => do
    let opened ← openToOffset c dir s.nextOffset
    Proc.modify fun s => { s with currentFile := opened }

def tryRound (c : Codec) (dir : String) : CheckedIo Subscription Round := do
  ensureFile c dir
  let s ← Proc.get
  match s.currentFile with
  | none => pure .wait
  | some (file, pos, active) => readNext c file pos active

def settle : Except ReadFault Round × Subscription → Except ReadFault Round × Subscription
  | (.ok r, s) => (.ok r, s)
  | (.error e, s) => (.error e, { s with closed := true })

def round (c : Codec) (dir : String) (s : Subscription) :
    Prog (Resp (N := FileName)) (Except ReadFault Round × Subscription) :=
  tryRound c dir s >>= fun x => .pure (settle x)

theorem addU64_eq {a b : ℕ} (h : a + b < 2 ^ 64) :
    (addU64 a b : CheckedIo σ ℕ) = pure (a + b) := if_pos h

theorem subU64_eq {a b : ℕ} (h : b ≤ a) : (subU64 a b : CheckedIo σ ℕ) = pure (a - b) := if_pos h

section Plain

variable {α β : Type}

theorem pure_bind (a : α) (f : α → CheckedIo σ β) : (pure a >>= f) = f a := rfl

theorem bind_assoc {γ : Type} (t : CheckedIo σ α) (f : α → CheckedIo σ β)
    (g : β → CheckedIo σ γ) : t >>= f >>= g = t >>= fun a => f a >>= g := by
  funext s
  simp only [Proc.bind_apply, Prog.bind_assoc]
  congr 1
  funext x
  obtain ⟨r, s'⟩ := x
  cases r <;> rfl

theorem throw_bind (e : ReadFault) (f : α → CheckedIo σ β) :
    (Proc.throw e >>= f) = Proc.throw e := rfl

@[simp] theorem plain_pure (a : α) : plain (pure a : Io σ α) = pure a := rfl

@[simp] theorem plain_get : plain (Proc.get : Io σ σ) = Proc.get := rfl

@[simp] theorem plain_modify (g : σ → σ) : plain (Proc.modify g : Io σ Unit) = Proc.modify g := rfl

theorem modify_bind (g : σ → σ) (f : Unit → CheckedIo σ α) (s : σ) :
    (Proc.modify g >>= f) s = f () (g s) := rfl

theorem get_bind (f : σ → CheckedIo σ α) (s : σ) : (Proc.get >>= f) s = f s s := rfl

theorem plain_get_bind (f : σ → Io σ α) (s : σ) : plain (Proc.get >>= f) s = plain (f s) s := rfl

theorem plain_bind (t : Io σ α) (f : α → Io σ β) :
    plain (t >>= f) = plain t >>= fun a => plain (f a) := by
  funext s
  simp only [plain, Proc.mapError, Proc.bind_apply, Prog.bind_assoc]
  congr 1
  funext x
  obtain ⟨r, s'⟩ := x
  cases r with
  | ok a => rfl
  | error e => rfl

/-- What follows a procedure only has to agree on what that one may return. -/
theorem plain_bind_congr {t : Io σ α} {s : σ} {P : α → σ → Prop} {f g : α → CheckedIo σ β}
    (h : Says (t s) fun x _ => ∀ a, x.1 = .ok a → P a x.2)
    (hfg : ∀ a s', P a s' → f a s' = g a s') : (plain t >>= f) s = (plain t >>= g) s := by
  have hplain : Says (plain t s) fun x _ => ∀ a, x.1 = .ok a → P a x.2 := by
    refine Says.mapError (h.mono ?_)
    rintro ⟨r, s'⟩ tr hx a ha
    cases r with
    | ok b => exact hx a (congrArg Except.ok (Except.ok.inj ha))
    | error e => cases ha
  exact hplain.bindP_congr fun a s' hx => hfg a s' (hx a rfl)

theorem plain_ite {p : Prop} [Decidable p] (t u : Io σ α) :
    plain (if p then t else u) = if p then plain t else plain u := by
  split_ifs <;> rfl

theorem plain_on {τ : Type} (t : Io τ α) (x : τ) :
    plain (t.on x : Io σ (α × τ)) = (plain t).on x := by
  funext s
  simp only [plain, Proc.mapError, Proc.on, Prog.bind_assoc]
  congr 1
  funext y
  obtain ⟨r, x'⟩ := y
  cases r with
  | ok a => rfl
  | error e => rfl

theorem plain_onActive (t : Io File α) :
    plain (SegmentLog.onActive t) = onActive (plain t) := by
  funext l
  obtain ⟨config, closed, active, nextOffset, poisoned⟩ := l
  cases active with
  | none => rfl
  | some a =>
    simp only [plain, Proc.mapError, SegmentLog.onActive, onActive, Prog.bind_assoc, Prog.pure_bind]

end Plain

section Open

variable {c : Codec} {dir : String}

theorem openClosed_eq (base : ℕ) :
    openClosed c dir base = plain (SegmentLog.openClosed c dir base) := by
  unfold openClosed SegmentLog.openClosed
  rw [plain_bind]
  refine bind_congr fun r => ?_
  cases r with
  | error k => cases k <;> rfl
  | ok ino =>
    rw [plain_bind]
    refine bind_congr fun positions => ?_
    cases hlast : positions.getLast? with
    | none => rfl
    | some lastPos =>
      have hne : positions ≠ [] := by
        rintro rfl
        cases hlast
      have hpos := List.length_pos_of_ne_nil hne
      dsimp only
      split_ifs
      · rfl
      · rw [subU64_eq (by omega), pure_bind]

theorem openSegments_eq (bases : List ℕ) :
    openSegments c dir bases = plain (SegmentLog.openSegments c dir bases) := by
  induction bases with
  | nil => rfl
  | cons base rest ih =>
    rw [openSegments, SegmentLog.openSegments, plain_bind]
    refine bind_congr fun indexed => ?_
    rw [ih, openClosed_eq]
    dsimp only
    rw [plain_ite, plain_bind, plain_bind]

theorem openLog_eq (config : SegmentLogConfig) :
    openLog c config = plain (SegmentLog.openLog c config) := by
  unfold openLog SegmentLog.openLog
  rw [plain_bind]
  refine bind_congr fun _ => ?_
  rw [plain_bind]
  refine bind_congr fun slots => ?_
  rw [plain_bind]
  refine bind_congr fun bases => ?_
  rw [plain_bind, openSegments_eq]
  refine bind_congr fun _ => ?_
  rw [plain_bind]
  refine bind_congr fun s => ?_
  dsimp only
  rw [plain_ite, plain_bind]
  congr 1
  refine bind_congr fun mark => ?_
  cases mark <;> rfl

theorem openDir_eq (config : SegmentLogConfig) :
    openDir c config =
      SegmentLog.openDir c config >>= fun r => .pure (r.mapError .storage) := by
  rw [openDir, openLog_eq, SegmentLog.openDir, Prog.bind_assoc]
  simp only [plain, Proc.mapError, Prog.bind_assoc, Prog.pure_bind]

end Open

/-- Every segment of the log ends within `u64`. -/
structure Representable (l : Log) : Prop where
  next : l.nextOffset < 2 ^ 64
  active : ∀ a, l.active = some a → a.baseOffset + a.positions.length < 2 ^ 64
  closed : ∀ seg ∈ l.closed, seg.lastOffset + 1 < 2 ^ 64

section Append

variable {c : Codec}

theorem writeBatch_eq (ts : ℕ) (producerId : String) (batchStart : ℕ) {offset : ℕ}
    (hoffset : offset < 2 ^ 64) (events : List OtkEvent) :
    writeBatch c ts producerId batchStart offset events =
      plain (SegmentLog.writeBatch c ts producerId batchStart offset events) >>= fun positions =>
        pure (positions, offset + events.length) := by
  induction events generalizing offset with
  | nil => rfl
  | cons event rest ih =>
    rw [writeBatch, SegmentLog.writeBatch]
    split_ifs with hend
    · rw [plain_bind, plain_bind, bind_assoc]
      rfl
    · rw [plain_bind, bind_assoc]
      refine bind_congr fun r => ?_
      cases r with
      | error e =>
        dsimp only
        rw [plain_bind, plain_bind, bind_assoc]
        rfl
      | ok pos =>
        dsimp only
        rw [addU64_eq (by omega), pure_bind, ih (by omega), plain_bind, bind_assoc, bind_assoc]
        refine bind_congr fun positions => ?_
        rw [plain_pure, pure_bind, pure_bind, List.length_cons,
          show offset + (rest.length + 1) = offset + 1 + rest.length by omega]

theorem onActive_bind_pure {α β : Type} (t : CheckedIo File α) (g : α → β) :
    onActive (t >>= fun a => pure (g a)) = onActive t >>= fun a => pure (g a) := by
  funext l
  obtain ⟨config, closed, active, nextOffset, poisoned⟩ := l
  cases active with
  | none => rfl
  | some a =>
    simp only [onActive, Proc.bind_apply, Prog.bind_assoc]
    congr 1
    funext x
    obtain ⟨r, f⟩ := x
    cases r <;> rfl

theorem says_onActive_any {α : Type} (t : Io File α) (l : Log) :
    Says (SegmentLog.onActive t l) fun x _ => ∃ f, x.2 = l.setFile f := by
  obtain ⟨config, closed, active, nextOffset, poisoned⟩ := l
  cases active with
  | none => exact ⟨⟨0, 0⟩, rfl⟩
  | some a =>
    refine Says.bind ((Says.any _).mono fun x _ _ => ?_)
    exact ⟨x.2, rfl⟩

theorem onActive_none {α : Type} {t : Io File α} {l : Log} (h : l.active = none) :
    SegmentLog.onActive t l = .pure (.error (.corrupted "no active segment"), l) := by
  unfold SegmentLog.onActive
  rw [h]

theorem says_ensureActive_any (l : Log) :
    Says (ensureActive l) fun x _ => x.2 = l ∨ l.active = none ∧ x.1 = .ok () ∧
      ∃ a, a.baseOffset = l.nextOffset ∧ a.positions = [] ∧ x.2 = { l with active := some a } := by
  refine Says.getP ?_
  cases ha : l.active with
  | some a => exact .inl rfl
  | none =>
    refine Says.bindP (Says.lift fun ts => Says.bindP (Says.mapError (Says.liftE fun r => ?_)))
    cases r with
    | error k => exact .inl rfl
    | ok ino =>
      refine Says.bindP (Says.on ((Says.any _).mono ?_))
      rintro ⟨r, f⟩ tr -
      cases r with
      | error err => exact .inl rfl
      | ok _ =>
        refine Says.bindP (Says.lift fun r => ?_)
        exact .inr ⟨rfl, rfl, _, rfl, rfl, rfl⟩

theorem appendCommit_eq {l : Log} (h : l.nextOffset < 2 ^ 64) (producerId : String)
    (events : List OtkEvent) :
    appendCommit c producerId events l = plain (SegmentLog.appendCommit c producerId events) l := by
  unfold appendCommit SegmentLog.appendCommit
  rw [get_bind, plain_get_bind, plain_ite, plain_ite, plain_ite]
  split_ifs
  · rfl
  · rfl
  · rfl
  rw [plain_bind]
  refine plain_bind_congr (P := fun _ l₁ => l₁.nextOffset = l.nextOffset)
    ((says_ensureActive_any l).mono ?_) fun _ l₁ hnext₁ => ?_
  · rintro ⟨r, l₁⟩ tr hl₁ - -
    rcases hl₁ with rfl | ⟨-, -, a, -, -, rfl⟩
    · rfl
    · rfl
  rw [plain_bind]
  refine plain_bind_congr (P := fun _ l₂ => l₂ = l₁) (Says.lift fun ts => ?_) fun ts l₂ hl₂ => ?_
  · rintro _ -
    rfl
  obtain rfl := hl₂
  rw [get_bind, plain_get_bind, plain_bind]
  refine plain_bind_congr (P := fun _ l₃ => l₃.nextOffset = l₂.nextOffset)
    ((says_onActive_any _ l₂).mono ?_) fun _ l₃ hnext₃ => ?_
  · rintro ⟨r, l₃⟩ tr ⟨f, rfl⟩ - -
    rfl
  rw [writeBatch_eq _ _ _ (by omega), onActive_bind_pure, bind_assoc, plain_bind, ← plain_onActive]
  refine plain_bind_congr (P := fun _ l₄ => l₄.nextOffset = l₃.nextOffset)
    ((says_onActive_any _ l₃).mono ?_) fun positions l₄ hnext₄ => ?_
  · rintro ⟨r, l₄⟩ tr ⟨f, rfl⟩ - -
    rfl
  rw [pure_bind]
  dsimp only
  rw [plain_bind (SegmentLog.onActive (syncBatch _ _)),
    plain_bind (SegmentLog.onActive (syncBatch _ _))]
  refine plain_bind_congr (P := fun _ l₅ => l₅.nextOffset = l₄.nextOffset)
    ((says_onActive_any _ l₄).mono ?_) fun _ l₅ hnext₅ => ?_
  · rintro ⟨r, l₅⟩ tr ⟨f, rfl⟩ - -
    rfl
  rw [plain_bind (SegmentLog.onActive (Proc.attempt batchEnd)),
    plain_bind (SegmentLog.onActive (Proc.attempt batchEnd))]
  refine plain_bind_congr (P := fun _ l₆ => l₆.nextOffset = l₅.nextOffset)
    ((says_onActive_any _ l₅).mono ?_) fun r l₆ hnext₆ => ?_
  · rintro ⟨r, l₆⟩ tr ⟨f, rfl⟩ - -
    rfl
  cases r with
  | error k => rfl
  | ok newFilePos =>
    have hnext : l₂.nextOffset + events.length = l₆.nextOffset + events.length := by omega
    rw [hnext]
    rfl

end Append

section Roll

variable {I : Log → Prop}

theorem maintains_call {I : σ → Prop} {α : Type}
    (p : Prog (Resp (N := FileName)) (Except IoErrorKind α)) :
    Maintains I (call p : Io σ α) := (Maintains.liftE p).mapError _

theorem maintains_onActive {α : Type} (hI : ∀ l f, I l → I (l.setFile f)) (t : Io File α) :
    Maintains I (SegmentLog.onActive t) := fun l hl =>
  (says_onActive_any t l).mono fun _ _ ⟨f, hf⟩ => hf ▸ hI l f hl

theorem maintains_writeIndex {I : σ → Prop} (base : ℕ) (positions : List ℕ) :
    Maintains I (writeIndex base positions : Io σ Unit) :=
  (maintains_call _).bind fun _ => (Maintains.on _ _).bind fun _ => (Maintains.on _ _).bind fun _ =>
    (maintains_call _).bind fun _ => (Maintains.lift _).bind fun _ => .pure _

theorem maintains_writeWatermark {I : σ → Prop} (n : ℕ) :
    Maintains I (writeWatermark n : Io σ Unit) :=
  (maintains_call _).bind fun _ => (Maintains.on _ _).bind fun _ => (Maintains.on _ _).bind fun _ =>
    (maintains_call _).bind fun _ => (Maintains.lift _).bind fun _ => .pure _

theorem maintains_evictFront (hI : ∀ l, I l → I { l with closed := l.closed.tail })
    (front : ClosedSegment) : Maintains I (evictFront front) := by
  refine Maintains.bind ((Maintains.lift _).bind fun r => ?_) fun _ => .modify hI
  cases r with
  | ok _ => exact (Maintains.lift _).bind fun _ => (Maintains.lift _).bind fun _ => .pure _
  | error k =>
    cases k with
    | notFound => exact (Maintains.lift _).bind fun _ => (Maintains.lift _).bind fun _ => .pure _
    | _ => exact .throw _

theorem maintains_enforceRetention (hI : ∀ l, I l → I { l with closed := l.closed.tail }) :
    Maintains I enforceRetention := by
  have holder : ∀ cutoff segs, Maintains I (evictOlder cutoff segs) := by
    intro cutoff segs
    induction segs with
    | nil => exact .pure _
    | cons front rest ih =>
      rw [evictOlder]
      split_ifs
      · exact (maintains_evictFront hI front).bind fun _ => ih
      · exact .pure _
  have hlarger : ∀ maxBytes segs total, Maintains I (evictLarger maxBytes total segs) := by
    intro maxBytes segs
    induction segs with
    | nil => exact fun _ => .pure _
    | cons front rest ih =>
      intro total
      rw [evictLarger]
      split_ifs
      · exact (maintains_evictFront hI front).bind fun _ => ih _
      · exact .pure _
  have hage : ∀ n, Maintains I (retainByAge n) := fun n =>
    (Maintains.lift _).bind fun _ => Maintains.get.bind fun _ => holder _ _
  have hsize : ∀ n, Maintains I (retainBySize n) := fun n =>
    Maintains.get.bind fun _ => hlarger _ _ _
  refine Maintains.get.bind fun s => ?_
  cases s.config.retention with
  | indefinite => exact .pure _
  | timeBased n => exact hage n
  | sizeBased n => exact hsize n
  | hybrid n k => exact (hage n).bind fun _ => hsize k

theorem Representable.setFile {l : Log} (h : Representable l) (f : File) :
    Representable (l.setFile f) := by
  refine ⟨h.next, fun a ha => ?_, h.closed⟩
  obtain ⟨b, hb, rfl⟩ := Option.map_eq_some_iff.mp ha
  exact h.active b hb

def Rolling (n : ℕ) (l : Log) : Prop := Representable l ∧ l.nextOffset = n

theorem maintains_closeActive (n : ℕ) {a : ActiveSegment} (hne : a.positions ≠ [])
    (ha : a.baseOffset + a.positions.length < 2 ^ 64) :
    Maintains (Rolling n) (SegmentLog.closeActive a) := by
  have hpos := List.length_pos_of_ne_nil hne
  have hfile : ∀ l f, Rolling n l → Rolling n (l.setFile f) := fun l f h => ⟨h.1.setFile f, h.2⟩
  refine (maintains_onActive hfile _).bind fun _ => ?_
  refine (maintains_writeIndex _ _).attempt.bind fun r => ?_
  cases r with
  | error e => exact (maintains_onActive hfile _).bind fun _ => .throw _
  | ok _ =>
    refine (maintains_onActive hfile _).bind fun r => (Maintains.modify fun l h => ?_).bind fun _ =>
      Maintains.get.bind fun _ => (maintains_writeWatermark _).bind fun _ =>
        maintains_enforceRetention fun l h => ?_
    · refine ⟨⟨h.1.next, nofun, fun seg hseg => ?_⟩, h.2⟩
      rcases List.mem_append.mp hseg with hold | hnew
      · exact h.1.closed seg hold
      · obtain rfl := List.mem_singleton.mp hnew
        dsimp only
        omega
    · exact ⟨⟨h.1.next, h.1.active, fun seg hseg => h.1.closed seg (List.mem_of_mem_tail hseg)⟩, h.2⟩

theorem closeActive_eq {a : ActiveSegment} (hne : a.positions ≠ [])
    (ha : a.baseOffset + a.positions.length < 2 ^ 64) :
    closeActive a = plain (SegmentLog.closeActive a) := by
  have hpos := List.length_pos_of_ne_nil hne
  unfold closeActive SegmentLog.closeActive
  rw [plain_bind]
  refine bind_congr fun _ => ?_
  rw [plain_bind]
  refine bind_congr fun r => ?_
  cases r with
  | error e => rfl
  | ok _ =>
    dsimp only
    rw [plain_bind]
    refine bind_congr fun r => ?_
    cases r <;> rw [addU64_eq ha, pure_bind, subU64_eq (by omega), pure_bind]

theorem rollSegment_eq {l : Log} (h : Representable l) :
    rollSegment l = plain SegmentLog.rollSegment l := by
  unfold rollSegment SegmentLog.rollSegment
  rw [get_bind, plain_get_bind]
  cases ha : l.active with
  | none => rfl
  | some a =>
    dsimp only
    rw [plain_ite]
    split_ifs with hnil
    · rfl
    · rw [closeActive_eq hnil (h.active a ha)]

theorem Representable.says_rollSegment {l : Log} (h : Representable l) :
    Says (SegmentLog.rollSegment l) fun x _ => Rolling l.nextOffset x.2 := by
  refine Says.getP ?_
  cases ha : l.active with
  | none => exact ⟨h, rfl⟩
  | some a =>
    dsimp only
    split_ifs with hnil
    · exact Says.modifyP (Says.bindP (Says.lift ((Says.any _).mono fun _ _ _ =>
        ⟨⟨h.next, nofun, h.closed⟩, rfl⟩)))
    · exact maintains_closeActive _ hnil (h.active a ha) l ⟨h, rfl⟩

theorem says_shouldRoll (l : Log) : Says (shouldRoll l) fun x _ => x.2 = l := by
  refine Says.getP ?_
  cases l.active with
  | none => exact rfl
  | some a =>
    dsimp only
    split_ifs
    · exact rfl
    · exact Says.bindP (Says.lift ((Says.any _).mono fun _ _ _ => rfl))

theorem appendRoll_eq {l : Log} (h : Representable l) (hpos : 0 < l.nextOffset) :
    appendRoll l = plain SegmentLog.appendRoll l := by
  unfold appendRoll SegmentLog.appendRoll
  rw [plain_bind]
  refine plain_bind_congr (P := fun _ l₁ => l₁ = l) ((says_shouldRoll l).mono ?_) fun roll l₁ hl₁ => ?_
  · rintro ⟨r, l₁⟩ tr hl₁ - -
    exact hl₁
  obtain rfl := hl₁
  have hlast : ∀ l₂ : Log, l₂.nextOffset = l₁.nextOffset →
      (Proc.get >>= fun s => subU64 s.nextOffset 1 : CheckedIo Log ℕ) l₂ =
        plain (Proc.get >>= fun s => pure (s.nextOffset - 1) : Io Log ℕ) l₂ := by
    intro l₂ hnext
    rw [get_bind, plain_get_bind, subU64_eq (by omega), plain_pure]
  cases roll with
  | false => exact hlast l₁ rfl
  | true =>
    have hroll : (rollSegment >>= fun _ => Proc.get >>= fun s => subU64 s.nextOffset 1 :
        CheckedIo Log ℕ) l₁ = plain (SegmentLog.rollSegment >>= fun _ =>
          Proc.get >>= fun s => pure (s.nextOffset - 1) : Io Log ℕ) l₁ := by
      rw [plain_bind, Proc.bind_apply, rollSegment_eq h, ← Proc.bind_apply]
      exact plain_bind_congr (P := fun _ l₂ => l₂.nextOffset = l₁.nextOffset)
        (h.says_rollSegment.mono fun x _ hx _ _ => hx.2) fun _ l₂ hnext => hlast l₂ hnext
    exact hroll

end Roll

section Whole

variable {c : Codec}

/-- A batch that the log accepts finds room for its offsets in the active segment. -/
def Room (c : Codec) (l : Log) (producerId : String) (events : List OtkEvent) : Prop :=
  l.poisoned = false → Accepts c producerId l.nextOffset events →
    ∀ a, l.active = some a → a.baseOffset + a.positions.length + events.length < 2 ^ 64

theorem says_writeRecord_fits (e : LogEntry) (f : File) :
    Says (writeRecord c e f) fun x _ => ∀ pos, x.1 = .ok pos → ¬ Unfit c e.producerId [e.event] := by
  unfold writeRecord
  split_ifs with hsize hnone hlong
  · exact nofun
  · exact nofun
  · exact nofun
  · refine (Says.any _).mono fun x _ _ _ _ => ?_
    rintro (hnil | hlong' | ⟨event, hmem, hbig⟩)
    · exact hnone ((producerIdBytes_eq_nil _).mpr hnil)
    · exact hlong hlong'
    · obtain rfl := List.mem_singleton.mp hmem
      exact hsize hbig

/-- A batch that is written fits, each record and each offset of it. -/
theorem says_writeBatch_fits (ts : ℕ) (producerId : String) (batchStart : ℕ) {offset : ℕ}
    (hoffset : offset < 2 ^ 64) (events : List OtkEvent) (f : File) :
    Says (SegmentLog.writeBatch c ts producerId batchStart offset events f) fun x _ =>
      ∀ positions, x.1 = .ok positions → BatchFits c producerId offset events := by
  induction events generalizing offset f with
  | nil => exact fun _ _ => by simp [BatchFits]
  | cons event rest ih =>
    have herr : ∀ (err : StorageError) (f : File),
        Says ((do
          let _ ← Proc.attempt (File.setLen FileName batchStart)
          Proc.throw err : Io File (List ℕ)) f) fun x _ =>
            ∀ positions, x.1 = .ok positions → BatchFits c producerId offset (event :: rest) := by
      intro err f
      refine Says.bindP (Says.attempt ((Says.any _).mono fun x _ _ => ?_))
      simp [Says]
    rw [SegmentLog.writeBatch]
    split_ifs with hend
    · exact herr _ f
    · refine Says.bindP (Says.attempt ((says_writeRecord_fits _ f).mono ?_))
      rintro ⟨r, f'⟩ tr hfit
      cases r with
      | error err => exact (herr err f').mono fun x _ hx => hx
      | ok pos =>
        refine Says.bindP ((ih (by omega) f').mono ?_)
        rintro ⟨r, f''⟩ tr' hrest
        cases r with
        | error err => simp
        | ok positions =>
          intro _ _
          exact batchFits_cons.mpr ⟨⟨hfit pos rfl, by omega⟩, hrest positions rfl⟩

/-- A batch that finds room leaves a log whose segments end within `u64`. -/
theorem Representable.says_appendCommit {l : Log} (h : Representable l) (producerId : String)
    {events : List OtkEvent} (hroom : Room c l producerId events) :
    Says (SegmentLog.appendCommit c producerId events l) fun x _ =>
      Representable x.2 ∧ ∀ u, x.1 = .ok u → 0 < x.2.nextOffset := by
  refine Says.getP ?_
  split_ifs with hpoisoned hevents
  · exact ⟨h, nofun⟩
  · exact ⟨h, nofun⟩
  · exact ⟨h, nofun⟩
  have hpos := List.length_pos_of_ne_nil hevents
  refine Says.bindP ((says_ensureActive_any l).mono ?_)
  rintro ⟨r, l₁⟩ tr hl₁
  -- The active segment, whether it is new or not.
  have hactive : Representable l₁ ∧ l₁.nextOffset = l.nextOffset ∧
      (Accepts c producerId l.nextOffset events → ∀ a, l₁.active = some a →
        a.baseOffset + a.positions.length + events.length < 2 ^ 64) := by
    rcases hl₁ with rfl | ⟨hnone, -, a, hbase, hnil, rfl⟩
    · exact ⟨h, rfl, hroom (Bool.eq_false_iff.mpr hpoisoned)⟩
    · have hnext := h.next
      refine ⟨⟨h.next, fun b hb => ?_, h.closed⟩, rfl, fun hacc b hb => ?_⟩
      · obtain rfl := Option.some.inj hb
        rw [hbase, hnil, List.length_nil]
        exact hnext
      · obtain rfl := Option.some.inj hb
        rw [hbase, hnil, List.length_nil]
        exact hacc.2.2
  obtain ⟨hrep₁, hnext₁, hroom₁⟩ := hactive
  cases r with
  | error err => exact ⟨hrep₁, nofun⟩
  | ok _ =>
    refine Says.bindP (Says.lift ((Says.any _).mono fun ts _ _ => Says.getP ?_))
    cases ha : l₁.active with
    | none =>
      refine Says.bindP ?_
      rw [onActive_none ha]
      exact ⟨hrep₁, nofun⟩
    | some a =>
      refine Says.bindP (says_onActive ha ((Says.any _).mono ?_))
      rintro ⟨r, f₁⟩ tr -
      cases r with
      | error err => exact ⟨hrep₁.setFile f₁, nofun⟩
      | ok _ =>
        refine Says.bindP (says_onActive (Log.setFile_active ha)
          (((says_writeBatch _ _ _ _ _ _).and
            (says_writeBatch_fits _ _ _ hrep₁.next _ _)).mono ?_))
        rintro ⟨r, f₂⟩ tr ⟨hpositions, hfits⟩
        have hrep₂ := (hrep₁.setFile f₁).setFile f₂
        cases r with
        | error err => exact ⟨hrep₂, nofun⟩
        | ok positions =>
          have hlen : positions.length = events.length := hpositions positions rfl
          have hacc : Accepts c producerId l.nextOffset events :=
            (accepts_iff hevents).mpr (hnext₁ ▸ hfits positions rfl)
          refine Says.bindP (says_onActive (Log.setFile_active (Log.setFile_active ha))
            ((Says.any _).mono ?_))
          rintro ⟨r, f₃⟩ tr -
          cases r with
          | error err => exact ⟨hrep₂.setFile f₃, nofun⟩
          | ok _ =>
            refine Says.bindP (says_onActive
              (Log.setFile_active (Log.setFile_active (Log.setFile_active ha)))
              (Says.attempt ((Says.any _).mono ?_)))
            rintro ⟨r, f₄⟩ tr -
            have hrep₄ := (hrep₂.setFile f₃).setFile f₄
            cases r with
            | error k => exact Says.modifyP ⟨⟨hrep₄.next, hrep₄.active, hrep₄.closed⟩, nofun⟩
            | ok newFilePos =>
              refine Says.modifyP (Says.lift fun _ => ⟨⟨?_, fun b hb => ?_, hrep₄.closed⟩, ?_⟩)
              · exact hnext₁ ▸ hacc.2.2
              · have hend := hroom₁ hacc a ha
                simp only [Log.setFile, ha, Option.map_some, Option.some.injEq] at hb
                subst hb
                simp only [List.length_append, hlen]
                omega
              · intro _ _
                exact Nat.lt_of_lt_of_le hpos (Nat.le_add_left _ _)

theorem Representable.says_appendRoll {l : Log} (h : Representable l) :
    Says (SegmentLog.appendRoll l) fun x _ => Representable x.2 := by
  refine Says.bindP ((says_shouldRoll l).mono ?_)
  rintro ⟨r, l₁⟩ tr hl₁
  obtain rfl : l₁ = l := hl₁
  cases r with
  | error err => exact h
  | ok roll =>
    cases roll with
    | false => exact h
    | true =>
      refine Says.bindP (h.says_rollSegment.mono ?_)
      rintro ⟨r, l₂⟩ tr hl₂
      cases r with
      | error err => exact hl₂.1
      | ok _ => exact hl₂.1

/-- Every append that finds room keeps the ends of the segments within `u64`. -/
theorem Representable.says_append {l : Log} (h : Representable l) (producerId : String)
    {events : List OtkEvent} (hroom : Room c l producerId events) :
    Says (SegmentLog.append c producerId events l) fun x _ => Representable x.2 := by
  refine Says.bindP ((h.says_appendCommit producerId hroom).mono ?_)
  rintro ⟨r, l₁⟩ tr ⟨h₁, -⟩
  cases r with
  | error err => exact h₁
  | ok _ => exact h₁.says_appendRoll

/-- Such an append computes no offset beyond `u64`. -/
theorem append_eq {l : Log} (h : Representable l) (producerId : String) {events : List OtkEvent}
    (hroom : Room c l producerId events) :
    append c producerId events l = plain (SegmentLog.append c producerId events) l := by
  unfold append SegmentLog.append
  rw [plain_bind, Proc.bind_apply, appendCommit_eq h.next, ← Proc.bind_apply]
  refine plain_bind_congr (P := fun _ l₁ => Representable l₁ ∧ 0 < l₁.nextOffset)
    ((h.says_appendCommit producerId hroom).mono ?_) fun _ l₁ hl₁ => appendRoll_eq hl₁.1 hl₁.2
  rintro ⟨r, l₁⟩ tr ⟨h₁, hpos⟩ u hu
  exact ⟨h₁, hpos u hu⟩

end Whole

section Read

variable {c : Codec}

/-- The loop over offsets reads the records at their positions. -/
theorem readSpan_eq {base : ℕ} (positions : List ℕ) (n : ℕ) {offset : ℕ} (h : base ≤ offset) :
    readSpan c base positions n offset =
      plain (readRecords c offset ((positions.drop (offset - base)).take n)) := by
  induction n generalizing offset with
  | zero => simp [readSpan, readRecords]
  | succ n ih =>
    rw [readSpan, subU64_eq h, pure_bind]
    cases hi : positions[offset - base]? with
    | none =>
      rw [List.drop_eq_nil_of_le (List.getElem?_eq_none_iff.mp hi)]
      rfl
    | some pos =>
      obtain ⟨hlt, rfl⟩ := List.getElem?_eq_some_iff.mp hi
      rw [List.drop_eq_getElem_cons hlt, List.take_succ_cons, readRecords, plain_bind]
      refine bind_congr fun entry => ?_
      rw [ih (by omega), plain_ite, plain_bind, show offset + 1 - base = offset - base + 1 by omega]
      rfl

theorem readSpan_positionsOf {base first last : ℕ} (positions : List ℕ) (h : base ≤ first) :
    readSpan c base positions (last - first) first =
      plain (readRecords c first (positionsOf base first last positions)) :=
  readSpan_eq positions _ h

theorem readClosed_eq (start stop : ℕ) {segs : List ClosedSegment}
    (h : ∀ seg ∈ segs, seg.lastOffset + 1 < 2 ^ 64) :
    readClosed c start stop segs = plain (SegmentLog.readClosed c start stop segs) := by
  induction segs with
  | nil => rfl
  | cons seg rest ih =>
    have ih := ih fun x hx => h x (List.mem_cons_of_mem _ hx)
    rw [readClosed, SegmentLog.readClosed, plain_ite, plain_ite, ih]
    split_ifs
    · rfl
    · rfl
    · dsimp only
      rw [addU64_eq (h seg List.mem_cons_self), pure_bind, plain_bind]
      refine bind_congr fun ino => ?_
      rw [readSpan_positionsOf _ (le_max_right _ _), plain_bind, plain_on]
      refine bind_congr fun x => ?_
      rw [plain_bind]
      rfl

theorem readActive_eq {l : Log} (start stop : ℕ)
    (h : ∀ a, l.active = some a → a.baseOffset + a.positions.length < 2 ^ 64) :
    readActive c start stop l = plain (SegmentLog.readActive c start stop) l := by
  unfold readActive SegmentLog.readActive
  rw [get_bind, plain_get_bind]
  cases ha : l.active with
  | none => rfl
  | some a =>
    dsimp only
    rw [addU64_eq (h a ha), pure_bind, pure_bind, readSpan_positionsOf _ (le_max_right _ _),
      plain_ite, plain_onActive]
    by_cases hlive : a.baseOffset < stop ∧ a.positions ≠ []
    · simp only [hlive, true_and, ite_true, ne_eq, not_false_eq_true, gt_iff_lt, plain_pure]
    · rw [if_neg hlive, if_neg fun hall => hlive ⟨hall.1, hall.2.1⟩]
      rfl

theorem says_readClosed_any (start stop : ℕ) (segs : List ClosedSegment) (l : Log) :
    Says (SegmentLog.readClosed c start stop segs l) fun x _ => x.2 = l := by
  induction segs with
  | nil => rfl
  | cons seg rest ih =>
    rw [SegmentLog.readClosed]
    split_ifs
    · exact ih
    · rfl
    · refine Says.bindP (Says.mapError (Says.liftE ((Says.any _).mono fun r _ _ => ?_)))
      cases r with
      | error k => rfl
      | ok ino =>
        refine Says.bindP (Says.on ((Says.any _).mono fun x _ _ => ?_))
        cases hx : x.1 with
        | error err => rfl
        | ok entries =>
          refine Says.bindP (ih.mono ?_)
          rintro ⟨r, l'⟩ tr hl'
          cases r with
          | error err => exact hl'
          | ok more => exact hl'

theorem readRange_eq {l : Log} (h : Representable l) (start : ℕ) (stop : Option ℕ) :
    readRange c start stop l = plain (SegmentLog.readRange c start stop) l := by
  unfold readRange SegmentLog.readRange
  rw [get_bind, plain_get_bind, plain_ite, plain_ite, plain_ite, plain_ite]
  split_ifs
  · rfl
  · rfl
  · rfl
  · rfl
  · dsimp only
    rw [readClosed_eq _ _ h.closed, plain_bind]
    refine plain_bind_congr (P := fun _ l' => l' = l) ((says_readClosed_any _ _ _ l).mono ?_)
      fun old l' hl' => ?_
    · rintro ⟨r, l'⟩ tr hl' - -
      exact hl'
    · obtain rfl := hl'
      rw [plain_bind, Proc.bind_apply, readActive_eq _ _ h.active, ← Proc.bind_apply]
      rfl

theorem latestOffset_eq {l : Log} (h : Representable l) :
    latestOffset l = (pure l.latestOffset : CheckedIo Log (Option ℕ)) l := by
  unfold latestOffset Log.latestOffset
  rw [get_bind]
  cases ha : l.active.filter fun a => a.positions ≠ [] with
  | some a =>
    obtain ⟨hsome, hne⟩ := Option.filter_eq_some_iff.mp ha
    have hpos := List.length_pos_of_ne_nil (of_decide_eq_true hne)
    dsimp only
    rw [addU64_eq (h.active a hsome), pure_bind, subU64_eq (by omega), pure_bind]
  | none =>
    dsimp only
    cases l.closed.getLast? with
    | some back => rfl
    | none =>
      dsimp only
      split_ifs with hnext
      · rw [subU64_eq hnext, pure_bind]
      · rfl

end Read

end Checked
end OtkCore.SegmentLog
