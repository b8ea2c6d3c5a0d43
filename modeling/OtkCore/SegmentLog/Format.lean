import OtkCore.Core.EventLog
import OtkCore.Lib.Bytes
import OtkCore.Lib.Quiet

/-!
# Segment file format

Headers, records and offset indexes as bytes, and the procedures that write
and read them. The event encoding and the checksum come from other crates and
are parameters (`Codec`). Every asynchronous file call is modelled by the
system calls it makes.
-/
namespace OtkCore.SegmentLog

open Effect FileIO Bytes

/-- The files of a log directory. Only canonical zero-padded names are listed
as segments; everything else is foreign. -/
inductive FileName
  | seg (base : ℕ)
  | idx (base : ℕ)
  | idxTmp (base : ℕ)
  | watermark
  | watermarkTmp
  | foreign (name : String)
  deriving DecidableEq

/-- The base offset a directory entry announces, if it is a segment file. -/
def FileName.segBase? : FileName → Option ℕ
  | .seg base => some base
  | _ => none

/-- `format!("{n:020}")`. -/
def pad20 (n : ℕ) : String :=
  String.ofList (List.replicate (20 - (toString n).length) '0') ++ toString n

def hexDigits : ℕ → ℕ → List Char
  | 0, _ => []
  | width + 1, n => hexDigits width (n / 16) ++ [Nat.digitChar (n % 16)]

/-- `format!("{n:#010x}")` of a 32-bit number. -/
def hex32 (n : ℕ) : String := "0x" ++ String.ofList (hexDigits 8 n)

/-- What the format takes from other crates: the event encoding with the text
of its decode error, the CRC-32, and the text of an invalid UTF-8 error. -/
structure Codec where
  encode : OtkEvent → List UInt8
  decode : List UInt8 → Except String OtkEvent
  crc32 : List UInt8 → UInt32
  utf8Error : List UInt8 → String

/-- Procedures on a state `σ` that fail with a storage error. -/
abbrev Io (σ α : Type) : Type := Proc (Resp (N := FileName)) StorageError σ α

/-- A file procedure whose error is passed on with `?`. -/
def onFile {α : Type} (t : FileProc FileName α) : Io File α := t.mapError .io

/-- An operation whose error is passed on with `?`. -/
def call {σ α : Type} (p : Prog (Resp (N := FileName)) (Except IoErrorKind α)) : Io σ α :=
  Proc.mapError .io (Proc.liftE p)

def nowNs {σ : Type} : Io σ ℕ := Proc.lift (Prog.op Op.now)

def magic : List UInt8 := [0x4F, 0x54, 0x4B, 0x53]
def version : UInt8 := 2
def headerLen : ℕ := 24

def maxEventCbor : ℕ := 4 * 1024 * 1024
def maxProducerIdBytes : ℕ := 256

/-- Message of the error that announces the end of a closed segment. -/
def sentinelMsg : String := "end-of-segment sentinel"

structure SegmentHeader where
  baseOffset : ℕ
  createdAtNs : ℕ
  deriving DecidableEq, Repr

namespace SegmentHeader

def bytes (h : SegmentHeader) : List UInt8 :=
  magic ++ [version, 0, 0, 0] ++ le 8 h.baseOffset ++ le 8 h.createdAtNs

def write (h : SegmentHeader) : Io File Unit := onFile (File.writeAll _ h.bytes)

def parser : Parser StorageError SegmentHeader := do
  let buf ← Parser.take headerLen
  if buf.take 4 ≠ magic then
    Parser.fail (.corrupted ("bad magic: " ++ toString (buf.take 4)))
  else if buf[4]? ≠ some version then
    Parser.fail (.corrupted ("unknown segment version " ++ toString (buf.getD 4 0)))
  else
    pure ⟨ofLe ((buf.drop 8).take 8), ofLe ((buf.drop 16).take 8)⟩

def read : Io File SegmentHeader := parser.read _ .io

end SegmentHeader

section Records

variable (c : Codec)

def producerIdBytes (s : String) : List UInt8 := s.toByteArray.data.toList

def recordBody (e : LogEntry) : List UInt8 :=
  let producerId := producerIdBytes e.producerId
  let cbor := c.encode e.event
  le 8 e.offset ++ le 8 e.appendedAtNs ++ le 2 producerId.length ++ producerId ++
    le 4 cbor.length ++ cbor

/-- `payload_len`: the length of the checksummed part. -/
def payloadLen (e : LogEntry) : ℕ :=
  22 + (producerIdBytes e.producerId).length + (c.encode e.event).length

def recordBytes (e : LogEntry) : List UInt8 :=
  le 4 (payloadLen c e) ++ recordBody c e ++ le 4 (c.crc32 (recordBody c e)).toNat

/-- Write one entry at the cursor and return where it begins. A failed write
is cut off again. -/
def writeRecord (e : LogEntry) : Io File ℕ :=
  let cbor := c.encode e.event
  let producerId := producerIdBytes e.producerId
  if cbor.length > maxEventCbor then
    Proc.throw (.invalidInput ("event CBOR (" ++ toString cbor.length ++
      " bytes) exceeds maximum record size (" ++ toString maxEventCbor ++ " bytes)"))
  else if producerId = [] then
    Proc.throw (.invalidInput "producer_id must not be empty")
  else if producerId.length > maxProducerIdBytes then
    Proc.throw (.invalidInput ("producer_id (" ++ toString producerId.length ++
      " bytes) exceeds maximum length (" ++ toString maxProducerIdBytes ++ " bytes)"))
  else do
    let recordStart ← onFile (File.streamPosition _)
    match ← Proc.attempt (File.writeAll _ (recordBytes c e)) with
    | .error k => do
      let _ ← Proc.attempt (File.setLen FileName recordStart)
      Proc.throw (.io k)
    | .ok () => pure recordStart

/-- The fields of one record. Error texts name the position `pos` it was read
from; the expected event length is a wrapping 32-bit subtraction. -/
def recordParser (pos : ℕ) : Parser StorageError LogEntry := do
  let payloadLen := ofLe (← Parser.take 4)
  if payloadLen = 0 then Parser.fail (.corrupted sentinelMsg)
  else if payloadLen < 22 then
    Parser.fail (.corrupted ("payload_len " ++ toString payloadLen ++ " too small at pos " ++
      toString pos ++ " (minimum 22)"))
  else do
    let offset := ofLe (← Parser.take 8)
    let appendedAtNs := ofLe (← Parser.take 8)
    let producerIdLen := ofLe (← Parser.take 2)
    if producerIdLen = 0 then
      Parser.fail (.corrupted ("producer_id_len is 0 at pos " ++ toString pos ++
        "; v2 segments require a non-empty producer id"))
    else if producerIdLen > maxProducerIdBytes then
      Parser.fail (.corrupted ("producer_id_len " ++ toString producerIdLen ++ " at pos " ++
        toString pos ++ " exceeds maximum " ++ toString maxProducerIdBytes))
    else do
      let producerId ← Parser.take producerIdLen
      match String.fromUTF8? producerId.toByteArray with
      | none => Parser.fail (.corrupted ("producer_id at pos " ++ toString pos ++
          " is not valid UTF-8: " ++ c.utf8Error producerId))
      | some name =>
        let expected := (payloadLen + 2 ^ 32 - 22 - producerIdLen) % 2 ^ 32
        if expected > maxEventCbor then
          Parser.fail (.corrupted ("event CBOR length " ++ toString expected ++ " at pos " ++
            toString pos ++ " exceeds maximum " ++ toString maxEventCbor))
        else do
          let stored := ofLe (← Parser.take 4)
          if stored ≠ expected then
            Parser.fail (.corrupted ("event_len mismatch at pos " ++ toString pos ++
              ": payload_len implies " ++ toString expected ++ ", stored " ++ toString stored))
          else do
            let cbor ← Parser.take stored
            let storedCrc := ofLe (← Parser.take 4)
            let computedCrc := (c.crc32 (le 8 offset ++ le 8 appendedAtNs ++ le 2 producerIdLen ++
              producerId ++ le 4 stored ++ cbor)).toNat
            if computedCrc ≠ storedCrc then
              Parser.fail (.corrupted ("CRC mismatch at pos " ++ toString pos ++ ": expected " ++
                hex32 computedCrc ++ ", got " ++ hex32 storedCrc))
            else match c.decode cbor with
              | .error e => Parser.fail (.corrupted ("CBOR decode at pos " ++ toString pos ++
                  ": " ++ e))
              | .ok event => pure ⟨offset, appendedAtNs, name, event⟩

/-- Read and verify the record whose `payload_len` field starts at `pos`. -/
def readRecord (pos : ℕ) : Io File LogEntry := do
  onFile (File.seek _ pos)
  (recordParser c pos).read _ .io

end Records

def sentinel : List UInt8 := le 4 0

/-- `Path::join` with a file name. -/
def joinPath (dir name : String) : String :=
  if dir = "" then name else if dir.endsWith "/" then dir ++ name else dir ++ "/" ++ name

def indexBytes (positions : List ℕ) : List UInt8 := positions.flatMap (le 8)

/-- Write an index to a temporary file and rename it into place. -/
def writeIndex {σ : Type} (base : ℕ) (positions : List ℕ) : Io σ Unit := do
  let ino ← call (Prog.op (Op.openWrite (.idxTmp base) true))
  let (_, tmp) ← (onFile (File.writeAll _ (indexBytes positions))).on ⟨ino, 0⟩
  let _ ← (onFile (File.sync _)).on tmp
  call (Prog.op (Op.rename (.idxTmp base) (.idx base)))
  let _ ← Proc.lift (Prog.op Op.syncDir)

/-- Largest index file that is read back: 256 MiB. -/
def maxIndexBytes : ℕ := 256 * 1024 * 1024

def chunks8 : List UInt8 → List ℕ
  | a :: b :: c :: d :: e :: f :: g :: h :: rest => ofLe [a, b, c, d, e, f, g, h] :: chunks8 rest
  | _ => []

def readIndex {σ : Type} (dir : String) (base : ℕ) : Io σ (List ℕ) := do
  let path := joinPath dir (pad20 base ++ ".idx")
  let fileLen ← call (Prog.op (Op.stat (.idx base)))
  if fileLen > maxIndexBytes then
    Proc.throw (.corrupted ("index file " ++ path ++ " is " ++ toString fileLen ++
      " bytes, exceeding the " ++ toString maxIndexBytes ++ "-byte limit"))
  else do
    let ino ← call (Prog.op (Op.openRead (.idx base)))
    let bytes ← call (Prog.op (Op.readAll ino))
    if bytes.length % 8 ≠ 0 then
      Proc.throw (.corrupted ("index file " ++ path ++ " has length " ++ toString bytes.length ++
        " which is not a multiple of 8"))
    else pure (chunks8 bytes)

/-- Drop everything from `pos` on. -/
def cutAt (pos : ℕ) : Io File Unit := do
  onFile (File.setLen _ pos)
  onFile (File.seek _ pos)

/-- The scan of `recover_active` from `pos`, after the records at `positions`.
Every round moves on by at least the length of a record, so a file length of
rounds is enough. -/
def recoverLoop (c : Codec) (base fileLen : ℕ) : ℕ → List ℕ → ℕ → Io File (List ℕ × ℕ)
  | 0, positions, pos => pure (positions, pos)
  | fuel + 1, positions, pos =>
    if pos ≥ fileLen then pure (positions, pos)
    else do
      onFile (File.seek _ pos)
      match ← Proc.attempt (File.readExact FileName 4) with
      | .error .unexpectedEof => do
        cutAt pos
        pure (positions, pos)
      | .error k => Proc.throw (.io k)
      | .ok buf =>
        let payloadLen := ofLe buf
        if payloadLen = 0 then do
          cutAt pos
          pure (positions, pos)
        else do
          match ← Proc.attempt (readRecord c pos) with
          | .ok entry =>
            let expected := base + positions.length
            if expected ≥ 2 ^ 64 then
              Proc.throw (.corrupted ("segment base_offset " ++ toString base ++
                " + record count overflows u64"))
            else if entry.offset ≠ expected then do
              cutAt pos
              pure (positions, pos)
            else
              let next := pos + payloadLen + 8
              if next < 2 ^ 64 then recoverLoop c base fileLen fuel (positions ++ [pos]) next
              else do
                cutAt pos
                pure (positions ++ [pos], pos)
          | .error (.io .unexpectedEof) | .error (.corrupted _) => do
            cutAt pos
            pure (positions, pos)
          | .error e => Proc.throw e

/-- Scan a segment from its header on and cut it at the first bad record.
Returns the record positions, the end of the last record and their number. -/
def recoverActive (c : Codec) (base : ℕ) : Io File (List ℕ × ℕ × ℕ) := do
  let fileLen ← onFile (File.len _)
  let (positions, pos) ← recoverLoop c base fileLen (fileLen + 1) [] headerLen
  pure (positions, pos, positions.length)

/-- One step of the CRC-32 that records are checked with. -/
def crcStep (crc : UInt32) : UInt32 :=
  if crc &&& 1 = 1 then (crc >>> 1) ^^^ 0xEDB88320 else crc >>> 1

def crc32 (bytes : List UInt8) : UInt32 :=
  (bytes.foldl (fun crc b => crcStep^[8] (crc ^^^ b.toUInt32)) 0xFFFFFFFF) ^^^ 0xFFFFFFFF

end OtkCore.SegmentLog
