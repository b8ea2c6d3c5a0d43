import OtkCore.Lib.Program
import Mathlib.Data.List.AList

/-!
# A directory of files

One directory and the inodes behind its names. An inode outlives its name, so
an open handle keeps reading a file that has been unlinked. The step relation
says what the file system may answer: reads and writes may be short, a
directory is listed entry by entry while others change it, a completed step is
durable, and `fails` selects the operations that may report an error instead
of taking effect.
-/
namespace FileIO

open Effect

/-- The kinds of `std::io::Error` that are told apart. -/
inductive IoErrorKind
  | notFound
  | unexpectedEof
  | writeZero
  | other
  deriving DecidableEq, Repr

/-- A place in a directory listing: a name present when the listing began, or
room for one that has been added since. -/
inductive Slot (N : Type)
  | known (name : N)
  | fresh (present : List N)

inductive Op (N : Type)
  | now
  | notify
  | makeDir
  | readDir
  | dirEntry (slot : Slot N)
  | stat (name : N)
  | openRead (name : N)
  | openWrite (name : N) (truncate : Bool)
  | fileLen (ino : ℕ)
  | seek (ino : ℕ)
  | read (ino pos len : ℕ)
  | readAll (ino : ℕ)
  | write (ino pos : ℕ) (bytes : List UInt8)
  | setLen (ino len : ℕ)
  | sync (ino : ℕ)
  | syncDir
  | rename (src dst : N)
  | unlink (name : N)

def Op.isWrite {N : Type} : Op N → Bool
  | .write _ _ _ => true
  | _ => false

/-- What an operation returns. Opening returns an inode, `stat` and `fileLen` a
length, `write` the number of bytes it took. -/
abbrev Resp {N : Type} : Op N → Type
  | .now => ℕ
  | .notify => Unit
  | .readDir => Except IoErrorKind (List (Slot N))
  | .dirEntry _ => Except IoErrorKind (Option N)
  | .stat _ | .openRead _ | .openWrite _ _ | .fileLen _ | .write _ _ _ => Except IoErrorKind ℕ
  | .read _ _ _ | .readAll _ => Except IoErrorKind (List UInt8)
  | .makeDir | .seek _ | .setLen _ _ | .sync _ | .syncDir | .rename _ _ | .unlink _ =>
    Except IoErrorKind Unit

structure Disk (N : Type) where
  dir : AList fun _ : N => ℕ
  data : ℕ → List UInt8
  next : ℕ

/-- Largest file the operating system can address. -/
def maxFileLen : ℕ := 2 ^ 63 - 1

/-- `old` with `bytes` written at `pos`; a gap reads as zeros. -/
def patch (old : List UInt8) (pos : ℕ) (bytes : List UInt8) : List UInt8 :=
  old.take pos ++ List.replicate (pos - old.length) 0 ++ bytes ++ old.drop (pos + bytes.length)

/-- `old` cut or zero-filled to `len`. -/
def resize (old : List UInt8) (len : ℕ) : List UInt8 :=
  old.take len ++ List.replicate (len - old.length) 0

theorem patch_append (old bytes : List UInt8) : patch old old.length bytes = old ++ bytes := by
  simp [patch]

theorem length_patch (old : List UInt8) (pos : ℕ) (bytes : List UInt8) :
    (patch old pos bytes).length = max old.length (pos + bytes.length) := by
  simp only [patch, List.length_append, List.length_take, List.length_replicate, List.length_drop]
  omega

theorem patch_eq_front_append (old : List UInt8) (pos : ℕ) (bytes : List UInt8) :
    ∃ front, front.length = pos ∧ (pos ≤ old.length → front = old.take pos) ∧
      patch old pos bytes = front ++ bytes ++ old.drop (pos + bytes.length) := by
  refine ⟨old.take pos ++ List.replicate (pos - old.length) 0, ?_, fun h => ?_, rfl⟩
  · simp only [List.length_append, List.length_take, List.length_replicate]
    omega
  · simp [Nat.sub_eq_zero_of_le h]

theorem take_patch {old : List UInt8} {pos : ℕ} (h : pos ≤ old.length) (bytes : List UInt8) :
    (patch old pos bytes).take pos = old.take pos := by
  obtain ⟨front, hlen, hfront, heq⟩ := patch_eq_front_append old pos bytes
  rw [heq, List.append_assoc, ← hlen, List.take_left, hlen, hfront h]

theorem drop_patch (old : List UInt8) (pos : ℕ) (bytes : List UInt8) :
    (patch old pos bytes).drop pos = bytes ++ old.drop (pos + bytes.length) := by
  obtain ⟨front, hlen, -, heq⟩ := patch_eq_front_append old pos bytes
  rw [heq, List.append_assoc]
  nth_rewrite 1 [← hlen]
  rw [List.drop_left]

theorem patch_patch (old : List UInt8) (pos : ℕ) (bytes more : List UInt8) :
    patch (patch old pos bytes) (pos + bytes.length) more = patch old pos (bytes ++ more) := by
  obtain ⟨front, hlen, -, heq⟩ := patch_eq_front_append old pos bytes
  have hfront : (front ++ bytes).length = pos + bytes.length := by simp [hlen]
  have hzero : old.take pos ++ List.replicate (pos - old.length) 0 = front := by
    have hboth : old.take pos ++ List.replicate (pos - old.length) 0 ++
        (bytes ++ old.drop (pos + bytes.length)) =
          front ++ (bytes ++ old.drop (pos + bytes.length)) := by
      rw [← List.append_assoc, ← List.append_assoc, ← heq, patch]
    exact List.append_cancel_right hboth
  have hpad : pos + bytes.length -
      (front ++ bytes ++ old.drop (pos + bytes.length)).length = 0 := by
    rw [List.length_append, hfront]
    omega
  rw [heq, patch, hpad, ← hfront, List.take_left, List.replicate_zero, List.append_nil,
    ← List.drop_drop, List.drop_left, List.drop_drop, patch, hzero, hfront, List.length_append,
    Nat.add_assoc, List.append_assoc front]

theorem resize_le {old : List UInt8} {len : ℕ} (h : len ≤ old.length) :
    resize old len = old.take len := by
  simp [resize, Nat.sub_eq_zero_of_le h]

namespace Disk

variable {N : Type} [DecidableEq N]

def empty : Disk N := ⟨∅, fun _ => [], 0⟩

def find (d : Disk N) (name : N) : Option ℕ := d.dir.lookup name

def setData (d : Disk N) (ino : ℕ) (bytes : List UInt8) : Disk N :=
  { d with data := Function.update d.data ino bytes }

/-- Link `name` to a new empty inode. -/
def create (d : Disk N) (name : N) : Disk N :=
  ⟨d.dir.insert name d.next, Function.update d.data d.next [], d.next + 1⟩

def unlink (d : Disk N) (name : N) : Disk N := { d with dir := d.dir.erase name }

/-- Give the inode `ino` of `src` the name `dst` instead. -/
def rename (d : Disk N) (src dst : N) (ino : ℕ) : Disk N :=
  { d with dir := (d.dir.erase src).insert dst ino }

@[simp] theorem find_setData (d : Disk N) (ino : ℕ) (bytes : List UInt8) (name : N) :
    (d.setData ino bytes).find name = d.find name := rfl

omit [DecidableEq N] in
@[simp] theorem data_setData (d : Disk N) (ino j : ℕ) (bytes : List UInt8) :
    (d.setData ino bytes).data j = if j = ino then bytes else d.data j := by
  simp [setData, Function.update_apply]

omit [DecidableEq N] in
@[simp] theorem next_setData (d : Disk N) (ino : ℕ) (bytes : List UInt8) :
    (d.setData ino bytes).next = d.next := rfl

omit [DecidableEq N] in
@[simp] theorem setData_data (d : Disk N) (ino : ℕ) : d.setData ino (d.data ino) = d := by
  simp [setData]

@[simp] theorem find_create (d : Disk N) (name x : N) :
    (d.create name).find x = if x = name then some d.next else d.find x := by
  by_cases h : x = name
  · subst h
    simp [create, find]
  · simp [create, find, h, AList.lookup_insert_ne h]

@[simp] theorem data_create (d : Disk N) (name : N) (j : ℕ) :
    (d.create name).data j = if j = d.next then [] else d.data j := by
  simp [create, Function.update_apply]

@[simp] theorem next_create (d : Disk N) (name : N) : (d.create name).next = d.next + 1 := rfl

@[simp] theorem find_unlink (d : Disk N) (name x : N) :
    (d.unlink name).find x = if x = name then none else d.find x := by
  by_cases h : x = name
  · subst h
    simp [unlink, find, AList.lookup_erase]
  · simp [unlink, find, h, AList.lookup_erase_ne h]

@[simp] theorem data_unlink (d : Disk N) (name : N) : (d.unlink name).data = d.data := rfl

@[simp] theorem next_unlink (d : Disk N) (name : N) : (d.unlink name).next = d.next := rfl

@[simp] theorem find_rename (d : Disk N) (src dst x : N) (ino : ℕ) :
    (d.rename src dst ino).find x =
      if x = dst then some ino else if x = src then none else d.find x := by
  by_cases h : x = dst
  · subst h
    simp [rename, find]
  · by_cases h' : x = src
    · subst h'
      simp [rename, find, h, AList.lookup_insert_ne h, AList.lookup_erase]
    · simp [rename, find, h, h', AList.lookup_insert_ne h, AList.lookup_erase_ne h']

@[simp] theorem data_rename (d : Disk N) (src dst : N) (ino : ℕ) :
    (d.rename src dst ino).data = d.data := rfl

@[simp] theorem next_rename (d : Disk N) (src dst : N) (ino : ℕ) :
    (d.rename src dst ino).next = d.next := rfl

theorem mem_keys (d : Disk N) (name : N) : name ∈ d.dir.keys ↔ (d.find name).isSome = true := by
  rw [find, AList.lookup_isSome, AList.mem_keys]

end Disk

/-- The names of the known slots, in listing order. -/
def knownNames {N : Type} (slots : List (Slot N)) : List N :=
  slots.filterMap fun
    | .known x => some x
    | .fresh _ => none

section Step

variable {N : Type} [DecidableEq N]

/-- What the file system may answer, and the disk it leaves. An operation
selected by `fails` may also report an error and do nothing; a write among
them may take no bytes. -/
def Step (fails : Op N → Prop) (d : Disk N) : (o : Op N) → Resp o → Disk N → Prop
  | .now, t, d' => t < 2 ^ 64 ∧ d' = d
  | .notify, _, d' => d' = d
  | .makeDir, r, d' => d' = d ∧ (r = .ok () ∨ fails .makeDir ∧ r = .error .other)
  | .readDir, r, d' => d' = d ∧
      ((∃ slots, r = .ok slots ∧ (knownNames slots).Perm d.dir.keys ∧
        ∀ present, .fresh present ∈ slots → present = d.dir.keys) ∨
      fails .readDir ∧ r = .error .other)
  | .dirEntry (.known x), r, d' => d' = d ∧
      (r = .ok (some x) ∨ (d.find x = none ∧ r = .ok none) ∨
      fails (.dirEntry (.known x)) ∧ r = .error .other)
  | .dirEntry (.fresh present), r, d' => d' = d ∧
      (r = .ok none ∨ (∃ x, x ∉ present ∧ (d.find x).isSome = true ∧ r = .ok (some x)) ∨
      fails (.dirEntry (.fresh present)) ∧ r = .error .other)
  | .stat x, r, d' => d' = d ∧
      (r = (match d.find x with
        | some i => .ok (d.data i).length
        | none => .error .notFound) ∨ fails (.stat x) ∧ r = .error .other)
  | .openRead x, r, d' => d' = d ∧
      (r = (match d.find x with
        | some i => .ok i
        | none => .error .notFound) ∨ fails (.openRead x) ∧ r = .error .other)
  | .openWrite x truncate, r, d' =>
      (match d.find x with
        | some i => r = .ok i ∧ d' = if truncate then d.setData i [] else d
        | none => r = .ok d.next ∧ d' = d.create x) ∨
      fails (.openWrite x truncate) ∧ r = .error .other ∧ d' = d
  | .fileLen i, r, d' => d' = d ∧
      (r = .ok (d.data i).length ∨ fails (.fileLen i) ∧ r = .error .other)
  | .seek i, r, d' => d' = d ∧ (r = .ok () ∨ fails (.seek i) ∧ r = .error .other)
  | .read i pos len, r, d' => d' = d ∧
      ((∃ k ≤ len, r = .ok (((d.data i).drop pos).take k) ∧
        (len = 0 ∨ (d.data i).length ≤ pos ∨ 0 < k)) ∨
      fails (.read i pos len) ∧ r = .error .other)
  | .readAll i, r, d' => d' = d ∧ (r = .ok (d.data i) ∨ fails (.readAll i) ∧ r = .error .other)
  | .write i pos bytes, r, d' =>
      (∃ k, 0 < k ∧ k ≤ bytes.length ∧ pos + k ≤ maxFileLen ∧ r = .ok k ∧
        d' = d.setData i (patch (d.data i) pos (bytes.take k))) ∨
      fails (.write i pos bytes) ∧ (r = .ok 0 ∨ r = .error .other) ∧ d' = d
  | .setLen i len, r, d' =>
      (r = .ok () ∧ d' = d.setData i (resize (d.data i) len)) ∨
      fails (.setLen i len) ∧ r = .error .other ∧ d' = d
  | .sync i, r, d' => d' = d ∧ (r = .ok () ∨ fails (.sync i) ∧ r = .error .other)
  | .syncDir, r, d' => d' = d ∧ (r = .ok () ∨ fails .syncDir ∧ r = .error .other)
  | .rename src dst, r, d' =>
      (match d.find src with
        | some i => r = .ok () ∧ d' = d.rename src dst i
        | none => r = .error .notFound ∧ d' = d) ∨
      fails (.rename src dst) ∧ r = .error .other ∧ d' = d
  | .unlink x, r, d' =>
      (match d.find x with
        | some _ => r = .ok () ∧ d' = d.unlink x
        | none => r = .error .notFound ∧ d' = d) ∨
      fails (.unlink x) ∧ r = .error .other ∧ d' = d

theorem Step.imp {fails fails' : Op N → Prop} (hf : ∀ o, fails o → fails' o) {d d' : Disk N}
    {o : Op N} {r : Resp o} (h : Step fails d o r d') : Step fails' d o r d' := by
  cases o with
  | now | notify => exact h
  | makeDir | fileLen i | seek i | readAll i | sync i | syncDir | readDir | stat x | openRead x
  | read i pos len => exact h.imp_right (Or.imp_right (And.imp_left (hf _)))
  | dirEntry slot =>
    cases slot with
    | known x | fresh present =>
      exact h.imp_right (Or.imp_right (Or.imp_right (And.imp_left (hf _))))
  | openWrite x truncate | write i pos bytes | setLen i len | rename src dst | unlink x =>
    exact Or.imp_right (And.imp_left (hf _)) h

end Step

structure File where
  ino : ℕ
  pos : ℕ
  deriving DecidableEq, Repr

abbrev FileProc (N α : Type) : Type := Proc (Resp (N := N)) IoErrorKind File α

namespace File

variable (N : Type)

def seek (pos : ℕ) : FileProc N Unit := do
  let f ← Proc.get
  Proc.liftE (Prog.op (Op.seek f.ino))
  Proc.modify fun f => { f with pos := pos }

def streamPosition : FileProc N ℕ := do
  let f ← Proc.get
  Proc.liftE (Prog.op (Op.seek f.ino))
  pure f.pos

def seekEnd : FileProc N ℕ := do
  let f ← Proc.get
  let len ← Proc.liftE (Prog.op (Op.fileLen f.ino))
  Proc.modify fun f => { f with pos := len }
  pure len

def len : FileProc N ℕ := do
  let f ← Proc.get
  Proc.liftE (Prog.op (Op.fileLen f.ino))

def setLen (n : ℕ) : FileProc N Unit := do
  let f ← Proc.get
  Proc.liftE (Prog.op (Op.setLen f.ino n))

def sync : FileProc N Unit := do
  let f ← Proc.get
  Proc.liftE (Prog.op (Op.sync f.ino))

/-- One `read` call for at most `n` bytes. -/
def readSome (n : ℕ) : FileProc N (List UInt8) := do
  let f ← Proc.get
  let bytes ← Proc.liftE (Prog.op (Op.read f.ino f.pos n))
  Proc.modify fun f => { f with pos := f.pos + bytes.length }
  pure bytes

/-- One `write` call. -/
def writeSome (bytes : List UInt8) : FileProc N ℕ := do
  let f ← Proc.get
  let n ← Proc.liftE (Prog.op (Op.write f.ino f.pos bytes))
  Proc.modify fun f => { f with pos := f.pos + n }
  pure n

/-- `read_exact`: repeated reads until `n` bytes have come or the file ends.
Every read but the last returns a byte, so `n` of them are enough. -/
def readExactAux : ℕ → ℕ → List UInt8 → FileProc N (List UInt8)
  | 0, _, acc => pure acc
  | fuel + 1, n, acc =>
    if n = 0 then pure acc
    else do
      let bytes ← readSome N n
      if bytes = [] then Proc.throw .unexpectedEof
      else readExactAux fuel (n - bytes.length) (acc ++ bytes)

def readExact (n : ℕ) : FileProc N (List UInt8) :=
  readExactAux N n n []

/-- `write_all`: repeated writes until all bytes are taken. -/
def writeAllAux : ℕ → List UInt8 → FileProc N Unit
  | 0, _ => pure ()
  | fuel + 1, bytes =>
    if bytes = [] then pure ()
    else do
      let n ← writeSome N bytes
      if n = 0 then Proc.throw .writeZero
      else writeAllAux fuel (bytes.drop n)

def writeAll (bytes : List UInt8) : FileProc N Unit :=
  writeAllAux N bytes.length bytes

end File
end FileIO
