import OtkCore.Lib.Parser
import OtkCore.Lib.Outcome

/-!
# How far a reader has seen

A reader that has not seen the end of a file cannot tell it from a shorter one:
every answer it has got so far, the disk with the file cut behind what it has seen
would have given as well.
-/
namespace FileIO

open Effect

variable {N : Type}

def Op.Reads : Op N → Prop
  | .now | .readDir | .dirEntry _ | .stat _ | .openRead _ | .fileLen _ | .seek _ | .read _ _ _
  | .readAll _ => True
  | _ => False

section Shown

variable [DecidableEq N]

/-- How many bytes of the file `ino` an answer shows. -/
def shown (d : Disk N) (ino : ℕ) : (o : Op N) → Resp o → ℕ
  | .read i pos _, .ok bytes => if i = ino ∧ bytes ≠ [] then pos + bytes.length else 0
  | .readAll i, .ok bytes => if i = ino then bytes.length else 0
  | .fileLen i, .ok n => if i = ino then n else 0
  | .stat x, .ok n => if d.find x = some ino then n else 0
  | _, _ => 0

variable {fails : Op N → Prop} {d d' : Disk N} {o : Op N} {r : Resp o}

theorem Step.reads_same (h : Step fails d o r d') (ho : o.Reads) : d' = d := by
  cases o with
  | now => exact h.2
  | readDir | stat x | openRead x | fileLen i | seek i | read i pos len | readAll i => exact h.1
  | dirEntry slot =>
    cases slot with
    | known x | fresh present => exact h.1
  | notify | makeDir | openWrite x truncate | write i pos bytes | setLen i len | sync i | syncDir
  | rename src dst | unlink x => exact ho.elim

/-- The disk with a file cut after `b` bytes. -/
def Disk.cutFile (d : Disk N) (ino b : ℕ) : Disk N := d.setData ino ((d.data ino).take b)

@[simp] theorem Disk.find_cutFile (d : Disk N) (ino b : ℕ) (x : N) :
    (d.cutFile ino b).find x = d.find x := rfl

omit [DecidableEq N] in
theorem Disk.data_cutFile (d : Disk N) (ino b : ℕ) : (d.cutFile ino b).data ino =
    (d.data ino).take b := by
  simp [cutFile]

omit [DecidableEq N] in
theorem Disk.data_cutFile_ne (d : Disk N) {ino i : ℕ} (h : i ≠ ino) (b : ℕ) :
    (d.cutFile ino b).data i = d.data i := by
  simp [cutFile, h]

omit [DecidableEq N] in
theorem Disk.data_cutFile_of_length {ino i b : ℕ} (h : i = ino → (d.data i).length ≤ b) :
    (d.cutFile ino b).data i = d.data i := by
  by_cases hi : i = ino
  · subst hi
    rw [data_cutFile, List.take_of_length_le (h rfl)]
  · exact data_cutFile_ne d hi b

theorem Step.cutFile (h : Step fails d o r d') (ho : o.Reads) {ino b : ℕ}
    (hb : shown d ino o r ≤ b) : Step fails (d.cutFile ino b) o r (d.cutFile ino b) := by
  cases o with
  | now => exact ⟨h.1, rfl⟩
  | readDir => exact ⟨rfl, h.2⟩
  | dirEntry slot =>
    cases slot with
    | known x | fresh present => exact ⟨rfl, h.2⟩
  | openRead x => exact ⟨rfl, h.2⟩
  | seek i => exact ⟨rfl, h.2⟩
  | stat x =>
    refine ⟨rfl, h.2.imp_left fun hr => ?_⟩
    rw [Disk.find_cutFile]
    cases hx : d.find x with
    | none => rw [hr, hx]
    | some i =>
      rw [hx] at hr
      dsimp only at hr ⊢
      rw [hr, Disk.data_cutFile_of_length]
      rintro rfl
      simpa [shown, hr, hx] using hb
  | fileLen i =>
    refine ⟨rfl, h.2.imp_left fun hr => ?_⟩
    rw [hr, Disk.data_cutFile_of_length]
    rintro rfl
    simpa [shown, hr] using hb
  | readAll i =>
    refine ⟨rfl, h.2.imp_left fun hr => ?_⟩
    rw [hr, Disk.data_cutFile_of_length]
    rintro rfl
    simpa [shown, hr] using hb
  | read i pos len =>
    refine ⟨rfl, h.2.imp_left ?_⟩
    rintro ⟨k, hk, hr, hpos⟩
    by_cases hi : i = ino
    · subst hi
      rw [Disk.data_cutFile]
      refine ⟨k, hk, ?_, ?_⟩
      · rw [List.drop_take, List.take_take, Nat.min_comm, ← List.take_take, hr]
        refine congrArg Except.ok (List.take_of_length_le ?_).symm
        by_cases hnil : ((d.data i).drop pos).take k = []
        · simp [hnil]
        · have hend : pos + (((d.data i).drop pos).take k).length ≤ b := by
            simpa only [shown, hr, true_and, if_pos hnil] using hb
          omega
      · rcases hpos with hlen | hend | hk'
        · exact Or.inl hlen
        · refine Or.inr (Or.inl (le_trans ?_ hend))
          rw [List.length_take]
          exact Nat.min_le_right _ _
        · exact Or.inr (Or.inr hk')
    · rw [Disk.data_cutFile_ne d hi]
      exact ⟨k, hk, hr, hpos⟩
  | notify | makeDir | openWrite x truncate | write i pos bytes | setLen i len | sync i | syncDir
  | rename src dst | unlink x => exact ho.elim

end Shown

theorem uses_readExactAux (fuel n : ℕ) (acc : List UInt8) :
    Uses Op.Reads (File.readExactAux N fuel n acc) := by
  induction fuel generalizing n acc with
  | zero => exact .pure _
  | succ fuel ih =>
    rw [File.readExactAux]
    split_ifs
    · exact .pure _
    · refine Uses.bind (.bind .get fun f => .bind (.liftE (.op trivial)) fun bytes =>
        .bind (.modify _) fun _ => .pure _) fun bytes => ?_
      split_ifs
      · exact .throw _
      · exact ih _ _

theorem uses_readExact (n : ℕ) : Uses Op.Reads (File.readExact N n) := uses_readExactAux n n []

theorem uses_seek (pos : ℕ) : Uses Op.Reads (File.seek N pos) :=
  .bind .get fun _ => .bind (.liftE (.op trivial)) fun _ => .modify _

theorem uses_streamPosition : Uses Op.Reads (File.streamPosition N) :=
  .bind .get fun _ => .bind (.liftE (.op trivial)) fun _ => .pure _

theorem uses_read {ε α : Type} (inject : IoErrorKind → ε) (p : Parser ε α) :
    Uses Op.Reads (p.read N inject) := by
  induction p with
  | done r => exact .liftE trivial
  | need n k ih => exact .bind (.mapError (uses_readExact n) _) ih

end FileIO
