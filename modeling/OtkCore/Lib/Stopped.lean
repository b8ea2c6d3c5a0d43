import OtkCore.Lib.Program
import OtkCore.Lib.Disk
import Mathlib.Order.Lattice

/-!
# What a stopped run has written

Runs with the operations they have performed beside them. One file is written
from a position on, piece by piece; how far the writes have reached tells which
part of the bytes is in it.
-/
namespace FileIO

open Effect

variable {N α : Type}

abbrev Trace (N : Type) : Type := List (Event (Resp (N := N)))

def endOf : Event (Resp (N := N)) → ℕ
  | ⟨.write _ pos _, r⟩ => match (r : Except IoErrorKind ℕ) with
    | .ok n => pos + n
    | .error _ => 0
  | _ => 0

/-- How far the writes of a run have reached in their files. -/
def reached (tr : Trace N) : ℕ := (tr.map endOf).foldr max 0

def Truncates (tr : Trace N) : Prop := ∃ ino n r, ⟨.setLen ino n, r⟩ ∈ tr

@[simp] theorem reached_nil : reached ([] : Trace N) = 0 := rfl

@[simp] theorem reached_append (tr tr' : Trace N) :
    reached (tr ++ tr') = max (reached tr) (reached tr') := by
  induction tr with
  | nil => simp
  | cons e tr ih =>
    change max (endOf e) (reached (tr ++ tr')) = max (max (endOf e) (reached tr)) (reached tr')
    rw [ih, max_assoc]

@[simp] theorem reached_singleton (e : Event (Resp (N := N))) : reached [e] = endOf e :=
  max_eq_left (Nat.zero_le _)

@[simp] theorem truncates_append (tr tr' : Trace N) :
    Truncates (tr ++ tr') ↔ Truncates tr ∨ Truncates tr' := by
  simp only [Truncates, List.mem_append, exists_or]

variable [DecidableEq N] {fails : Op N → Prop} {J : Trace N → Disk N → Prop}

/-- Runs that keep `J` between what they have done and the disk they leave. -/
def traced (fails : Op N → Prop) (J : Trace N → Disk N → Prop) :
    Setting (Resp (N := N)) (Disk N) (Disk N × Trace N) where
  step := Step fails
  view := Prod.fst
  rely w w₁ := w₁ = w
  guar w o r w' := w'.2 = w.2 ++ [⟨o, r⟩] ∧ J w'.2 w'.1

theorem traced_op {o : Op N} {k : Resp o → Prog (Resp (N := N)) α}
    {Q : α → Disk N × Trace N → Prop} {w : Disk N × Trace N}
    (h : ∀ r d', Step fails w.1 o r d' → J (w.2 ++ [⟨o, r⟩]) d' ∧
      Safe (traced fails J) (k r) Q (d', w.2 ++ [⟨o, r⟩])) :
    Safe (traced fails J) (.step o k) Q w := by
  rintro w₁ rfl r d' hs
  obtain ⟨hJ, hk⟩ := h r d' hs
  exact ⟨(d', _), rfl, ⟨rfl, hJ⟩, hk⟩

theorem traced_mono {J' : Trace N → Disk N → Prop} (hJ : ∀ tr d, J tr d → J' tr d)
    {p : Prog (Resp (N := N)) α} {Q : α → Disk N × Trace N → Prop} {w : Disk N × Trace N}
    (h : Safe (traced fails J) p Q w) : Safe (traced fails J') p Q w := by
  induction p generalizing w with
  | pure a => exact h
  | step o k ih =>
    intro w₁ hw₁ r d' hs
    obtain ⟨w', hv, ⟨htr, hkept⟩, hk⟩ := h w₁ hw₁ r d' hs
    exact ⟨w', hv, ⟨htr, hJ _ _ hkept⟩, ih r hk⟩

theorem traced_exec {p p' : Prog (Resp (N := N)) α} {d d' : Disk N} {tr tr₀ : Trace N}
    (hx : Exec (Step fails) d p tr d' p') {Q : α → Disk N × Trace N → Prop}
    (h : Safe (traced fails J) p Q (d, tr₀)) (hJ : J tr₀ d) : J (tr₀ ++ tr) d' := by
  induction hx generalizing tr₀ with
  | refl d p => simpa using hJ
  | @step d d₁ d' o r k tr p' hs _ ih =>
    obtain ⟨⟨d₂, tr₁⟩, rfl, ⟨htr, hJ₁⟩, hk⟩ := h _ rfl r d₁ hs
    dsimp only at htr hJ₁ hk
    rw [htr] at hJ₁ hk
    simpa using ih hk hJ₁

/-- The first `m` of the bytes have been written from `start` on, and nothing
else has happened to the disk. -/
structure Laid (old : Disk N) (ino start : ℕ) (bytes : List UInt8) (m : ℕ)
    (w : Disk N × Trace N) : Prop where
  le : m ≤ bytes.length
  disk : w.1 = old.setData ino (patch (old.data ino) start (bytes.take m))
  reached : reached w.2 = if m = 0 then 0 else start + m
  uncut : ¬ Truncates w.2

namespace Laid

variable {old d : Disk N} {ino start m : ℕ} {bytes : List UInt8} {w : Disk N × Trace N}

omit [DecidableEq N] in
theorem nil {tr : Trace N} (htr : FileIO.reached tr = 0) (hcut : ¬ Truncates tr)
    (h : start ≤ (old.data ino).length) (bytes : List UInt8) :
    Laid old ino start bytes 0 (old, tr) := by
  refine ⟨Nat.zero_le _, ?_, htr, hcut⟩
  have hpatch : patch (old.data ino) start [] = old.data ino := by
    simp [patch, Nat.sub_eq_zero_of_le h]
  rw [List.take_zero, hpatch, Disk.setData_data]

omit [DecidableEq N] in
theorem length_data (h : Laid old ino start bytes m w) :
    (w.1.data ino).length = max (old.data ino).length (start + m) := by
  rw [h.disk, Disk.data_setData, if_pos rfl, length_patch, List.length_take,
    Nat.min_eq_left h.le]

omit [DecidableEq N] in
theorem stay (h : Laid old ino start bytes m w) {o : Op N} {r : Resp o}
    (hend : endOf ⟨o, r⟩ = 0) (hcut : ∀ i n, o ≠ .setLen i n) :
    Laid old ino start bytes m (w.1, w.2 ++ [⟨o, r⟩]) := by
  refine ⟨h.le, h.disk, ?_, ?_⟩
  · simp [h.reached, hend]
  · rw [truncates_append]
    rintro (hc | ⟨i, n, r', hmem⟩)
    · exact h.uncut hc
    · exact hcut i n (congrArg Sigma.fst (List.mem_singleton.mp hmem)).symm

omit [DecidableEq N] in
theorem write (h : Laid old ino start bytes m w) {piece : List UInt8}
    (hpiece : piece <+: bytes.drop m) {k : ℕ} (hk : 0 < k) (hle : k ≤ piece.length) :
    Laid old ino start bytes (m + k)
      (w.1.setData ino (patch (w.1.data ino) (start + m) (piece.take k)),
        w.2 ++ [⟨.write ino (start + m) piece, .ok k⟩]) := by
  have hroom := hpiece.length_le
  rw [List.length_drop] at hroom
  have hm := h.le
  have hbytes : bytes.take m ++ piece.take k = bytes.take (m + k) := by
    obtain ⟨more, hmore⟩ := hpiece
    rw [List.take_add, ← hmore, List.take_append_of_le_length hle]
  have hlen : (bytes.take m).length = m := by rw [List.length_take, Nat.min_eq_left hm]
  have hpatch := patch_patch (old.data ino) start (bytes.take m) (piece.take k)
  rw [hlen, hbytes] at hpatch
  refine ⟨by omega, ?_, ?_, ?_⟩
  · dsimp only
    rw [h.disk, Disk.data_setData, if_pos rfl, hpatch]
    simp [Disk.setData]
  · rw [reached_append, reached_singleton, h.reached, if_neg (show m + k ≠ 0 by omega)]
    change max _ (start + m + k) = _
    split_ifs <;> omega
  · rw [truncates_append]
    rintro (hc | ⟨i, n, r', hmem⟩)
    · exact h.uncut hc
    · simp at hmem

end Laid

theorem traced_writeAll (hfails : ∀ i p b, ¬ fails (.write i p b)) {old : Disk N} {ino start : ℕ}
    {bytes : List UInt8} (hJ : ∀ m w, Laid old ino start bytes m w → J w.2 w.1)
    {Q : Except IoErrorKind Unit × File → Disk N × Trace N → Prop} {piece : List UInt8} {m : ℕ}
    {w : Disk N × Trace N} (h : Laid old ino start bytes m w) (hpiece : piece <+: bytes.drop m)
    (hok : ∀ w', Laid old ino start bytes (m + piece.length) w' →
      Q (.ok (), ⟨ino, start + m + piece.length⟩) w') :
    Safe (traced fails J) (File.writeAll N piece ⟨ino, start + m⟩) Q w := by
  unfold File.writeAll
  suffices ∀ fuel piece m w, piece.length ≤ fuel → Laid old ino start bytes m w →
      piece <+: bytes.drop m →
      (∀ w', Laid old ino start bytes (m + piece.length) w' →
        Q (.ok (), ⟨ino, start + m + piece.length⟩) w') →
      Safe (traced fails J) (File.writeAllAux N fuel piece ⟨ino, start + m⟩) Q w from
    this piece.length piece m w le_rfl h hpiece hok
  clear h hpiece hok
  intro fuel
  induction fuel with
  | zero =>
    intro piece m w hfuel h hpiece hok
    obtain rfl := List.length_eq_zero_iff.mp (Nat.le_zero.mp hfuel)
    exact hok w h
  | succ fuel ih =>
    intro piece m w hfuel h hpiece hok
    rw [File.writeAllAux]
    split_ifs with hnil
    · subst hnil
      exact hok w h
    · refine traced_op fun r d' hs => ?_
      obtain ⟨k, hk, hle, -, rfl, rfl⟩ | ⟨hf, -⟩ := hs
      · have hnext := h.write hpiece hk hle
        refine ⟨hJ _ _ hnext, ?_⟩
        change Safe (traced fails J) ((if k = 0 then Proc.throw .writeZero
          else File.writeAllAux N fuel (piece.drop k) : FileProc N Unit) ⟨ino, start + m + k⟩) Q _
        rw [if_neg (by omega), Nat.add_assoc]
        have hlen : (piece.drop k).length = piece.length - k := List.length_drop
        refine ih _ (m + k) _ (by omega) hnext ?_ fun w' hw' => ?_
        · obtain ⟨more, hmore⟩ := hpiece
          refine ⟨more, ?_⟩
          rw [← List.drop_append_of_le_length hle, hmore, List.drop_drop]
        · have hall : m + k + (piece.length - k) = m + piece.length := by omega
          rw [hlen] at hw' ⊢
          rw [hall] at hw'
          rw [show start + (m + k) + (piece.length - k) = start + m + piece.length by omega]
          exact hok w' hw'
      · exact absurd hf (hfails _ _ _)

end FileIO
