import OtkCore.Lib.WriteCache
import OtkCore.Lib.Quiet

/-!
# Programs that write in order

The rules for showing that every change a program makes is orderly, whatever it is
answered. What a power loss leaves of such a program, the program stopped between two
operations might have left as well.
-/
namespace FileIO

open Effect

variable {N α : Type} [DecidableEq N]

/-- Programs alone on a cached disk, all of whose changes are orderly. -/
def ordered (fails : Op N → Prop) : Setting (Resp (N := N)) (Cached N) (Cached N) where
  step := Cached.Step fails
  view m := m
  rely m m₁ := m₁ = m
  guar m o _ _ := m.Orderly o

variable {fails : Op N → Prop} {m m' : Cached N}

theorem remains_exec {p p' : Prog (Resp (N := N)) α} {tr : List (Event (Resp (N := N)))}
    {Q : α → Cached N → Prop} (h : Safe (ordered fails) p Q m)
    (hx : Exec (Cached.Step fails) m p tr m' p') {d : Disk N} (hd : m'.Remains d) :
    m.Remains d ∨ ∃ tr' rest, Exec (Step fails) m.disk p tr' d rest := by
  induction hx with
  | refl m p => exact Or.inl hd
  | @step m m₁ m' o r k tr p' hs _ ih =>
    obtain ⟨_, rfl, ho, hk⟩ := h m rfl r m₁ hs
    obtain ⟨d₁, hstep, rfl⟩ := hs
    rcases ih hk hd with hbefore | ⟨tr', rest, hstop⟩
    · rcases hbefore.before ho hstep with hold | ⟨r', hleft⟩
      · exact Or.inl hold
      · exact Or.inr ⟨_, _, .step hleft (.refl _ _)⟩
    · exact Or.inr ⟨_, _, .step hstep hstop⟩

/-- A run on a cached disk is a run on the disk that programs see. -/
theorem exec_uncached {p p' : Prog (Resp (N := N)) α} {tr : List (Event (Resp (N := N)))}
    (hx : Exec (Cached.Step fails) m p tr m' p') : Exec (Step fails) m.disk p tr m'.disk p' := by
  induction hx with
  | refl m p => exact .refl _ _
  | step hs _ ih =>
    obtain ⟨d, hstep, rfl⟩ := hs
    exact .step hstep ih

theorem exec_cached {d d' : Disk N} {p p' : Prog (Resp (N := N)) α}
    {tr : List (Event (Resp (N := N)))} (hx : Exec (Step fails) d p tr d' p') (m : Cached N)
    (hm : m.disk = d) : ∃ m', m'.disk = d' ∧ Exec (Cached.Step fails) m p tr m' p' := by
  induction hx generalizing m with
  | refl d p => exact ⟨m, hm, .refl _ _⟩
  | @step d d₁ d' o r k tr p' hs _ ih =>
    subst hm
    obtain ⟨m', hd, hrest⟩ := ih (m.after o r d₁) rfl
    exact ⟨m', hd, .step ⟨d₁, hs, rfl⟩ hrest⟩

theorem finishes_uncached {p : Prog (Resp (N := N)) α} {a : α}
    (hx : Finishes (Cached.Step fails) m p m' a) : Finishes (Step fails) m.disk p m'.disk a :=
  Exists.imp (fun _ => exec_uncached) hx

/-- The operation may take this link away, or let it lead elsewhere. -/
def Op.Relinks (x : N) : Op N → Prop
  | .rename src dst => src = x ∨ dst = x
  | .unlink y => y = x
  | _ => False

theorem Step.find_same {d d' : Disk N} {o : Op N} {r : Resp o} {x : N} {i : ℕ}
    (h : Step fails d o r d') (ho : ¬ o.Relinks x) (hx : d.find x = some i) :
    d'.find x = some i := by
  cases o with
  | now => exact h.2 ▸ hx
  | notify => exact h ▸ hx
  | makeDir | readDir | stat y | openRead y | fileLen j | seek j | read j pos len | readAll j
  | sync j | syncDir => exact h.1 ▸ hx
  | dirEntry slot =>
    cases slot with
    | known y | fresh present => exact h.1 ▸ hx
  | openWrite y truncate =>
    obtain hok | ⟨-, -, rfl⟩ := h
    · cases hfind : d.find y with
      | some j =>
        simp only [hfind] at hok
        obtain ⟨-, rfl⟩ := hok
        split_ifs
        · exact hx
        · exact hx
      | none =>
        simp only [hfind] at hok
        obtain ⟨-, rfl⟩ := hok
        have hne : x ≠ y := by
          rintro rfl
          simp [hfind] at hx
        rwa [Disk.find_create, if_neg hne]
    · exact hx
  | write j pos bytes =>
    obtain ⟨_, -, -, -, -, rfl⟩ | ⟨-, -, rfl⟩ := h
    · exact hx
    · exact hx
  | setLen j len =>
    obtain ⟨-, rfl⟩ | ⟨-, -, rfl⟩ := h
    · exact hx
    · exact hx
  | rename src dst =>
    obtain hok | ⟨-, -, rfl⟩ := h
    · cases hfind : d.find src with
      | some j =>
        simp only [hfind] at hok
        obtain ⟨-, rfl⟩ := hok
        rwa [Disk.find_rename, if_neg fun heq => ho (Or.inr heq.symm),
          if_neg fun heq => ho (Or.inl heq.symm)]
      | none =>
        simp only [hfind] at hok
        exact hok.2 ▸ hx
    · exact hx
  | unlink y =>
    obtain hok | ⟨-, -, rfl⟩ := h
    · cases hfind : d.find y with
      | some j =>
        simp only [hfind] at hok
        obtain ⟨-, rfl⟩ := hok
        rwa [Disk.find_unlink, if_neg fun heq => ho heq.symm]
      | none =>
        simp only [hfind] at hok
        exact hok.2 ▸ hx
    · exact hx

/-- The link leads to this file in every directory that the medium may hold. -/
def Cached.Leads (m : Cached N) (x : N) (i : ℕ) : Prop := ∀ y ∈ m.links, y.1.lookup x = some i

theorem Cached.Listed.leads (h : m.Listed) {x : N} {i : ℕ} (hx : m.disk.find x = some i) :
    m.Leads x i := by
  intro y hy
  rw [h y hy]
  exact hx

/-- A run keeps the links that it does not touch, also on the medium. -/
theorem Cached.Leads.exec {p p' : Prog (Resp (N := N)) α} {tr : List (Event (Resp (N := N)))}
    (hx : Exec (Cached.Step fails) m p tr m' p') {x : N} {i : ℕ} (h : m.Leads x i)
    (htr : ∀ e ∈ tr, ¬ e.1.Relinks x) : m'.Leads x i := by
  induction hx with
  | refl m p => exact h
  | @step m m₁ m' o r k tr p' hs _ ih =>
    refine ih ?_ fun e he => htr e (List.mem_cons_of_mem _ he)
    obtain ⟨d, hstep, rfl⟩ := hs
    rintro y (rfl | hy)
    · exact hstep.find_same (htr _ List.mem_cons_self) (h _ m.links_mem)
    · exact h y hy.1

section Operations

variable {Q : α → Cached N → Prop}

theorem ordered_op {o : Op N} {k : Resp o → Prog (Resp (N := N)) α} (ho : m.Orderly o)
    (h : ∀ r d, Step fails m.disk o r d → Safe (ordered fails) (k r) Q (m.after o r d)) :
    Safe (ordered fails) (.step o k) Q m := by
  rintro m₁ rfl r m' ⟨d, hs, rfl⟩
  exact ⟨_, rfl, ho, h r d hs⟩

/-- The operation neither changes nor syncs anything. -/
def Op.Still : Op N → Prop
  | .notify | .makeDir => True
  | o => o.Reads

theorem ordered_still {o : Op N} {k : Resp o → Prog (Resp (N := N)) α} (ho : o.Still)
    (h : ∀ r, Step fails m.disk o r m.disk → Safe (ordered fails) (k r) Q m) :
    Safe (ordered fails) (.step o k) Q m := by
  have horderly : m.Orderly o := by
    cases o with
    | openWrite x truncate | write i pos bytes | setLen i len | rename src dst | unlink x =>
      exact ho.elim
    | _ => trivial
  refine ordered_op horderly fun r d hs => ?_
  have hd : d = m.disk := by
    cases o with
    | notify => exact hs
    | makeDir => exact hs.1
    | _ => exact hs.reads_same ho
  subst hd
  have hafter : m.after o r m.disk = m := by
    refine Cached.after_still (fun i hsync => ?_) (fun hdir => ?_) fun i v htorn => ?_
    · cases o with
      | sync j => exact ho
      | _ => exact hsync
    · cases o with
      | syncDir => exact ho
      | _ => exact hdir
    · cases o with
      | write j pos bytes => exact ho
      | _ => exact htorn
  rw [hafter]
  exact h r hs

theorem ordered_uses {p : Prog (Resp (N := N)) α} (h : p.Uses Op.Still) :
    Safe (ordered fails) p (fun _ m' => m' = m) m := by
  induction p with
  | pure a => rfl
  | step o k ih => exact ordered_still h.1 fun r _ => ih r (h.2 r)

end Operations

/-- A program that only looks finds on a cached disk what it would find on the disk
that programs see. -/
theorem ordered_of_bare {p : Prog (Resp (N := N)) α} (hu : p.Uses Op.Still)
    {R : α → Disk N → Prop} (h : Safe (bare fails) p R m.disk) :
    Safe (ordered fails) p (fun a m' => m' = m ∧ R a m.disk) m := by
  induction p with
  | pure a => exact ⟨rfl, h⟩
  | step o k ih =>
    refine ordered_still hu.1 fun r hs => ih r (hu.2 r) ?_
    obtain ⟨_, rfl, -, hk⟩ := h m.disk rfl r m.disk hs
    exact hk

/-- A fact about a file and the cache that editing the file keeps. -/
structure Editable (P : ℕ → Cached N → Prop) : Prop where
  alone : ∀ {i m}, P i m → m.Alone i
  edited : ∀ {i m m'}, P i m → Cached.Edited i m m' → P i m'

omit [DecidableEq N] in
def OnFile (P : ℕ → Cached N → Prop) (f : File) (m : Cached N) : Prop := P f.ino m

theorem editable_listed : Editable fun i (m : Cached N) => m.Alone i ∧ m.Listed :=
  ⟨And.left, fun hm h => ⟨h.alone, h.listed hm.2⟩⟩

section Changes

variable {f : File}

theorem ordered_setLen (h : m.Alone f.ino) (n : ℕ) :
    Safe (ordered fails) (File.setLen N n f)
      (fun x m' => x.2 = f ∧ Cached.Edited f.ino m m') m := by
  refine Safe.getP (Safe.liftE (ordered_op h fun r d hs => ?_))
  obtain ⟨rfl, rfl⟩ | ⟨-, rfl, rfl⟩ := hs
  · exact ⟨rfl, h.fileChanged (o := .setLen f.ino n) (r := .ok ()) id (fun _ _ => False.elim) _⟩
  · rw [Cached.after_still (fun _ => id) id fun _ _ => id]
    exact ⟨rfl, .refl h⟩

theorem ordered_sync (h : m.Alone f.ino) :
    Safe (ordered fails) (File.sync N f) (fun x m' => x.2 = f ∧ Cached.Edited f.ino m m' ∧
      ((∀ o, ¬ fails o) → x.1 = .ok () ∧ m'.Stored)) m := by
  refine Safe.getP (Safe.liftE (ordered_op trivial fun r d hs => ?_))
  obtain ⟨rfl, rfl | ⟨hf, rfl⟩⟩ := hs
  · exact ⟨rfl, h.synced.2, fun _ => ⟨rfl, h.synced.1⟩⟩
  · rw [Cached.after_still (fun _ => id) id fun _ _ => id]
    exact ⟨rfl, .refl h, fun hnever => absurd hf (hnever _)⟩

theorem ordered_writeAllAux (fuel : ℕ) (bytes : List UInt8) (h : m.Alone f.ino)
    (hfuel : bytes.length ≤ fuel) :
    Safe (ordered fails) (File.writeAllAux N fuel bytes f) (fun x m' => x.2.ino = f.ino ∧
      Cached.Edited f.ino m m' ∧ ((∀ o, ¬ fails o) → x.1 = .ok ())) m := by
  induction fuel generalizing bytes f m with
  | zero => exact ⟨rfl, .refl h, fun _ => rfl⟩
  | succ fuel ih =>
    rw [File.writeAllAux]
    split_ifs with hnil
    · exact ⟨rfl, .refl h, fun _ => rfl⟩
    refine Safe.bindP (Safe.getP (Safe.bindP (Safe.liftE (ordered_op h fun r d hs => ?_))))
    obtain ⟨k, hk, hkl, hmax, rfl, rfl⟩ | ⟨hf, hr, rfl⟩ := hs
    · have hedit := h.fileChanged (o := .write f.ino f.pos bytes) (r := .ok k) id
        (fun _ _ htorn => htorn.1.symm) (patch (m.disk.data f.ino) f.pos (bytes.take k))
      change Safe (ordered fails) ((if k = 0 then Proc.throw .writeZero
        else File.writeAllAux N fuel (bytes.drop k) : FileProc N Unit) ⟨f.ino, f.pos + k⟩) _ _
      rw [if_neg (by omega)]
      refine (ih _ (f := ⟨f.ino, f.pos + k⟩) hedit.alone ?_).mono fun x m' hx => ?_
      · rw [List.length_drop]
        omega
      · exact ⟨hx.1, hedit.trans hx.2.1, hx.2.2⟩
    · have hstay : m.after (.write f.ino f.pos bytes) r m.disk = m := by
        refine Cached.after_still (fun _ => id) id fun i v htorn => ?_
        rcases hr with rfl | rfl
        · obtain ⟨-, n, hn, hn0, -⟩ := htorn
          omega
        · exact htorn
      rw [hstay]
      rcases hr with rfl | rfl
      · exact ⟨rfl, .refl h, fun hnever => absurd hf (hnever _)⟩
      · exact ⟨rfl, .refl h, fun hnever => absurd hf (hnever _)⟩

theorem ordered_writeAll (h : m.Alone f.ino) (bytes : List UInt8) :
    Safe (ordered fails) (File.writeAll N bytes f) (fun x m' => x.2.ino = f.ino ∧
      Cached.Edited f.ino m m' ∧ ((∀ o, ¬ fails o) → x.1 = .ok ())) m :=
  ordered_writeAllAux _ _ h le_rfl

end Changes

section Preserving

variable {P : ℕ → Cached N → Prop}

theorem preserves_still {ε σ : Type} {J : σ → Cached N → Prop} {o : Op N} (ho : o.Still) :
    Preserves (ordered fails) J (Proc.lift (Prog.op o) : Proc (Resp (N := N)) ε σ (Resp o)) :=
  .lift fun _ _ h => ordered_still ho fun _ _ => h

theorem preserves_call {ε σ : Type} {J : σ → Cached N → Prop}
    {p : Prog (Resp (N := N)) (Except ε α)} (hp : p.Uses Op.Still) :
    Preserves (ordered fails) J (Proc.liftE p : Proc (Resp (N := N)) ε σ α) := by
  refine .liftE fun s m h => (ordered_uses hp).mono ?_
  rintro _ m' rfl
  exact h

theorem preserves_seek (pos : ℕ) : Preserves (ordered fails) (OnFile P) (File.seek N pos) :=
  .bind .get fun _ => .bind (preserves_call (.op trivial)) fun _ => .modify fun _ _ => id

theorem preserves_streamPosition : Preserves (ordered fails) (OnFile P) (File.streamPosition N) :=
  .bind .get fun _ => .bind (preserves_call (.op trivial)) fun _ => .pure _

theorem preserves_seekEnd : Preserves (ordered fails) (OnFile P) (File.seekEnd N) :=
  .bind .get fun _ => .bind (preserves_call (.op trivial)) fun _ =>
    .bind (.modify fun _ _ => id) fun _ => .pure _

theorem preserves_len : Preserves (ordered fails) (OnFile P) (File.len N) :=
  .bind .get fun _ => preserves_call (.op trivial)

theorem preserves_readExactAux (fuel n : ℕ) (acc : List UInt8) :
    Preserves (ordered fails) (OnFile P) (File.readExactAux N fuel n acc) := by
  induction fuel generalizing n acc with
  | zero => exact .pure _
  | succ fuel ih =>
    rw [File.readExactAux]
    split_ifs
    · exact .pure _
    · refine Preserves.bind (.bind .get fun _ => .bind (preserves_call (.op trivial)) fun _ =>
        .bind (.modify fun _ _ => id) fun _ => .pure _) fun bytes => ?_
      split_ifs
      · exact .throw _
      · exact ih _ _

theorem preserves_read {ε : Type} (inject : IoErrorKind → ε) (p : Parser ε α) :
    Preserves (ordered fails) (OnFile P) (p.read N inject) := by
  induction p with
  | done r => exact preserves_call trivial
  | need n k ih => exact .bind (.mapError (preserves_readExactAux n n []) _) ih

variable (hP : Editable P)

include hP

theorem Editable.preserves_setLen (n : ℕ) :
    Preserves (ordered fails) (OnFile P) (File.setLen N n) := by
  intro f m h
  refine (ordered_setLen (hP.alone h) n).mono ?_
  rintro ⟨r, f'⟩ m' ⟨rfl, hedit⟩
  exact hP.edited h hedit

theorem Editable.preserves_writeAll (bytes : List UInt8) :
    Preserves (ordered fails) (OnFile P) (File.writeAll N bytes) := by
  intro f m h
  refine (ordered_writeAll (hP.alone h) bytes).mono ?_
  rintro ⟨r, f'⟩ m' ⟨hino, hedit, -⟩
  exact hP.edited (show P f'.ino m from hino ▸ h) (show Cached.Edited f'.ino m m' from hino ▸ hedit)

end Preserving

section Directory

theorem ordered_openWrite (h : m.Stored) (hlisted : m.Listed) (x : N) (truncate : Bool)
    {Q : Except IoErrorKind ℕ → Cached N → Prop}
    (hok : ∀ i m', m'.Alone i → m'.disk.find x = some i →
      ((m.disk.find x).isSome = true → m'.Listed) → Q (.ok i) m')
    (herr : fails (.openWrite x truncate) → Q (.error .other) m) :
    Safe (ordered fails) (Prog.op (Op.openWrite x truncate)) Q m := by
  have horderly : m.Orderly (.openWrite x truncate) := by
    simp only [Cached.Orderly]
    cases hfind : m.disk.find x with
    | some i => exact fun _ => h.alone hlisted (h.sound.linked x i hfind)
    | none => exact h
  refine ordered_op horderly fun r d hs => ?_
  obtain hopen | ⟨hf, rfl, rfl⟩ := hs
  · cases hfind : m.disk.find x with
    | some i =>
      simp only [hfind] at hopen
      obtain ⟨rfl, rfl⟩ := hopen
      have halone := h.alone hlisted (h.sound.linked x i hfind)
      cases truncate with
      | false =>
        rw [if_neg (by simp), Cached.after_still (fun _ => id) id fun _ _ => id]
        exact hok i m halone hfind fun _ => hlisted
      | true =>
        have hedit := halone.fileChanged (o := .openWrite x true) (r := .ok i) id
          (fun _ _ => False.elim) []
        exact hok i _ hedit.alone ((hedit.find x).trans hfind) fun _ => hedit.listed hlisted
    | none =>
      simp only [hfind] at hopen
      obtain ⟨rfl, rfl⟩ := hopen
      refine hok _ _ (h.create x truncate).2 ?_ (by simp [hfind])
      exact (Disk.find_create _ _ _).trans (if_pos rfl)
  · rw [Cached.after_still (fun _ => id) id fun _ _ => id]
    exact herr hf

theorem ordered_rename (h : m.Stored) (src dst : N) {Q : Except IoErrorKind Unit → Cached N → Prop}
    (hok : ∀ m', m'.Stored → Q (.ok ()) m')
    (hnone : m.disk.find src = none → Q (.error .notFound) m)
    (herr : fails (.rename src dst) → Q (.error .other) m) :
    Safe (ordered fails) (Prog.op (Op.rename src dst)) Q m := by
  refine ordered_op (show m.Orderly (.rename src dst) from h) fun r d hs => ?_
  obtain hren | ⟨hf, rfl, rfl⟩ := hs
  · cases hfind : m.disk.find src with
    | some i =>
      simp only [hfind] at hren
      obtain ⟨rfl, rfl⟩ := hren
      refine hok _ (h.dirChanged (fun _ _ => id) (fun y j hy => ?_) rfl le_rfl)
      rw [Disk.find_rename] at hy
      split_ifs at hy
      · exact Option.some.inj hy ▸ h.sound.linked src i hfind
      · exact h.sound.linked y j hy
    | none =>
      simp only [hfind] at hren
      obtain ⟨rfl, rfl⟩ := hren
      rw [Cached.after_still (fun _ => id) id fun _ _ => id]
      exact hnone hfind
  · rw [Cached.after_still (fun _ => id) id fun _ _ => id]
    exact herr hf

theorem ordered_unlink (h : m.Stored) (x : N) {Q : Except IoErrorKind Unit → Cached N → Prop}
    (hok : ∀ m', m'.Stored → Q (.ok ()) m') (hnone : Q (.error .notFound) m)
    (herr : fails (.unlink x) → Q (.error .other) m) :
    Safe (ordered fails) (Prog.op (Op.unlink x)) Q m := by
  refine ordered_op (show m.Orderly (.unlink x) from h) fun r d hs => ?_
  obtain hgone | ⟨hf, rfl, rfl⟩ := hs
  · cases hfind : m.disk.find x with
    | some i =>
      simp only [hfind] at hgone
      obtain ⟨rfl, rfl⟩ := hgone
      refine hok _ (h.dirChanged (fun _ _ => id) (fun y j hy => ?_) rfl le_rfl)
      rw [Disk.find_unlink] at hy
      split_ifs at hy
      exact h.sound.linked y j hy
    | none =>
      simp only [hfind] at hgone
      obtain ⟨rfl, rfl⟩ := hgone
      rw [Cached.after_still (fun _ => id) id fun _ _ => id]
      exact hnone
  · rw [Cached.after_still (fun _ => id) id fun _ _ => id]
    exact herr hf

theorem ordered_syncDir {Q : Except IoErrorKind Unit → Cached N → Prop}
    (hok : ∀ m', m'.Listed → (m.Stored → m'.Stored) → (∀ i, m.Alone i → m'.Alone i) →
      Q (.ok ()) m') (herr : fails .syncDir → Q (.error .other) m) :
    Safe (ordered fails) (Prog.op Op.syncDir) Q m := by
  refine ordered_op trivial fun r d hs => ?_
  obtain ⟨rfl, rfl | ⟨hf, rfl⟩⟩ := hs
  · exact hok _ Cached.listed_syncDir (fun h => h.syncDir _) fun i h => h.syncDir _
  · rw [Cached.after_still (fun _ => id) id fun _ _ => id]
    exact herr hf

end Directory
end FileIO
