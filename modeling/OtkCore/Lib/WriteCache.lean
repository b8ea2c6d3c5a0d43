import OtkCore.Lib.Horizon
import Mathlib.Data.Set.Basic

/-!
# A disk behind a write cache

What programs see of a disk and what its medium holds are two things. A cached disk
keeps, besides the disk that programs see, the states of the directory and the
contents of each file since they were last synced. A power loss leaves one state of
the directory and one content of each file, each chosen for itself. A program that
changes a file only while the others are on the medium, and the directory only while
all files are, loses no more by it than by being stopped.
-/
namespace FileIO

open Effect

variable {N : Type}

/-- A state of a directory: its links, and the first inode that was still free. -/
abbrev Links (N : Type) : Type := (AList fun _ : N => ℕ) × ℕ

def Disk.links (d : Disk N) : Links N := (d.dir, d.next)

structure Cached (N : Type) where
  disk : Disk N
  links : Set (Links N)
  contents : ℕ → Set (List UInt8)
  links_mem : disk.links ∈ links
  contents_mem : ∀ i, disk.data i ∈ contents i

def Syncs (i : ℕ) : (o : Op N) → Resp o → Prop
  | .sync j, .ok () => j = i
  | _, _ => False

/-- The answer says that the directory has been synced. -/
def SyncsDir : (o : Op N) → Resp o → Prop
  | .syncDir, .ok () => True
  | _, _ => False

/-- What is left of a write that a power loss has cut short. -/
def Tears (d : Disk N) (i : ℕ) : (o : Op N) → Resp o → List UInt8 → Prop
  | .write j pos bytes, .ok k, v =>
    j = i ∧ ∃ n, 0 < n ∧ n ≤ k ∧ v = patch (d.data i) pos (bytes.take n)
  | _, _, _ => False

namespace Cached

@[ext] theorem ext {m m' : Cached N} (hdisk : m.disk = m'.disk) (hlinks : m.links = m'.links)
    (hcontents : m.contents = m'.contents) : m = m' := by
  cases m
  cases m'
  dsimp only at hdisk hlinks hcontents
  subst hdisk hlinks hcontents
  rfl

def clean (d : Disk N) : Cached N := ⟨d, {d.links}, fun i => {d.data i}, rfl, fun _ => rfl⟩

/-- After an operation that leaves the disk `d`. -/
def after (m : Cached N) (o : Op N) (r : Resp o) (d : Disk N) : Cached N where
  disk := d
  links := {x | x = d.links ∨ x ∈ m.links ∧ ¬ SyncsDir o r}
  contents i := {v | v = d.data i ∨ v ∈ m.contents i ∧ ¬ Syncs i o r ∨ Tears m.disk i o r v}
  links_mem := Or.inl rfl
  contents_mem _ := Or.inl rfl

protected def Step [DecidableEq N] (fails : Op N → Prop) (m : Cached N) (o : Op N) (r : Resp o)
    (m' : Cached N) : Prop :=
  ∃ d, FileIO.Step fails m.disk o r d ∧ m' = m.after o r d

/-- A power loss may leave `d`. A file that the directory left does not know is gone. -/
structure Remains (m : Cached N) (d : Disk N) : Prop where
  links : d.links ∈ m.links
  data : ∀ i < d.next, d.data i ∈ m.contents i
  fresh : ∀ i, d.next ≤ i → d.data i = []

/-- The medium holds the file as programs see it. -/
def Clean (m : Cached N) (i : ℕ) : Prop := ∀ v ∈ m.contents i, v = m.disk.data i

/-- The medium holds the directory as programs see it. -/
def Listed (m : Cached N) : Prop := ∀ x ∈ m.links, x = m.disk.links

variable [DecidableEq N]

/-- Links lead to inodes that were given out, other inodes are blank, and no earlier
directory knows later inodes. -/
structure Sound (m : Cached N) : Prop where
  linked : ∀ x i, m.disk.find x = some i → i < m.disk.next
  fresh : ∀ i, m.disk.next ≤ i → m.disk.data i = []
  older : ∀ x ∈ m.links, x.2 ≤ m.disk.next

/-- No file but `i` is behind, and no earlier directory that the medium may hold knows
that file. -/
structure Alone (m : Cached N) (i : ℕ) : Prop where
  sound : m.Sound
  given : i < m.disk.next
  others : ∀ j, j ≠ i → m.Clean j
  links : ∀ x ∈ m.links, x = m.disk.links ∨ x.2 ≤ i

structure Stored (m : Cached N) : Prop where
  sound : m.Sound
  clean : ∀ i, m.Clean i

/-- A change of a file finds the other files on the medium, and a change of the
directory finds all of them there. -/
def Orderly (m : Cached N) : Op N → Prop
  | .write i _ _ | .setLen i _ => m.Alone i
  | .openWrite x truncate =>
    match m.disk.find x with
    | some i => truncate = true → m.Alone i
    | none => m.Stored
  | .rename _ _ | .unlink _ => m.Stored
  | _ => True

theorem remains_disk {m : Cached N} (h : m.Sound) : m.Remains m.disk :=
  ⟨m.links_mem, fun i _ => m.contents_mem i, h.fresh⟩

theorem Stored.eq_disk {m : Cached N} (h : m.Stored) (hlisted : m.Listed) {d : Disk N}
    (hd : m.Remains d) : d = m.disk := by
  have hlinks := hlisted _ hd.links
  obtain ⟨dir, data, next⟩ := d
  obtain ⟨rfl, rfl⟩ := Prod.mk.inj hlinks
  have hdata : data = m.disk.data := by
    funext i
    by_cases hi : i < m.disk.next
    · exact h.clean i _ (hd.data i hi)
    · exact (hd.fresh i (by simpa using hi)).trans (h.sound.fresh i (by simpa using hi)).symm
  rw [hdata]

section Loss

variable {m : Cached N} {o : Op N} {r : Resp o} {d d' : Disk N} {fails : Op N → Prop}

omit [DecidableEq N] in
theorem Remains.still (htears : ∀ i v, ¬ Tears m.disk i o r v)
    (h : (m.after o r m.disk).Remains d) : m.Remains d := by
  refine ⟨?_, fun i hi => ?_, h.fresh⟩
  · rcases h.links with hnew | hold
    · exact hnew ▸ m.links_mem
    · exact hold.1
  · rcases h.data i hi with hnew | hold | htorn
    · exact hnew ▸ m.contents_mem i
    · exact hold.1
    · exact absurd htorn (htears _ _)

/-- A change of one file, of which the operation may also leave a part. -/
theorem Remains.fileChanged {i : ℕ} {bytes : List UInt8} (halone : m.Alone i)
    (htears : ∀ j v, Tears m.disk j o r v → j = i)
    (hpart : ∀ v ∈ (m.after o r (m.disk.setData i bytes)).contents i, v ∈ m.contents i ∨
      ∃ r', FileIO.Step fails m.disk o r' (m.disk.setData i v))
    (h : (m.after o r (m.disk.setData i bytes)).Remains d) :
    m.Remains d ∨ ∃ r', FileIO.Step fails m.disk o r' d := by
  have hlinks : d.links ∈ m.links := by
    rcases h.links with hnew | hold
    · exact hnew ▸ m.links_mem
    · exact hold.1
  have hother : ∀ j < d.next, j ≠ i → d.data j ∈ m.contents j := by
    intro j hj hne
    rcases h.data j hj with hnew | hold | htorn
    · rw [Disk.data_setData, if_neg hne] at hnew
      exact hnew ▸ m.contents_mem j
    · exact hold.1
    · exact absurd (htears _ _ htorn) hne
  by_cases hi : i < d.next
  · have hcurrent : d.links = m.disk.links := by
      rcases halone.links _ hlinks with heq | hle
      · exact heq
      · exact absurd hi (Nat.not_lt.mpr hle)
    rcases hpart _ (h.data i hi) with hold | ⟨r', hstep⟩
    · refine Or.inl ⟨hlinks, fun j hj => ?_, h.fresh⟩
      by_cases hji : j = i
      · exact hji ▸ hold
      · exact hother j hj hji
    · refine Or.inr ⟨r', ?_⟩
      have hdisk : m.disk.setData i (d.data i) = d := by
        obtain ⟨dir, data, next⟩ := d
        obtain ⟨rfl, rfl⟩ := Prod.mk.inj hcurrent
        have hdata : (m.disk.setData i (data i)).data = data := by
          funext j
          rw [Disk.data_setData]
          split_ifs with hji
          · rw [hji]
          · by_cases hj : j < m.disk.next
            · exact (halone.others j hji _ (hother j hj hji)).symm
            · exact (halone.sound.fresh j (by simpa using hj)).trans
                (h.fresh j (by simpa using hj)).symm
        rw [Disk.setData] at hdata ⊢
        exact congrArg (fun f => (⟨m.disk.dir, f, m.disk.next⟩ : Disk N)) hdata
      rwa [hdisk] at hstep
  · refine Or.inl ⟨hlinks, fun j hj => hother j hj ?_, h.fresh⟩
    rintro rfl
    exact hi hj

theorem Remains.dirChanged (hstored : m.Stored) (htears : ∀ i v, ¬ Tears m.disk i o r v)
    (hdata : d'.data = m.disk.data) (hnext : m.disk.next ≤ d'.next)
    (h : (m.after o r d').Remains d) : m.Remains d ∨ d = d' := by
  have hcontents : ∀ i < d.next, d.data i ∈ m.contents i := by
    intro i hi
    rcases h.data i hi with hnew | hold | htorn
    · rw [hnew, hdata]
      exact m.contents_mem i
    · exact hold.1
    · exact absurd htorn (htears _ _)
  rcases h.links with hnew | hold
  · apply Or.inr
    obtain ⟨dir, data, next⟩ := d
    obtain ⟨rfl, rfl⟩ := Prod.mk.inj hnew
    have heq : data = d'.data := by
      funext i
      rw [hdata]
      by_cases hi : i < d'.next
      · exact hstored.clean i _ (hcontents i hi)
      · have hge : d'.next ≤ i := by simpa using hi
        exact (h.fresh i hge).trans (hstored.sound.fresh i (hnext.trans hge)).symm
    rw [heq]
  · exact Or.inl ⟨hold.1, hcontents, h.fresh⟩

theorem Remains.replaced {i : ℕ} {bytes : List UInt8} (halone : m.Alone i)
    (htears : ∀ j v, ¬ Tears m.disk j o r v)
    (hstep : FileIO.Step fails m.disk o r (m.disk.setData i bytes))
    (h : (m.after o r (m.disk.setData i bytes)).Remains d) :
    m.Remains d ∨ ∃ r', FileIO.Step fails m.disk o r' d := by
  refine Remains.fileChanged halone (fun j v htorn => absurd htorn (htears j v)) (fun v hv => ?_) h
  rcases hv with hnew | hold | htorn
  · rw [hnew]
    exact Or.inr ⟨r, by simpa using hstep⟩
  · exact Or.inl hold.1
  · exact absurd htorn (htears i v)

/-- A write, of which a part may be left, as after a shorter write. -/
theorem Remains.written {i pos k : ℕ} {bytes : List UInt8} (halone : m.Alone i)
    (hk : 0 < k) (hkl : k ≤ bytes.length) (hmax : pos + k ≤ maxFileLen)
    (h : (m.after (.write i pos bytes) (.ok k) (m.disk.setData i
      (patch (m.disk.data i) pos (bytes.take k)))).Remains d) :
    m.Remains d ∨ ∃ r', FileIO.Step fails m.disk (.write i pos bytes) r' d := by
  have htears : ∀ j v, Tears m.disk j (.write i pos bytes) (.ok k) v → j = i :=
    fun _ _ htorn => htorn.1.symm
  refine Remains.fileChanged halone htears (fun v hv => ?_) h
  rcases hv with hnew | hold | ⟨-, n, hn, hnk, rfl⟩
  · rw [hnew]
    exact Or.inr ⟨.ok k, Or.inl ⟨k, hk, hkl, hmax, rfl, by simp⟩⟩
  · exact Or.inl hold.1
  · exact Or.inr ⟨.ok n, Or.inl ⟨n, hn, hnk.trans hkl, by omega, rfl, rfl⟩⟩

theorem Remains.renamed (hstored : m.Stored) (htears : ∀ i v, ¬ Tears m.disk i o r v)
    (hdata : d'.data = m.disk.data) (hnext : m.disk.next ≤ d'.next)
    (hstep : FileIO.Step fails m.disk o r d') (h : (m.after o r d').Remains d) :
    m.Remains d ∨ ∃ r', FileIO.Step fails m.disk o r' d := by
  rcases h.dirChanged hstored htears hdata hnext with hold | rfl
  · exact Or.inl hold
  · exact Or.inr ⟨r, hstep⟩

/-- What a power loss may leave after an orderly operation, it might have left before
it, or the operation leaves it. -/
theorem Remains.before (ho : m.Orderly o) (hstep : FileIO.Step fails m.disk o r d')
    (h : (m.after o r d').Remains d) :
    m.Remains d ∨ ∃ r', FileIO.Step fails m.disk o r' d := by
  cases o with
  | now =>
    obtain ⟨-, rfl⟩ := hstep
    exact Or.inl (h.still fun _ _ => id)
  | notify =>
    obtain rfl := hstep
    exact Or.inl (h.still fun _ _ => id)
  | makeDir | readDir | stat x | openRead x | fileLen i | seek i | read i pos len | readAll i
  | sync i | syncDir =>
    obtain ⟨rfl, -⟩ := hstep
    exact Or.inl (h.still fun _ _ => id)
  | dirEntry slot =>
    cases slot with
    | known x | fresh present =>
      obtain ⟨rfl, -⟩ := hstep
      exact Or.inl (h.still fun _ _ => id)
  | openWrite x truncate =>
    obtain hok | ⟨-, -, rfl⟩ := id hstep
    · cases hfind : m.disk.find x with
      | some i =>
        simp only [Orderly, hfind] at ho
        simp only [hfind] at hok
        obtain ⟨rfl, rfl⟩ := hok
        cases truncate with
        | false => exact Or.inl (h.still fun _ _ => id)
        | true => exact h.replaced (ho rfl) (fun _ _ => id) hstep
      | none =>
        simp only [Orderly, hfind] at ho
        simp only [hfind] at hok
        obtain ⟨rfl, rfl⟩ := hok
        have hdata : (m.disk.create x).data = m.disk.data := by
          funext i
          rw [Disk.data_create]
          split_ifs with hi
          · exact (ho.sound.fresh i hi.ge).symm
          · rfl
        exact h.renamed ho (fun _ _ => id) hdata (by simp) hstep
    · exact Or.inl (h.still fun _ _ => id)
  | write i pos bytes =>
    obtain ⟨k, hk, hkl, hmax, rfl, rfl⟩ | ⟨-, hr, rfl⟩ := id hstep
    · exact h.written ho hk hkl hmax
    · refine Or.inl (h.still ?_)
      rcases hr with rfl | rfl
      · rintro j v ⟨-, n, hn, hn0, -⟩
        omega
      · exact fun _ _ => id
  | setLen i len =>
    obtain ⟨rfl, rfl⟩ | ⟨-, rfl, rfl⟩ := id hstep
    · exact h.replaced ho (fun _ _ => id) hstep
    · exact Or.inl (h.still fun _ _ => id)
  | rename src dst =>
    obtain hok | ⟨-, -, rfl⟩ := id hstep
    · cases hfind : m.disk.find src with
      | some i =>
        simp only [hfind] at hok
        obtain ⟨rfl, rfl⟩ := hok
        exact h.renamed ho (fun _ _ => id) (m.disk.data_rename src dst i)
          (m.disk.next_rename src dst i).ge hstep
      | none =>
        simp only [hfind] at hok
        obtain ⟨-, rfl⟩ := hok
        exact Or.inl (h.still fun _ _ => id)
    · exact Or.inl (h.still fun _ _ => id)
  | unlink x =>
    obtain hok | ⟨-, -, rfl⟩ := id hstep
    · cases hfind : m.disk.find x with
      | some i =>
        simp only [hfind] at hok
        obtain ⟨rfl, rfl⟩ := hok
        exact h.renamed ho (fun _ _ => id) (m.disk.data_unlink x) (m.disk.next_unlink x).ge hstep
      | none =>
        simp only [hfind] at hok
        obtain ⟨-, rfl⟩ := hok
        exact Or.inl (h.still fun _ _ => id)
    · exact Or.inl (h.still fun _ _ => id)

end Loss

/-- The file may have been written, cut or synced. -/
structure Edited (i : ℕ) (m m' : Cached N) : Prop where
  alone : m'.Alone i
  links : m'.links = m.links
  disk : m'.disk.links = m.disk.links

section After

variable {m : Cached N} {o : Op N} {r : Resp o} {d : Disk N} {i : ℕ}

theorem Edited.refl (h : m.Alone i) : Edited i m m := ⟨h, rfl, rfl⟩

theorem Edited.trans {m' m'' : Cached N} (h : Edited i m m') (h' : Edited i m' m'') :
    Edited i m m'' :=
  ⟨h'.alone, h'.links.trans h.links, h'.disk.trans h.disk⟩

theorem Edited.find {m' : Cached N} (h : Edited i m m') (x : N) :
    m'.disk.find x = m.disk.find x := by
  rw [Disk.find, Disk.find, (Prod.mk.inj h.disk).1]

theorem Edited.listed {m' : Cached N} (h : Edited i m m') (hm : m.Listed) : m'.Listed := by
  intro x hx
  rw [h.links] at hx
  rw [h.disk]
  exact hm x hx

omit [DecidableEq N] in
theorem after_still (hsync : ∀ i, ¬ Syncs i o r) (hdir : ¬ SyncsDir o r)
    (htears : ∀ i v, ¬ Tears m.disk i o r v) : m.after o r m.disk = m := by
  refine Cached.ext rfl (Set.ext fun x => ⟨?_, fun hx => Or.inr ⟨hx, hdir⟩⟩)
    (funext fun i => Set.ext fun v => ⟨?_, fun hv => Or.inr (Or.inl ⟨hv, hsync i⟩)⟩)
  · rintro (rfl | hx)
    · exact m.links_mem
    · exact hx.1
  · rintro (rfl | hv | htorn)
    · exact m.contents_mem i
    · exact hv.1
    · exact absurd htorn (htears i v)

theorem Sound.after (h : m.Sound) (hlinked : ∀ x i, d.find x = some i → i < d.next)
    (hfresh : ∀ i, d.next ≤ i → d.data i = []) (hnext : m.disk.next ≤ d.next) :
    (m.after o r d).Sound := by
  refine ⟨hlinked, hfresh, ?_⟩
  rintro x (rfl | hx)
  · exact le_rfl
  · exact (h.older x hx.1).trans hnext

theorem Alone.fileChanged (h : m.Alone i) (hdir : ¬ SyncsDir o r)
    (htears : ∀ j v, Tears m.disk j o r v → j = i) (bytes : List UInt8) :
    Edited i m (m.after o r (m.disk.setData i bytes)) := by
  have hlinks : (m.after o r (m.disk.setData i bytes)).links = m.links := by
    refine Set.ext fun x => ⟨?_, fun hx => Or.inr ⟨hx, hdir⟩⟩
    rintro (rfl | hx)
    · exact m.links_mem
    · exact hx.1
  refine ⟨⟨h.sound.after h.sound.linked (fun j hj => ?_) le_rfl, h.given, fun j hj v hv => ?_, ?_⟩,
    hlinks, rfl⟩
  · have hne : j ≠ i := by
      rintro rfl
      exact absurd h.given (Nat.not_lt.mpr hj)
    rw [Disk.data_setData, if_neg hne]
    exact h.sound.fresh j hj
  · have hsame : (m.after o r (m.disk.setData i bytes)).disk.data j = m.disk.data j := by
      change (m.disk.setData i bytes).data j = _
      rw [Disk.data_setData, if_neg hj]
    rw [hsame]
    rcases hv with rfl | hold | htorn
    · exact hsame
    · exact h.others j hj v hold.1
    · exact absurd (htears j v htorn) hj
  · rw [hlinks]
    exact h.links

theorem Alone.synced (h : m.Alone i) :
    (m.after (.sync i) (.ok ()) m.disk).Stored ∧
      Edited i m (m.after (.sync i) (.ok ()) m.disk) := by
  have hedit := h.fileChanged (o := .sync i) (r := .ok ()) (fun h => h) (fun _ _ h => h.elim)
    (m.disk.data i)
  rw [Disk.setData_data] at hedit
  refine ⟨⟨hedit.alone.sound, fun j v hv => ?_⟩, hedit⟩
  by_cases hj : j = i
  · rcases hv with rfl | hold | htorn
    · rfl
    · exact absurd hj.symm hold.2
    · exact htorn.elim
  · exact hedit.alone.others j hj v hv

theorem Stored.alone (h : m.Stored) (hlisted : m.Listed) (hi : i < m.disk.next) : m.Alone i :=
  ⟨h.sound, hi, fun j _ => h.clean j, fun x hx => Or.inl (hlisted x hx)⟩

theorem Stored.dirChanged (h : m.Stored) (htears : ∀ i v, ¬ Tears m.disk i o r v)
    (hlinked : ∀ x i, d.find x = some i → i < d.next) (hdata : d.data = m.disk.data)
    (hnext : m.disk.next ≤ d.next) : (m.after o r d).Stored := by
  refine ⟨h.sound.after hlinked (fun i hi => ?_) hnext, fun i v hv => ?_⟩
  · rw [hdata]
    exact h.sound.fresh i (hnext.trans hi)
  · change v = d.data i
    rw [hdata]
    rcases hv with rfl | hold | htorn
    · rw [hdata]
    · exact h.clean i v hold.1
    · exact absurd htorn (htears i v)

theorem Stored.create (h : m.Stored) (x : N) (truncate : Bool) :
    (m.after (.openWrite x truncate) (.ok m.disk.next) (m.disk.create x)).Stored ∧
      (m.after (.openWrite x truncate) (.ok m.disk.next) (m.disk.create x)).Alone m.disk.next := by
  have hdata : (m.disk.create x).data = m.disk.data := by
    funext i
    rw [Disk.data_create]
    split_ifs with hi
    · exact (h.sound.fresh i hi.ge).symm
    · rfl
  have hlinked : ∀ y i, (m.disk.create x).find y = some i → i < (m.disk.create x).next := by
    intro y i hy
    rw [Disk.find_create] at hy
    rw [Disk.next_create]
    split_ifs at hy
    · obtain rfl := Option.some.inj hy
      exact Nat.lt_succ_self _
    · exact (h.sound.linked y i hy).trans (Nat.lt_succ_self _)
  have hstored := h.dirChanged (o := .openWrite x truncate) (r := .ok m.disk.next)
    (fun _ _ => id) hlinked hdata (by simp)
  refine ⟨hstored, hstored.sound, Nat.lt_succ_self _, fun j _ => hstored.clean j, ?_⟩
  rintro y (rfl | hy)
  · exact Or.inl rfl
  · exact Or.inr (h.sound.older y hy.1)

omit [DecidableEq N] in
theorem listed_syncDir : (m.after .syncDir (.ok ()) m.disk).Listed := by
  rintro x (rfl | hx)
  · rfl
  · exact absurd trivial hx.2

theorem Stored.syncDir (h : m.Stored) (r : Resp (.syncDir : Op N)) :
    (m.after .syncDir r m.disk).Stored :=
  h.dirChanged (fun _ _ => id) h.sound.linked rfl le_rfl

theorem Alone.syncDir (h : m.Alone i) (r : Resp (.syncDir : Op N)) :
    (m.after .syncDir r m.disk).Alone i := by
  refine ⟨h.sound.after h.sound.linked h.sound.fresh le_rfl, h.given, fun j hj v hv => ?_, ?_⟩
  · rcases hv with rfl | hold | htorn
    · rfl
    · exact h.others j hj v hold.1
    · exact htorn.elim
  · rintro x (rfl | hx)
    · exact Or.inl rfl
    · exact h.links x hx.1

end After

end Cached
end FileIO
