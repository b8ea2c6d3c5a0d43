import OtkCore.SegmentLog.AnyDirectory
import OtkCore.SegmentLog.Checked

/-!
# Appending to any directory

Whatever a log has been opened on, its committed records stay where they are:
the file of the active segment changes behind the committed tail only, and the
files of closed segments not at all, until retention deletes them.
-/
namespace OtkCore.SegmentLog

open Effect FileIO Bytes

variable {c : Codec} {fails : Op FileName → Prop} {d d' d₁ d₂ : Disk FileName}

/-- Every name has a file of its own, and new files are new. -/
structure Linked (d : Disk FileName) : Prop where
  unshared : Unshared d
  bound : ∀ x i, d.find x = some i → i < d.next

theorem Linked.of_dir (h : Linked d) (hdir : d'.dir = d.dir) (hnext : d'.next = d.next) :
    Linked d' := by
  have hfind : d'.find = d.find := funext fun x => congrArg (AList.lookup x) hdir
  exact ⟨fun x y i => hfind ▸ h.unshared x y i, fun x i => hfind ▸ hnext ▸ h.bound x i⟩

theorem Linked.create (h : Linked d) (x : FileName) : Linked (d.create x) := by
  refine ⟨fun y z i hy hz => ?_, fun y i hy => ?_⟩
  · rw [Disk.find_create] at hy hz
    split_ifs at hy hz with hyx hzx hzx
    · rw [hyx, hzx]
    · have hlt := h.bound z i hz
      have hi := Option.some.inj hy
      omega
    · have hlt := h.bound y i hy
      have hi := Option.some.inj hz
      omega
    · exact h.unshared y z i hy hz
  · rw [Disk.find_create] at hy
    rw [Disk.next_create]
    split_ifs at hy
    · have hi := Option.some.inj hy
      omega
    · have hlt := h.bound y i hy
      omega

theorem Linked.unlink (h : Linked d) (x : FileName) : Linked (d.unlink x) := by
  refine ⟨fun y z i hy hz => ?_, fun y i hy => ?_⟩
  · rw [Disk.find_unlink] at hy hz
    split_ifs at hy hz
    exact h.unshared y z i hy hz
  · rw [Disk.find_unlink] at hy
    split_ifs at hy
    exact h.bound y i hy

theorem Linked.rename (h : Linked d) {src dst : FileName} {i : ℕ} (hsrc : d.find src = some i) :
    Linked (d.rename src dst i) := by
  refine ⟨fun y z j hy hz => ?_, fun y j hy => ?_⟩
  · rw [Disk.find_rename] at hy hz
    have hyz := h.unshared y z j
    have hysrc := h.unshared y src j
    have hzsrc := h.unshared z src j
    split_ifs at hy hz <;> simp_all
  · rw [Disk.find_rename] at hy
    rw [Disk.next_rename]
    split_ifs at hy
    · exact Option.some.inj hy ▸ h.bound src i hsrc
    · exact h.bound y j hy

theorem Linked.step (h : Linked d) {o : Op FileName} {r : Resp o} (hs : Step fails d o r d') :
    Linked d' := by
  cases o with
  | now => exact hs.2 ▸ h
  | notify => exact (show d' = d from hs) ▸ h
  | makeDir | readDir | stat x | openRead x | fileLen i | seek i | read i pos len | readAll i
  | sync i | syncDir => exact hs.1 ▸ h
  | dirEntry slot => cases slot <;> exact hs.1 ▸ h
  | openWrite x truncate =>
    rcases hs with hs | ⟨-, -, rfl⟩
    · cases hfind : d.find x with
      | some i =>
        rw [hfind] at hs
        rw [hs.2]
        split_ifs
        · exact h.of_dir rfl rfl
        · exact h
      | none =>
        rw [hfind] at hs
        rw [hs.2]
        exact h.create x
    · exact h
  | write i pos bytes =>
    rcases hs with ⟨k, -, -, -, -, rfl⟩ | ⟨-, -, rfl⟩
    · exact h.of_dir rfl rfl
    · exact h
  | setLen i len =>
    rcases hs with ⟨-, rfl⟩ | ⟨-, -, rfl⟩
    · exact h.of_dir rfl rfl
    · exact h
  | rename src dst =>
    rcases hs with hs | ⟨-, -, rfl⟩
    · cases hfind : d.find src with
      | some i =>
        rw [hfind] at hs
        rw [hs.2]
        exact h.rename hfind
      | none =>
        rw [hfind] at hs
        exact hs.2 ▸ h
    · exact h
  | unlink x =>
    rcases hs with hs | ⟨-, -, rfl⟩
    · cases hfind : d.find x with
      | some i =>
        rw [hfind] at hs
        rw [hs.2]
        exact h.unlink x
      | none =>
        rw [hfind] at hs
        exact hs.2 ▸ h
    · exact h

theorem Linked.safe {α : Type} {p : Prog (Resp (N := FileName)) α} {Q : α → Disk FileName → Prop}
    (h : Linked d) (hp : Safe (bare fails) p (fun a d' => Linked d' → Q a d') d) :
    Safe (bare fails) p Q d := by
  induction p generalizing d with
  | pure a => exact hp h
  | step o k ih =>
    refine safe_bare fun r d' hs => ?_
    obtain ⟨w, rfl, -, hk⟩ := hp d rfl r d' hs
    exact ih r (h.step hs) hk

def Stays (names : FileName → Prop) (d d' : Disk FileName) : Prop :=
  ∀ x, names x → d'.find x = d.find x ∧ ∀ i, d.find x = some i → d'.data i = d.data i

namespace Stays

variable {names : FileName → Prop}

theorem refl (d : Disk FileName) : Stays names d d := fun _ _ => ⟨rfl, fun _ _ => rfl⟩

theorem trans (h₁ : Stays names d d₁) (h₂ : Stays names d₁ d₂) : Stays names d d₂ := by
  intro x hx
  obtain ⟨hfind₁, hdata₁⟩ := h₁ x hx
  obtain ⟨hfind₂, hdata₂⟩ := h₂ x hx
  exact ⟨hfind₂.trans hfind₁, fun i hi => (hdata₂ i (hfind₁.trans hi)).trans (hdata₁ i hi)⟩

theorem mono {more : FileName → Prop} (h : Stays more d d') (hle : ∀ x, names x → more x) :
    Stays names d d' := fun x hx => h x (hle x hx)

theorem changes {x : FileName} {ino : ℕ} (h : Linked d) (hx : d.find x = some ino)
    (hd : Changes ino d d') : Stays (· ≠ x) d d' := by
  refine fun y hy => ⟨congrArg (AList.lookup y) hd.1, fun i hi => hd.2 i ?_⟩
  rintro rfl
  exact hy (h.unshared y x i hi hx)

end Stays

theorem Linked.made (h : Linked d) {x : FileName} {ino : ℕ}
    (hs : Step fails d (.openWrite x true) (.ok ino) d₁) :
    d₁.find x = some ino ∧ d₁.data ino = [] ∧ Stays (· ≠ x) d d₁ := by
  rcases hs with hs | ⟨-, herr, -⟩
  · cases hfind : d.find x with
    | some i =>
      rw [hfind] at hs
      obtain ⟨hino, rfl⟩ := hs
      obtain rfl := Except.ok.inj hino
      exact ⟨hfind, if_pos rfl, .changes h hfind (changes_setData _ _ _)⟩
    | none =>
      rw [hfind] at hs
      obtain ⟨hino, rfl⟩ := hs
      obtain rfl := Except.ok.inj hino
      refine ⟨by simp, by simp, fun y hy => ⟨by simp [hy], fun i hi => ?_⟩⟩
      have hlt := h.bound y i hi
      simp [hlt.ne]
  · cases herr

theorem not_made {x : FileName} {k : IoErrorKind}
    (hs : Step fails d (.openWrite x true) (.error k) d₁) : (∃ o, fails o) ∧ d₁ = d := by
  rcases hs with hs | ⟨hf, -, rfl⟩
  · cases hfind : d.find x <;> simp [hfind] at hs
  · exact ⟨⟨_, hf⟩, rfl⟩

/-- Only one file has changed, and that one behind the byte `n`. -/
structure Keeps (ino n : ℕ) (d d' : Disk FileName) : Prop where
  changes : Changes ino d d'
  length : n ≤ (d'.data ino).length
  front : (d'.data ino).take n = (d.data ino).take n

namespace Keeps

variable {ino n pos : ℕ}

theorem refl (h : n ≤ (d.data ino).length) : Keeps ino n d d := ⟨.refl _ _, h, rfl⟩

theorem trans (h₁ : Keeps ino n d d₁) (h₂ : Keeps ino n d₁ d₂) : Keeps ino n d d₂ :=
  ⟨h₁.changes.trans h₂.changes, h₂.length, h₂.front.trans h₁.front⟩

theorem mono (h : Keeps ino pos d d') (hle : n ≤ pos) : Keeps ino n d d' := by
  refine ⟨h.changes, hle.trans h.length, ?_⟩
  have hfront := congrArg (List.take n) h.front
  rwa [List.take_take, List.take_take, min_eq_left hle] at hfront

theorem patch (hle : pos ≤ (d.data ino).length) (bytes : List UInt8) :
    Keeps ino pos d (d.setData ino (patch (d.data ino) pos bytes)) := by
  refine ⟨changes_setData _ _ _, ?_, ?_⟩
  · rw [Disk.data_setData, if_pos rfl, length_patch]
    omega
  · rw [Disk.data_setData, if_pos rfl, take_patch hle]

theorem written (hle : pos ≤ (d.data ino).length) (bytes : List UInt8) (j : ℕ) :
    Keeps ino pos d (written d ino pos bytes j) := by
  cases j with
  | zero => exact .refl hle
  | succ j => exact .patch hle _

theorem resize (hle : pos ≤ (d.data ino).length) :
    Keeps ino pos d (d.setData ino (resize (d.data ino) pos)) := by
  refine ⟨changes_setData _ _ _, ?_, ?_⟩
  · rw [Disk.data_setData, if_pos rfl, resize_le hle, List.length_take]
    omega
  · rw [Disk.data_setData, if_pos rfl, resize_le hle, List.take_take, min_self]

end Keeps

/-- A record that was written is complete, whatever the reader makes of it. -/
theorem parse_recordBytes_ne_none {e : LogEntry} (h : Fits c e) (pos : ℕ) :
    (recordParser c pos).parse (recordBytes c e) ≠ none := by
  have hge := payloadLen_ge c e
  have hn := List.length_pos_of_ne_nil h.named
  have hp := h.producer
  have hs := h.size
  have hlt : payloadLen c e < 256 ^ 4 := by
    simp only [payloadLen, maxProducerIdBytes, maxEventCbor] at *
    omega
  have hexp : (payloadLen c e + 2 ^ 32 - 22 - (producerIdBytes e.producerId).length) % 2 ^ 32 =
      (c.encode e.event).length := by
    simp only [payloadLen, maxProducerIdBytes, maxEventCbor] at *
    omega
  rw [show recordBytes c e = le 4 (payloadLen c e) ++ (le 8 e.offset ++
      (le 8 e.appendedAtNs ++ (le 2 (producerIdBytes e.producerId).length ++
      (producerIdBytes e.producerId ++ (le 4 (c.encode e.event).length ++
      (c.encode e.event ++ le 4 (c.crc32 (recordBody c e)).toNat)))))) by
    simp [recordBytes, recordBody]]
  unfold recordParser
  rw [parse_take_append _ _ (length_le 4 _), ofLe_le hlt, if_neg (by omega), if_neg (by omega),
    parse_take_append _ _ (length_le 8 _), parse_take_append _ _ (length_le 8 _),
    parse_take_append _ _ (length_le 2 _),
    ofLe_le (by simp only [maxProducerIdBytes] at hp; omega), if_neg (by omega),
    if_neg (by omega), parse_take_append _ _ rfl]
  simp only [fromUTF8?_producerIdBytes]
  rw [hexp, if_neg (by omega), parse_take_append _ _ (length_le 4 _),
    ofLe_le (by simp only [maxEventCbor] at hs; omega), if_neg (by simp),
    parse_take_append _ _ rfl, Parser.parse_take_bind (length_le 4 _).ge]
  split_ifs
  · simp
  · cases c.decode (c.encode e.event) <;> simp

theorem safe_rollback {ino pos n : ℕ} (hk : Keeps ino n d d₁)
    {Q : Except StorageError (Except IoErrorKind Unit) × File → Disk FileName → Prop}
    (hQ : ∀ r d', Keeps ino n d d' → Q (.ok r, ⟨ino, pos⟩) d') :
    Safe (bare fails) ((Proc.attempt (File.setLen FileName n) : Io File _) ⟨ino, pos⟩) Q d₁ := by
  refine Safe.attempt (safe_bare fun r d' hs => ?_)
  obtain ⟨rfl, rfl⟩ | ⟨-, rfl, rfl⟩ := hs
  · exact hQ _ _ (hk.trans (.resize hk.length))
  · exact hQ _ _ hk

/-- Why an append is turned down: its arguments, or a failed operation. -/
def TurnsDown (fails : Op FileName → Prop) (err : StorageError) : Prop :=
  (∃ msg, err = .invalidInput msg) ∨ ∃ o, fails o

/-- Writing a batch behind the byte `batchStart`. -/
theorem safe_writeBatch_any (ts : ℕ) (producerId : String) {batchStart offset : ℕ}
    (hoffset : offset < 2 ^ 64) (events : List OtkEvent) {f : File} (hstart : batchStart ≤ f.pos)
    (hpos : f.pos ≤ (d.data f.ino).length)
    {Q : Except StorageError (List ℕ) × File → Disk FileName → Prop}
    (hok : ∀ positions q d', Keeps f.ino f.pos d d' → f.pos ≤ q →
      Complete c (d'.data f.ino) q positions → offset + events.length < 2 ^ 64 →
      Q (.ok positions, ⟨f.ino, q⟩) d')
    (herr : ∀ err q d', Keeps f.ino batchStart d d' → TurnsDown fails err →
      Q (.error err, ⟨f.ino, q⟩) d') :
    Safe (bare fails) (writeBatch c ts producerId batchStart offset events f) Q d := by
  induction events generalizing offset f d Q with
  | nil => exact hok [] f.pos d (.refl hpos) le_rfl (.nil hpos) hoffset
  | cons event rest ih =>
    rw [writeBatch]
    split_ifs with hend
    · exact Safe.bindP (safe_rollback (.refl (hstart.trans hpos)) fun r d' hk =>
        herr _ _ _ hk (.inl ⟨_, rfl⟩))
    refine Safe.bindP (Safe.attempt (safe_writeRecord (fun hfits _ => ?_) (fun _ msg => ?_)
      fun _ hf k p d' hd' => ?_))
    · dsimp only
      generalize hbytes : recordBytes c ⟨offset, ts, producerId, event⟩ = bytes
      have hk : Keeps f.ino f.pos d (d.setData f.ino (patch (d.data f.ino) f.pos bytes)) :=
        .patch hpos bytes
      have hdata : (d.setData f.ino (patch (d.data f.ino) f.pos bytes)).data f.ino =
          patch (d.data f.ino) f.pos bytes := if_pos rfl
      generalize d.setData f.ino (patch (d.data f.ino) f.pos bytes) = d₁ at hk hdata
      have hlen : f.pos + bytes.length ≤ (d₁.data f.ino).length := by
        rw [hdata, length_patch]
        exact le_max_right _ _
      -- The record ends where the next one begins.
      have hrecord : Complete c (d₁.data f.ino) (f.pos + bytes.length) [f.pos] := by
        refine ⟨hlen, fun pos hmem => ?_⟩
        obtain rfl := List.mem_singleton.mp hmem
        rw [List.drop_take, Nat.add_sub_cancel_left, hdata, drop_patch, List.take_left, ← hbytes]
        exact parse_recordBytes_ne_none hfits _
      refine Safe.bindP (ih (by omega) (by dsimp only; omega) hlen
        (fun positions q d₂ hk₂ hq hcomp hlast => ?_) fun err q d₂ hk₂ hwhy => ?_)
      · have hrecord₂ := hrecord.congr hk₂.length hk₂.front
        refine hok _ q d₂ (hk.trans (hk₂.mono (Nat.le_add_right _ _))) (by dsimp only at hq; omega)
          (hrecord₂.append hcomp hq) ?_
        rw [List.length_cons]
        omega
      · exact herr err q d₂ ((hk.mono hstart).trans hk₂) hwhy
    · exact Safe.bindP (safe_rollback (.refl (hstart.trans hpos)) fun r d' hk =>
        herr _ _ _ hk (.inl ⟨_, rfl⟩))
    · have hk : Keeps f.ino batchStart d d' := by
        obtain ⟨j, rfl | rfl⟩ := hd'
        · exact (Keeps.written hpos _ j).mono hstart
        · have hw := Keeps.written hpos (recordBytes c ⟨offset, ts, producerId, event⟩) j
          exact (hw.trans (.resize hw.length)).mono hstart
      exact Safe.bindP (safe_rollback hk fun r d'' hk' => herr _ _ _ hk' (.inr hf))

/-- The log over its directory: the closed segments are named after bases below
the next offset, and the active one has its file to itself. -/
structure Held (c : Codec) (d : Disk FileName) (l : Log) : Prop where
  linked : Linked d
  closed : ∀ cs ∈ l.closed, cs.path = .seg cs.baseOffset ∧ cs.baseOffset < l.nextOffset
  active : ∀ a, l.active = some a → Owns c d a
  below : ∀ a, l.active = some a →
    a.baseOffset ≤ l.nextOffset ∧ (a.positions ≠ [] → a.baseOffset < l.nextOffset)
  apart : ∀ cs ∈ l.closed, ∀ a, l.active = some a → cs.baseOffset ≠ a.baseOffset

/-- The bytes of a file up to the committed tail: all of them, but for the active
segment. -/
def committedBytes (l : Log) (x : FileName) (bytes : List UInt8) : List UInt8 :=
  match l.active with
  | some a => if x = a.path then bytes.take a.nextFilePos else bytes
  | none => bytes

/-- Nothing has been committed: the log has the same segments, perhaps with a new
empty one, and the files are as they were up to the committed tail. -/
structure Unmoved (d : Disk FileName) (l : Log) (d' : Disk FileName) (l' : Log) : Prop where
  next : l'.nextOffset = l.nextOffset
  closed : l'.closed = l.closed
  active : ∀ a, l.active = some a → ∃ q, l'.active = some { a with file := ⟨a.file.ino, q⟩ }
  fresh : l.active = none → ∀ a, l'.active = some a → a.positions = [] ∧ a.path = .seg l.nextOffset
  files : ∀ x, (l.active = none → x ≠ .seg l.nextOffset) → d'.find x = d.find x ∧
    ∀ i, d.find x = some i → committedBytes l x (d'.data i) = committedBytes l x (d.data i)

variable {l l' l₁ l₂ : Log}

namespace Unmoved

theorem refl (d : Disk FileName) (l : Log) : Unmoved d l d l :=
  ⟨rfl, rfl, fun a ha => ⟨a.file.pos, ha⟩, fun hnone _ ha => (by cases hnone.symm.trans ha),
    fun _ _ => ⟨rfl, fun _ _ => rfl⟩⟩

theorem trans (h₁ : Unmoved d l d₁ l₁) (h₂ : Unmoved d₁ l₁ d₂ l₂) : Unmoved d l d₂ l₂ := by
  refine ⟨h₂.next.trans h₁.next, h₂.closed.trans h₁.closed, fun a ha => ?_, fun hnone a ha => ?_,
    fun x hx => ?_⟩
  · obtain ⟨q, hq⟩ := h₁.active a ha
    obtain ⟨q', hq'⟩ := h₂.active _ hq
    exact ⟨q', hq'⟩
  · cases hsome : l₁.active with
    | some a₁ =>
      obtain ⟨hnil, hpath⟩ := h₁.fresh hnone a₁ hsome
      obtain ⟨q, hq⟩ := h₂.active a₁ hsome
      obtain rfl := Option.some.inj (ha.symm.trans hq)
      exact ⟨hnil, hpath⟩
    | none => exact h₁.next ▸ h₂.fresh hsome a ha
  · obtain ⟨hfind₁, hdata₁⟩ := h₁.files x hx
    have hx₁ : l₁.active = none → x ≠ .seg l₁.nextOffset := by
      intro hnone
      rw [h₁.next]
      cases ha : l.active with
      | none => exact hx ha
      | some a =>
        obtain ⟨q, hq⟩ := h₁.active a ha
        cases hnone.symm.trans hq
    obtain ⟨hfind₂, hdata₂⟩ := h₂.files x hx₁
    -- The committed part of the file is the same for both logs.
    have hpart : committedBytes l₁ x = committedBytes l x := by
      funext bytes
      unfold committedBytes
      cases ha : l.active with
      | some a =>
        obtain ⟨q, hq⟩ := h₁.active a ha
        rw [hq]
      | none =>
        cases hsome : l₁.active with
        | some a₁ => exact if_neg fun heq => hx ha (heq.trans (h₁.fresh ha a₁ hsome).2)
        | none => rfl
    refine ⟨hfind₂.trans hfind₁, fun i hi => ?_⟩
    rw [← hdata₁ i hi, ← hpart]
    exact hdata₂ i (hfind₁.trans hi)

end Unmoved

/-- The active segment's file changes behind the committed tail. -/
theorem Held.keeps (h : Held c d l) {a : ActiveSegment} (ha : l.active = some a)
    (hlinked : Linked d') (hk : Keeps a.file.ino a.nextFilePos d d') (q : ℕ) :
    Held c d' (l.setFile ⟨a.file.ino, q⟩) ∧ Unmoved d l d' (l.setFile ⟨a.file.ino, q⟩) := by
  have hsome := Log.setFile_active (f := ⟨a.file.ino, q⟩) ha
  have howns := h.active a ha
  have hfind : ∀ x, d'.find x = d.find x := fun x => congrArg (AList.lookup x) hk.changes.1
  refine ⟨⟨hlinked, h.closed, fun b hb => ?_, fun b hb => ?_, fun cs hcs b hb => ?_⟩,
    ⟨rfl, rfl, fun b hb => ?_, fun hnone => ?_, fun x _ => ⟨hfind x, fun i hi => ?_⟩⟩⟩
  · obtain rfl := Option.some.inj (hb.symm.trans hsome)
    exact ⟨howns.path, (hfind _).trans howns.file, howns.complete.congr hk.length hk.front⟩
  · obtain rfl := Option.some.inj (hb.symm.trans hsome)
    exact h.below a ha
  · obtain rfl := Option.some.inj (hb.symm.trans hsome)
    exact h.apart cs hcs a ha
  · obtain rfl := Option.some.inj (hb.symm.trans ha)
    exact ⟨q, hsome⟩
  · cases hnone.symm.trans ha
  · simp only [committedBytes, ha]
    split_ifs with hx
    · rw [hx, howns.path, howns.file] at hi
      obtain rfl := Option.some.inj hi
      exact hk.front
    · refine hk.changes.2 i ?_
      rintro rfl
      exact hx ((h.linked.unshared _ _ _ hi howns.file).trans howns.path.symm)

theorem safe_ensureActive_any (h : Held c d l)
    {Q : Except StorageError Unit × Log → Disk FileName → Prop}
    (hok : ∀ a l' d', l'.active = some a → Held c d' l' → Unmoved d l d' l' → Q (.ok (), l') d')
    (herr : ∀ err l' d', (∃ o, fails o) → Held c d' l' → Unmoved d l d' l' →
      Q (.error err, l') d') :
    Safe (bare fails) (ensureActive l) Q d := by
  refine Safe.getP ?_
  cases ha : l.active with
  | some a => exact hok a l d ha h (.refl d l)
  | none =>
    refine Safe.bindP (Safe.lift (safe_bare fun ts d' hs => ?_))
    obtain ⟨-, rfl⟩ := hs
    refine Safe.bindP (Safe.mapError (Safe.liftE (safe_bare fun r d₁ hs => ?_)))
    have hlinked := h.linked.step hs
    cases r with
    | error k =>
      obtain ⟨hf, rfl⟩ := not_made hs
      exact herr _ _ _ hf h (.refl _ l)
    | ok ino =>
      obtain ⟨hnew, -, hother⟩ := h.linked.made hs
      have hfiles : ∀ d₂, Changes ino d₁ d₂ → ∀ x, x ≠ .seg l.nextOffset → d₂.find x = d'.find x ∧
          ∀ i, d'.find x = some i →
            committedBytes l x (d₂.data i) = committedBytes l x (d'.data i) := by
        intro d₂ hd x hx
        obtain ⟨hfind, hdata⟩ := hother.trans (.changes hlinked hnew hd) x hx
        exact ⟨hfind, fun i hi => congrArg (committedBytes l x) (hdata i hi)⟩
      -- A failed header leaves the log without an active segment.
      have hfailed : ∀ k d₂, (∃ o, fails o) → Linked d₂ → Changes ino d₁ d₂ →
          Q (.error (.io k), l) d₂ := by
        intro k d₂ hf hl₂ hd
        refine herr _ _ _ hf ⟨hl₂, h.closed, fun a hsome => ?_, h.below, h.apart⟩
          ⟨rfl, rfl, fun a hsome => ?_, fun _ a hsome => ?_, fun x hx => hfiles d₂ hd x (hx ha)⟩
        · cases hsome.symm.trans ha
        · cases hsome.symm.trans ha
        · cases hsome.symm.trans ha
      refine Safe.bindP (Safe.on (Safe.mapError (hlinked.safe (safe_writeAll (fun _ hl₂ => ?_)
        fun j k hf hl₂ => ?_))))
      · have hk : Changes ino d₁ (written d₁ ino 0 (SegmentHeader.bytes ⟨l.nextOffset, ts⟩)
            (SegmentHeader.bytes ⟨l.nextOffset, ts⟩).length) :=
          (Keeps.written (Nat.zero_le _) _ _).changes
        have hlen : headerLen ≤ ((written d₁ ino 0 (SegmentHeader.bytes ⟨l.nextOffset, ts⟩)
            (SegmentHeader.bytes ⟨l.nextOffset, ts⟩).length).data ino).length := by
          have hne : SegmentHeader.bytes ⟨l.nextOffset, ts⟩ ≠ [] :=
            List.ne_nil_of_length_pos (by simp)
          rw [written_length _ _ _ hne, Disk.data_setData, if_pos rfl, length_patch]
          simp [headerLen]
        refine Safe.bindP (Safe.lift (safe_bare fun r d₃ hs => ?_))
        obtain ⟨rfl, -⟩ := hs
        refine hok _ _ _ rfl ⟨hl₂, h.closed, fun a hsome => ?_, fun a hsome => ?_,
          fun cs hcs a hsome => ?_⟩ ⟨rfl, rfl, fun a hsome => ?_, fun _ a hsome => ?_,
            fun x hx => hfiles _ hk x (hx ha)⟩
        · obtain rfl := Option.some.inj hsome
          exact ⟨rfl, (congrArg (AList.lookup _) hk.1).trans hnew, .nil hlen⟩
        · obtain rfl := Option.some.inj hsome
          exact ⟨le_rfl, fun hne => absurd rfl hne⟩
        · obtain rfl := Option.some.inj hsome
          exact (h.closed cs hcs).2.ne
        · cases hsome.symm.trans ha
        · obtain rfl := Option.some.inj hsome
          exact ⟨rfl, rfl⟩
      · exact hfailed k _ hf hl₂ (Keeps.written (Nat.zero_le _) _ j).changes

theorem safe_syncBatch_any (flushIntervalMs : ℕ) {batchStart : ℕ} {f : File}
    {Q : Except StorageError Unit × File → Disk FileName → Prop}
    (hstart : batchStart ≤ (d.data f.ino).length) (hok : Q (.ok (), f) d)
    (herr : ∀ k d', Keeps f.ino batchStart d d' → (∃ o, fails o) → Q (.error (.io k), f) d') :
    Safe (bare fails) (syncBatch flushIntervalMs batchStart f) Q d := by
  unfold syncBatch
  split_ifs
  · refine Safe.bindP (Safe.attempt (quiet_bare.sync hok fun hf => ?_))
    exact Safe.bindP (safe_rollback (.refl hstart) fun r d' hk => herr _ _ hk ⟨_, hf⟩)
  · exact hok

theorem safe_batchEnd_any {f : File} (hpos : f.pos ≤ (d.data f.ino).length)
    {Q : Except StorageError (Except IoErrorKind ℕ) × File → Disk FileName → Prop}
    (hok : ∀ n, f.pos ≤ n → n ≤ (d.data f.ino).length → Q (.ok (.ok n), ⟨f.ino, n⟩) d)
    (herr : (∃ o, fails o) → ∀ k q, Q (.ok (.error k), ⟨f.ino, q⟩) d) :
    Safe (bare fails) ((Proc.attempt batchEnd : Io File _) f) Q d := by
  refine Safe.attempt (Safe.bindP (Safe.attempt (safe_bare fun r d' hs => ?_)))
  obtain ⟨rfl, rfl | ⟨hf, rfl⟩⟩ := hs
  · exact hok f.pos le_rfl hpos
  · refine Safe.bindP (Safe.attempt (safe_bare fun r d'' hs => ?_))
    obtain ⟨rfl, rfl | ⟨-, rfl⟩⟩ := hs
    · exact hok _ hpos le_rfl
    · exact herr ⟨_, hf⟩ _ _

/-- Up to the commit of a batch: it is in the file, or nothing has moved. -/
theorem Held.safe_appendCommit (h : Held c d l) (hnext : l.nextOffset < 2 ^ 64)
    (producerId : String) (events : List OtkEvent)
    {Q : Except StorageError Unit × Log → Disk FileName → Prop}
    (hok : ∀ a l' d', l'.active = some a → a.file.pos = a.nextFilePos → Held c d' l' →
      l.nextOffset + events.length < 2 ^ 64 → Q (.ok (), l') d')
    (herr : ∀ err l' d', Held c d' l' → Unmoved d l d' l' →
      (l.poisoned = false → TurnsDown fails err) → Q (.error err, l') d') :
    Safe (bare fails) (appendCommit c producerId events l) Q d := by
  refine h.linked.safe (Safe.getP ?_)
  have hrefuse : ∀ err, (l.poisoned = false → TurnsDown fails err) → Q (.error err, l) d :=
    fun err => herr err l d h (.refl d l)
  split_ifs with hpoisoned hevents hname
  · exact fun _ => hrefuse _ fun hclean => absurd hpoisoned (by simp [hclean])
  · exact fun _ => hrefuse _ fun _ => .inl ⟨_, rfl⟩
  · exact fun _ => hrefuse _ fun _ => .inl ⟨_, rfl⟩
  have hpos := List.length_pos_of_ne_nil hevents
  refine Safe.bindP (safe_ensureActive_any h (fun a l₁ d₁ ha h₁ hu₁ => ?_)
    fun err l₁ d₁ hf h₁ hu₁ _ => herr _ _ _ h₁ hu₁ fun _ => .inr hf)
  refine Safe.bindP (Safe.lift (safe_bare fun ts d₂ hs => Safe.getP ?_))
  obtain ⟨-, rfl⟩ := hs
  have howns := h₁.active a ha
  have hlen : a.nextFilePos ≤ (d₂.data a.file.ino).length := howns.complete.1
  -- Whatever fails from here on leaves the committed part of the file alone.
  have hfailed : ∀ err q (l' : Log) d', l' = l₁.setFile ⟨a.file.ino, q⟩ ∨
        l' = { l₁.setFile ⟨a.file.ino, q⟩ with poisoned := true } →
      Keeps a.file.ino a.nextFilePos d₂ d' → TurnsDown fails err → Linked d' →
      Q (.error err, l') d' := by
    rintro err q l' d' (rfl | rfl) hk hwhy hl
    · obtain ⟨hheld, hu⟩ := h₁.keeps ha hl hk q
      exact herr _ _ _ hheld (hu₁.trans hu) fun _ => hwhy
    · obtain ⟨hheld, hu⟩ := h₁.keeps ha hl hk q
      have hu := hu₁.trans hu
      exact herr _ _ _ ⟨hl, hheld.closed, hheld.active, hheld.below, hheld.apart⟩
        ⟨hu.next, hu.closed, hu.active, hu.fresh, hu.files⟩ fun _ => hwhy
  have hstart : (l₁.active.map ActiveSegment.nextFilePos).getD 0 = a.nextFilePos := by rw [ha]; rfl
  rw [hstart]
  refine Safe.bindP (bare_onActive ha (Safe.mapError (quiet_bare.seek ?_ fun hf => ?_)))
  swap
  · exact hfailed _ a.file.pos _ _ (.inl rfl) (.refl hlen) (.inr ⟨_, hf⟩)
  have ha₂ := Log.setFile_active (f := ⟨a.file.ino, a.nextFilePos⟩) ha
  have hcursor : a.nextFilePos ≤ (⟨a.file.ino, a.nextFilePos⟩ : File).pos := le_rfl
  refine Safe.bindP (bare_onActive ha₂ (safe_writeBatch_any ts producerId
    (hu₁.next.trans_lt hnext) events hcursor hlen (fun positions q d₃ hk hq hcomp hlast => ?_)
    fun err q d₃ hk hwhy => ?_))
  swap
  · exact hfailed _ q _ _ (.inl (Log.setFile_setFile _)) hk hwhy
  have ha₃ := Log.setFile_active (f := ⟨a.file.ino, q⟩) ha₂
  refine Safe.bindP (bare_onActive ha₃ (safe_syncBatch_any _ hk.length ?_ fun k d₄ hk₄ hf => ?_))
  swap
  · exact hfailed _ q _ _ (.inl (by simp only [Log.setFile_setFile])) (hk.trans hk₄) (.inr hf)
  have ha₄ := Log.setFile_active (f := ⟨a.file.ino, q⟩) ha₃
  refine Safe.bindP (bare_onActive ha₄ (safe_batchEnd_any hcomp.1 (fun n hn hle => ?_)
    fun hf k q' => ?_))
  swap
  · exact Safe.modifyP (hfailed _ q' _ _ (.inr (by simp only [Log.setFile_setFile])) hk (.inr hf))
  refine Safe.modifyP (Safe.lift (safe_bare fun _ d₄ hs hl => ?_))
  obtain rfl : d₄ = d₃ := hs
  simp only [Log.setFile_setFile, Log.setFile_active ha, Option.map_some]
  have hfind : ∀ x, d₄.find x = d₂.find x := fun x => congrArg (AList.lookup x) hk.changes.1
  refine hok _ _ d₄ rfl rfl ⟨hl, fun cs hcs => ?_, fun b hb => ?_, fun b hb => ?_,
    fun cs hcs b hb => ?_⟩ (hu₁.next ▸ hlast)
  · obtain ⟨hpath, hlt⟩ := h₁.closed cs hcs
    exact ⟨hpath, hlt.trans_le (Nat.le_add_right _ _)⟩
  · obtain rfl := Option.some.inj hb
    refine ⟨howns.path, (hfind _).trans howns.file, ?_⟩
    have hall := (howns.complete.congr hk.length hk.front).append hcomp hq
    simpa using hall.append (.nil hle) hn
  · obtain rfl := Option.some.inj hb
    have hle := (h₁.below a ha).1
    dsimp only [Log.setFile_nextOffset]
    exact ⟨by omega, fun _ => by omega⟩
  · obtain rfl := Option.some.inj hb
    exact h₁.apart cs hcs a ha

def IsSegment (x : FileName) : Prop := ∃ base, x = .seg base

theorem Held.stays (h : Held c d l) (hlinked : Linked d') (hs : Stays IsSegment d d') :
    Held c d' l := by
  refine ⟨hlinked, h.closed, fun a ha => ?_, h.below, h.apart⟩
  have howns := h.active a ha
  obtain ⟨hfind, hdata⟩ := hs (.seg a.baseOffset) ⟨_, rfl⟩
  exact ⟨howns.path, hfind.trans howns.file, hdata _ howns.file ▸ howns.complete⟩

theorem stays_renamed {src dst : FileName} {r : Except IoErrorKind Unit}
    (hsrc : ¬ IsSegment src) (hdst : ¬ IsSegment dst)
    (hs : Step fails d (.rename src dst) r d') : Stays IsSegment d d' := by
  rcases hs with hs | ⟨-, -, rfl⟩
  · cases hfind : d.find src with
    | some i =>
      rw [hfind] at hs
      rw [hs.2]
      intro x hx
      have hxsrc : x ≠ src := fun heq => hsrc (heq ▸ hx)
      have hxdst : x ≠ dst := fun heq => hdst (heq ▸ hx)
      simp [hxsrc, hxdst]
    | none =>
      rw [hfind] at hs
      rw [hs.2]
      exact .refl d
  · exact .refl _

theorem safe_writeIndex_any {σ : Type} {s : σ} (h : Linked d) (base : ℕ) (positions : List ℕ)
    {Q : Except StorageError Unit × σ → Disk FileName → Prop}
    (hQ : ∀ r d', Stays IsSegment d d' → Q (r, s) d') :
    Safe (bare fails) ((writeIndex base positions : Io σ Unit) s) Q d := by
  refine Safe.bindP (Safe.mapError (Safe.liftE (safe_bare fun r d₁ hs => ?_)))
  have hlinked := h.step hs
  cases r with
  | error k =>
    obtain ⟨-, rfl⟩ := not_made hs
    exact hQ _ _ (.refl _)
  | ok ino =>
    obtain ⟨hnew, -, hother⟩ := h.made hs
    have hkept : ∀ j, Stays IsSegment d (written d₁ ino 0 (indexBytes positions) j) := by
      intro j
      have hw := (Keeps.written (Nat.zero_le _) (indexBytes positions) j : Keeps ino 0 d₁ _)
      refine (hother.trans (.changes hlinked hnew hw.changes)).mono ?_
      rintro _ ⟨b, rfl⟩
      simp
    refine Safe.bindP (Safe.on (Safe.mapError (safe_writeAll (fun _ => ?_) fun j k _ => ?_)))
    swap
    · exact hQ _ _ (hkept j)
    refine Safe.bindP (Safe.on (Safe.mapError (quiet_bare.sync ?_ fun _ => hQ _ _ (hkept _))))
    refine Safe.bindP (Safe.mapError (Safe.liftE (safe_bare fun r d₂ hs => ?_)))
    have hfinal := (hkept _).trans (stays_renamed (by simp [IsSegment]) (by simp [IsSegment]) hs)
    cases r with
    | error k => exact hQ _ _ hfinal
    | ok _ =>
      refine Safe.bindP (Safe.lift (safe_bare fun _ d₃ hs => ?_))
      obtain rfl : d₃ = d₂ := hs.1
      exact hQ _ _ hfinal

theorem safe_truncate_any {f : File} {n : ℕ} (hle : n ≤ (d.data f.ino).length)
    {Q : Except StorageError Unit × File → Disk FileName → Prop}
    (hQ : ∀ r q d', Keeps f.ino n d d' → Q (r, ⟨f.ino, q⟩) d') :
    Safe (bare fails) ((do
      let _ ← Proc.attempt (File.setLen FileName n)
      let _ ← Proc.attempt (File.seek FileName n) : Io File Unit) f) Q d := by
  refine Safe.bindP (safe_rollback (.refl hle) fun r d' hk => ?_)
  exact Safe.bindP (Safe.attempt (quiet_bare.seek (hQ _ _ _ hk) fun _ => hQ _ _ _ hk))

theorem safe_writeSentinel_any {f : File} {n : ℕ} (hpos : f.pos = n)
    (hle : n ≤ (d.data f.ino).length) {Q : Except StorageError Unit × File → Disk FileName → Prop}
    (hQ : ∀ r q d', Keeps f.ino n d d' → Q (r, ⟨f.ino, q⟩) d') :
    Safe (bare fails) (writeSentinel n f) Q d := by
  obtain ⟨ino, pos⟩ := f
  obtain rfl : pos = n := hpos
  refine Safe.bindP (Safe.mapError (quiet_bare.sync ?_ fun _ => hQ _ _ _ (.refl hle)))
  have hw := Keeps.written hle sentinel
  refine Safe.bindP (Safe.mapError (safe_writeAll (fun _ => ?_) fun j k _ => hQ _ _ _ (hw j)))
  refine Safe.bindP (Safe.attempt (quiet_bare.sync (hQ _ _ _ (hw _)) fun _ => ?_))
  refine Safe.bindP (safe_rollback (hw _) fun r d' hk => ?_)
  exact Safe.bindP (Safe.attempt (quiet_bare.seek (hQ _ _ _ hk) fun _ => hQ _ _ _ hk))

/-- A log whose active segment has been taken, with its closed segments. -/
def Parted (l : Log) : Prop :=
  l.active = none ∧ ∀ cs ∈ l.closed, cs.path = .seg cs.baseOffset ∧ cs.baseOffset < l.nextOffset

theorem Parted.held (h : Parted l) (hlinked : Linked d) : Held c d l := by
  have hnone : ∀ a, l.active ≠ some a := fun a ha => by cases h.1.symm.trans ha
  exact ⟨hlinked, h.2, fun a ha => absurd ha (hnone a), fun a ha => absurd ha (hnone a),
    fun _ _ a ha => absurd ha (hnone a)⟩

theorem Parted.safe {t : Io Log Unit} (ht : Maintains Parted t) (h : Parted l)
    (hlinked : Linked d) : Safe (bare fails) (t l) (fun x d' => Held c d' x.2) d := by
  have hsafe := (ht l h).safe (T := bare fails) (w := d) fun w o r s' _ => ⟨s', rfl, trivial⟩
  exact hlinked.safe (hsafe.mono fun x d' ⟨_, hx⟩ hl => hx.held hl)

theorem Held.safe_closeActive (h : Held c d l) {a : ActiveSegment} (ha : l.active = some a)
    (hpos : a.file.pos = a.nextFilePos) (hne : a.positions ≠ []) :
    Safe (bare fails) (closeActive a l) (fun x d' => Held c d' x.2) d := by
  have hlen : a.nextFilePos ≤ (d.data a.file.ino).length := (h.active a ha).complete.1
  have hbelow := (h.below a ha).2 hne
  refine Safe.bindP (bare_onActive ha (h.linked.safe (safe_writeSentinel_any hpos hlen
    fun r q d₁ hk hl₁ => ?_)))
  obtain ⟨h₁, -⟩ := h.keeps ha hl₁ hk q
  have ha₁ := Log.setFile_active (f := ⟨a.file.ino, q⟩) ha
  cases r with
  | error err => exact h₁
  | ok _ =>
    refine Safe.bindP (Safe.attempt (hl₁.safe (safe_writeIndex_any hl₁ _ _ fun r d₂ hs hl₂ => ?_)))
    have h₂ := h₁.stays hl₂ hs
    have hlen₂ : a.nextFilePos ≤ (d₂.data a.file.ino).length := (h₂.active _ ha₁).complete.1
    cases r with
    | error err =>
      refine Safe.bindP (bare_onActive ha₁ (hl₂.safe (safe_truncate_any (f := ⟨_, q⟩) hlen₂
        fun r q' d₃ hk₃ hl₃ => ?_)))
      have h₃ := (h₂.keeps ha₁ hl₃ hk₃ q').1
      cases r with
      | error err => exact h₃
      | ok _ => exact h₃
    | ok _ =>
      refine Safe.bindP (bare_onActive ha₁ (Safe.attempt (safe_bare fun r d₃ hs => ?_)))
      obtain rfl : d₃ = d₂ := hs.1
      refine Safe.modifyP (Parted.safe (l := _) ?_ ⟨rfl, fun cs hcs => ?_⟩ hl₂)
      · exact Maintains.get.bind fun _ => (Checked.maintains_writeWatermark _).bind fun _ =>
          Checked.maintains_enforceRetention fun l hl =>
            ⟨hl.1, fun cs hcs => hl.2 cs (List.mem_of_mem_tail hcs)⟩
      · rcases List.mem_append.mp hcs with hold | hnew
        · exact h.closed cs hold
        · obtain rfl := List.mem_singleton.mp hnew
          exact ⟨(h.active a ha).path, hbelow⟩

theorem safe_shouldRoll_any {Q : Except StorageError Bool × Log → Disk FileName → Prop}
    (hQ : ∀ b, Q (.ok b, l) d) : Safe (bare fails) (shouldRoll l) Q d := by
  refine Safe.getP ?_
  cases l.active with
  | none => exact hQ _
  | some a =>
    dsimp only
    split_ifs
    · exact hQ _
    · refine Safe.bindP (Safe.lift (safe_bare fun now d' hs => ?_))
      obtain rfl : d' = d := hs.2
      exact hQ _

theorem Held.safe_append (h : Held c d l) (hnext : l.nextOffset < 2 ^ 64) (producerId : String)
    (events : List OtkEvent) :
    Safe (bare fails) (append c producerId events l) (fun x d' => Held c d' x.2) d := by
  refine Safe.bindP (h.safe_appendCommit hnext producerId events
    (fun a l₁ d₁ ha hpos h₁ _ => ?_) fun err l₁ d₁ h₁ _ _ => h₁)
  refine Safe.bindP (safe_shouldRoll_any fun roll => ?_)
  cases roll with
  | false => exact h₁
  | true =>
    refine Safe.bindP (Safe.getP ?_)
    rw [ha]
    dsimp only
    split_ifs with hnil
    · refine Safe.modifyP (Safe.bindP (Safe.lift (safe_bare fun r d₂ hs => ?_)))
      exact Parted.held ⟨rfl, h₁.closed⟩ (h₁.linked.step hs)
    · refine (h₁.safe_closeActive ha hpos hnil).mono ?_
      rintro ⟨r, l₂⟩ d₂ h₂
      cases r with
      | error err => exact h₂
      | ok _ => exact h₂

/-- A batch that would need the largest offset or one behind it is turned down,
and nothing is committed. -/
theorem Held.safe_append_exhausted (h : Held c d l) (hnext : l.nextOffset < 2 ^ 64)
    (producerId : String) {events : List OtkEvent} (hfull : 2 ^ 64 ≤ l.nextOffset + events.length) :
    Safe (bare fails) (append c producerId events l) (fun x d' => ∃ err, x.1 = .error err ∧
      Unmoved d l d' x.2 ∧ (l.poisoned = false → TurnsDown fails err)) d :=
  Safe.bindP (h.safe_appendCommit hnext producerId events (fun _ _ _ _ _ _ hlt => by omega)
    fun err _ _ _ hu hwhy => ⟨err, rfl, hu, hwhy⟩)

def recordAt (c : Codec) (data : List UInt8) (pos : ℕ) : Except StorageError LogEntry :=
  match (recordParser c pos).parse (data.drop pos) with
  | some (r, _) => r
  | none => .error (.io .unexpectedEof)

/-- What reading the records at some positions of a file returns. -/
def recordsAt (c : Codec) (data : List UInt8) : ℕ → List ℕ → Except StorageError (List LogEntry)
  | _, [] => pure []
  | offset, pos :: rest => do
    let entry ← recordAt c data pos
    if entry.offset ≠ offset then
      throw (.corrupted ("index points to wrong record at position " ++ toString pos ++
        ": expected offset " ++ toString offset ++ ", got " ++ toString entry.offset))
    else do
      let entries ← recordsAt c data (offset + 1) rest
      pure (entry :: entries)

def closedAt (c : Codec) (d : Disk FileName) (start stop : ℕ) :
    List ClosedSegment → Except StorageError (List LogEntry)
  | [] => pure []
  | seg :: rest =>
    if seg.lastOffset < start then closedAt c d start stop rest
    else if seg.baseOffset ≥ stop then pure []
    else
      let first := max start seg.baseOffset
      let last := min stop (seg.lastOffset + 1)
      match d.find seg.path with
      | none => throw (.io .notFound)
      | some ino => do
        let entries ← recordsAt c (d.data ino) first
          (positionsOf seg.baseOffset first last seg.positions)
        let more ← closedAt c d start stop rest
        pure (entries ++ more)

def activeAt (c : Codec) (d : Disk FileName) (start stop : ℕ) :
    Option ActiveSegment → Except StorageError (List LogEntry)
  | none => pure []
  | some a =>
    let last := a.baseOffset + a.positions.length
    if a.baseOffset < stop ∧ a.positions ≠ [] ∧ last > start then
      let first := max start a.baseOffset
      recordsAt c (d.data a.file.ino) first
        (positionsOf a.baseOffset first (min stop last) a.positions)
    else pure []

/-- What a range read of a log over its directory returns. -/
def rangeAt (c : Codec) (d : Disk FileName) (l : Log) (start : ℕ) (stop : Option ℕ) :
    Except StorageError (List LogEntry) :=
  if stop.any (· ≤ start) then pure []
  else if start ≥ l.nextOffset then pure []
  else if l.isFullyEvicted then throw (.retentionExpired start none)
  else if l.earliestOffset.any (start < ·) then throw (.retentionExpired start l.earliestOffset)
  else do
    let bound := stop.getD (2 ^ 64 - 1)
    let old ← closedAt c d start bound l.closed
    let new ← activeAt c d start bound l.active
    pure (old ++ new)

/-- The procedure changes nothing on the disk, keeps `P`, and returns the answer
`r` unless an operation fails. -/
def Reads {σ α : Type} (fails : Op FileName → Prop) (d : Disk FileName) (P : σ → Prop)
    (r : Except StorageError α) (t : Io σ α) : Prop :=
  ∀ s, P s → Safe (bare fails) (t s) (fun x d' => d' = d ∧ P x.2 ∧
    (x.1 = r ∨ (∃ o, fails o) ∧ x.1 = .error (.io .other))) d

namespace Reads

variable {σ α β : Type} {P : σ → Prop}

theorem pure (a : α) : Reads fails d P (.ok a) (Pure.pure a : Io σ α) :=
  fun _ hs => ⟨rfl, hs, .inl rfl⟩

theorem throw (e : StorageError) : Reads fails d P (.error e) (Proc.throw e : Io σ α) :=
  fun _ hs => ⟨rfl, hs, .inl rfl⟩

theorem bind {t : Io σ α} {f : α → Io σ β} {r : Except StorageError α}
    {g : α → Except StorageError β} (ht : Reads fails d P r t)
    (hf : ∀ a, r = .ok a → Reads fails d P (g a) (f a)) : Reads fails d P (r >>= g) (t >>= f) := by
  intro s hs
  refine Safe.bindP ((ht s hs).mono ?_)
  rintro ⟨x, s'⟩ d' ⟨rfl, hs', hx⟩
  rcases hx with hx | ⟨hfails, hx⟩
  · obtain rfl : x = r := hx
    cases x with
    | ok a => exact hf a rfl s' hs'
    | error e => exact ⟨rfl, hs', .inl rfl⟩
  · obtain rfl : x = .error (.io .other) := hx
    exact ⟨rfl, hs', .inr ⟨hfails, rfl⟩⟩

theorem on {τ : Type} {R : τ → Prop} {t : Io τ α} {r : Except StorageError α}
    (ht : Reads fails d R r t) {x : τ} (hx : R x) {f : α × τ → Io σ β}
    {g : α → Except StorageError β} (hf : ∀ a y, r = .ok a → Reads fails d P (g a) (f (a, y))) :
    Reads fails d P (r >>= g) (t.on x >>= f) := by
  intro s hs
  refine Safe.bindP (Safe.on ((ht x hx).mono ?_))
  rintro ⟨r', y⟩ d' ⟨rfl, -, hr⟩
  rcases hr with hr | ⟨hfails, hr⟩
  · obtain rfl : r' = r := hr
    cases r' with
    | ok a => exact hf a y rfl s hs
    | error e => exact ⟨rfl, hs, .inl rfl⟩
  · obtain rfl : r' = .error (.io .other) := hr
    exact ⟨rfl, hs, .inr ⟨hfails, rfl⟩⟩

end Reads

theorem reads_readRecord (ino pos : ℕ) :
    Reads fails d (fun f : File => f.ino = ino) (recordAt c (d.data ino) pos)
      (readRecord c pos) := by
  rintro f rfl
  refine safe_readRecord_at (fun r m hm => ⟨rfl, rfl, .inl ?_⟩) (fun hnone q => ⟨rfl, rfl, .inl ?_⟩)
    fun hf q => ⟨rfl, rfl, .inr ⟨hf, rfl⟩⟩
  · simp [recordAt, hm]
  · simp [recordAt, hnone]

theorem reads_readRecords (ino offset : ℕ) (positions : List ℕ) :
    Reads fails d (fun f : File => f.ino = ino) (recordsAt c (d.data ino) offset positions)
      (readRecords c offset positions) := by
  induction positions generalizing offset with
  | nil => exact .pure _
  | cons pos rest ih =>
    rw [recordsAt, readRecords]
    refine (reads_readRecord ino pos).bind fun entry _ => ?_
    split_ifs
    · exact .throw _
    · exact (ih (offset + 1)).bind fun entries _ => .pure _

theorem reads_readClosed {P : Log → Prop} (start stop : ℕ) (segs : List ClosedSegment) :
    Reads fails d P (closedAt c d start stop segs) (readClosed c start stop segs) := by
  induction segs with
  | nil => exact .pure _
  | cons seg rest ih =>
    rw [closedAt, readClosed]
    split_ifs
    · exact ih
    · exact .pure _
    · intro l hl
      refine Safe.bindP (Safe.mapError (Safe.liftE (quiet_bare.openRead (fun ino hino => ?_)
        (fun hnone => ?_) fun hf => ⟨rfl, hl, .inr ⟨⟨_, hf⟩, rfl⟩⟩)))
      · have hino : d.find seg.path = some ino := hino
        rw [hino]
        refine (reads_readRecords ino _ _).on (x := (⟨ino, 0⟩ : File)) rfl (fun entries f _ => ?_) l hl
        exact ih.bind fun more _ => .pure _
      · have hnone : d.find seg.path = none := hnone
        rw [hnone]
        exact ⟨rfl, hl, .inl rfl⟩

def Moved (l l' : Log) : Prop :=
  ∃ q, l' = { l with active := l.active.map fun a => { a with file := ⟨a.file.ino, q⟩ } }

theorem Moved.refl (l : Log) : Moved l l := by
  obtain ⟨config, closed, active, nextOffset, poisoned⟩ := l
  cases active with
  | none => exact ⟨0, rfl⟩
  | some a => exact ⟨a.file.pos, rfl⟩

theorem reads_readActive (start stop : ℕ) :
    Reads fails d (Moved l) (activeAt c d start stop l.active) (readActive c start stop) := by
  obtain ⟨config, closed, active, nextOffset, poisoned⟩ := l
  rintro _ ⟨q, rfl⟩
  refine Safe.getP ?_
  cases active with
  | none => exact ⟨rfl, ⟨q, rfl⟩, .inl rfl⟩
  | some a =>
    simp only [Option.map_some, activeAt]
    split_ifs
    · refine bare_onActive rfl ((reads_readRecords a.file.ino _ _ ⟨a.file.ino, q⟩ rfl).mono ?_)
      rintro ⟨r, ino, pos⟩ d' ⟨rfl, rfl, hr⟩
      exact ⟨rfl, ⟨pos, rfl⟩, hr⟩
    · exact ⟨rfl, ⟨q, rfl⟩, .inl rfl⟩

/-- A range read returns what the directory holds, unless an operation fails. -/
theorem reads_readRange (l : Log) (start : ℕ) (stop : Option ℕ) :
    Safe (bare fails) (readRange c start stop l) (fun x d' => d' = d ∧ Moved l x.2 ∧
      (x.1 = rangeAt c d l start stop ∨ (∃ o, fails o) ∧ x.1 = .error (.io .other))) d := by
  have hl := Moved.refl l
  refine Safe.getP ?_
  unfold rangeAt
  split_ifs
  · exact ⟨rfl, hl, .inl rfl⟩
  · exact ⟨rfl, hl, .inl rfl⟩
  · exact ⟨rfl, hl, .inl rfl⟩
  · exact ⟨rfl, hl, .inl rfl⟩
  · exact (reads_readClosed start _ l.closed).bind (fun old _ =>
      (reads_readActive start _).bind fun new _ => .pure _) l hl

theorem Held.moved (h : Held c d l) (hm : Moved l l') : Held c d l' := by
  obtain ⟨q, rfl⟩ := hm
  refine ⟨h.linked, h.closed, fun a ha => ?_, fun a ha => ?_, fun cs hcs a ha => ?_⟩
  all_goals obtain ⟨b, hb, rfl⟩ := Option.map_eq_some_iff.mp ha
  · exact ⟨(h.active b hb).path, (h.active b hb).file, (h.active b hb).complete⟩
  · exact h.below b hb
  · exact h.apart cs hcs b hb

theorem recordsAt_congr {bytes bytes' : List UInt8} {stop : ℕ} {ps qs : List ℕ}
    (h : Complete c bytes stop ps) (hfront : bytes'.take stop = bytes.take stop) (offset : ℕ)
    (hsub : ∀ pos ∈ qs, pos ∈ ps) : recordsAt c bytes' offset qs = recordsAt c bytes offset qs := by
  induction qs generalizing offset with
  | nil => rfl
  | cons pos rest ih =>
    have hrecord : recordAt c bytes' pos = recordAt c bytes pos := by
      unfold recordAt
      rw [h.parse_eq (hsub pos List.mem_cons_self) hfront]
    have ih := fun offset => ih offset fun p hp => hsub p (List.mem_cons_of_mem _ hp)
    simp only [recordsAt, hrecord, ih]

theorem closedAt_congr (start stop : ℕ) {segs : List ClosedSegment}
    (h : ∀ seg ∈ segs, d'.find seg.path = d.find seg.path ∧
      ∀ i, d.find seg.path = some i → d'.data i = d.data i) :
    closedAt c d' start stop segs = closedAt c d start stop segs := by
  induction segs with
  | nil => rfl
  | cons seg rest ih =>
    obtain ⟨hfind, hdata⟩ := h seg List.mem_cons_self
    have ih := ih fun x hx => h x (List.mem_cons_of_mem _ hx)
    rw [closedAt, closedAt, hfind, ih]
    cases hi : d.find seg.path with
    | none => rfl
    | some i => simp only [hdata i hi]

theorem mem_positionsOf {base start stop pos : ℕ} {positions : List ℕ}
    (h : pos ∈ positionsOf base start stop positions) : pos ∈ positions :=
  List.mem_of_mem_drop (List.mem_of_mem_take h)

/-- Where nothing has been committed every range reads the same. -/
theorem Unmoved.rangeAt_eq (hu : Unmoved d l d' l') (h : Held c d l) (start : ℕ)
    (stop : Option ℕ) : rangeAt c d' l' start stop = rangeAt c d l start stop := by
  have hclosed : ∀ bound, closedAt c d' start bound l.closed = closedAt c d start bound l.closed := by
    intro bound
    refine closedAt_congr start bound fun seg hseg => ?_
    obtain ⟨hpath, hlt⟩ := h.closed seg hseg
    have hne : l.active = none → seg.path ≠ .seg l.nextOffset := by
      intro _ heq
      have hbase := FileName.seg.inj (hpath.symm.trans heq)
      omega
    obtain ⟨hfind, hdata⟩ := hu.files seg.path hne
    refine ⟨hfind, fun i hi => ?_⟩
    have hfront := hdata i hi
    unfold committedBytes at hfront
    cases ha : l.active with
    | none => simpa only [ha] using hfront
    | some a =>
      have hother : seg.path ≠ a.path := by
        rw [hpath, (h.active a ha).path]
        simpa using h.apart seg hseg a ha
      simpa only [ha, if_neg hother] using hfront
  -- The active segment reads the same, and a new one is empty.
  have hactive : (∀ bound, activeAt c d' start bound l'.active = activeAt c d start bound l.active) ∧
      l'.isFullyEvicted = l.isFullyEvicted ∧ l'.earliestOffset = l.earliestOffset := by
    cases ha : l.active with
    | some a =>
      obtain ⟨q, hq⟩ := hu.active a ha
      have howns := h.active a ha
      have hfront : (d'.data a.file.ino).take a.nextFilePos =
          (d.data a.file.ino).take a.nextFilePos := by
        have hsome : l.active = none → a.path ≠ .seg l.nextOffset := by simp [ha]
        have hfile : d.find a.path = some a.file.ino := howns.path ▸ howns.file
        simpa only [committedBytes, ha, if_true] using (hu.files a.path hsome).2 _ hfile
      refine ⟨fun bound => ?_, ?_, ?_⟩
      · simp only [hq, activeAt]
        rw [recordsAt_congr howns.complete hfront _ fun pos hpos => mem_positionsOf hpos]
      · simp [Log.isFullyEvicted, hq, ha, hu.closed, hu.next]
      · simp [Log.earliestOffset, hq, ha, hu.closed]
    | none =>
      cases ha' : l'.active with
      | none =>
        refine ⟨fun bound => rfl, ?_, ?_⟩
        · simp [Log.isFullyEvicted, ha', ha, hu.closed, hu.next]
        · simp [Log.earliestOffset, ha', ha, hu.closed]
      | some a =>
        obtain ⟨hnil, -⟩ := hu.fresh ha a ha'
        refine ⟨fun bound => by simp [activeAt, hnil], ?_, ?_⟩
        · simp [Log.isFullyEvicted, ha', ha, hu.closed, hu.next, hnil]
        · simp [Log.earliestOffset, ha', ha, hu.closed, hnil]
  obtain ⟨hactive, hevicted, hearliest⟩ := hactive
  simp only [rangeAt, hu.next, hevicted, hearliest, hu.closed, hclosed, hactive]

end OtkCore.SegmentLog
