import OtkCore.Lib.Refinement
import OtkCore.SegmentLog.Queued
import OtkCore.SegmentLog.Failures

/-!
# Failing writes that are reported

The error of a failing write is kept until the next write on the same handle. As
long as an append hands over more bytes behind such a write, it returns the error
and cuts the batch off, as it would on a handle that reports errors at once.
-/
namespace OtkCore.SegmentLog

open Effect FileIO Bytes

/-- Where the first record of the next batch goes. -/
def batchPos (l : Log) : ℕ := (l.active.map ActiveSegment.nextFilePos).getD headerLen

namespace Queued

/-- A write of the batch with more bytes of the batch to be written behind it. -/
def Followed (c : Codec) (l : Log) (producerId : String) (events : List OtkEvent) :
    Op FileName → Prop
  | .write _ pos bytes => batchPos l ≤ pos ∧
      pos + bytes.length < batchPos l + eventsLen c producerId events
  | _ => False

/-- What may fail before the commit. -/
def Collected (c : Codec) (l : Log) (producerId : String) (events : List OtkEvent)
    (o : Op FileName) : Prop :=
  Immediate o ∨ Followed c l producerId events o

/-- Complete runs of `append`. Up to the commit a write may fail as long as it is
followed by another one of the batch, behind it none. -/
inductive Appends (c : Codec) (producerId : String) (events : List OtkEvent) (l : Deferred Log)
    (d : Disk FileName) : Disk FileName → Except StorageError ℕ × Deferred Log → Prop
  | failed {d' : Disk FileName} {err : StorageError} {l' : Deferred Log} :
      Finishes (Step (Collected c l.state producerId events)) d (appendCommit c producerId events l)
        d' (.error err, l') → Appends c producerId events l d d' (.error err, l')
  | committed {d₁ d' : Disk FileName} {l₁ : Deferred Log}
      {x : Except StorageError ℕ × Deferred Log} :
      Finishes (Step (Collected c l.state producerId events)) d (appendCommit c producerId events l)
        d₁ (.ok (), l₁) → Finishes (Step Immediate) d₁ (appendRoll l₁) d' x →
      Appends c producerId events l d d' x

variable {c : Codec} {producerId : String} {events : List OtkEvent} {d d' : Disk FileName}

theorem appends_of_finishes {l : Deferred Log} {x : Except StorageError ℕ × Deferred Log}
    (hx : Finishes (Step Immediate) d (append c producerId events l) d' x) :
    Appends c producerId events l d d' x := by
  obtain ⟨⟨r, l₁⟩, d₁, hcommit, hrest⟩ := hx.bind_inv
  have hcommit : Finishes (Step (Collected c l.state producerId events)) d
      (appendCommit c producerId events l) d₁ (r, l₁) :=
    hcommit.imp fun _ _ _ _ hs => hs.imp fun _ => Or.inl
  cases r with
  | ok _ => exact .committed hcommit hrest
  | error err =>
    obtain ⟨rfl, rfl⟩ := hrest.pure_inv
    exact .failed hcommit

theorem resize_resize (old : List UInt8) {m n : ℕ} (h : n ≤ m) :
    resize (resize old m) n = resize old n := by
  have hlen : (resize old m).length = m := by
    simp only [resize, List.length_append, List.length_take, List.length_replicate]
    omega
  rw [resize_le (h.trans_eq hlen.symm)]
  rcases Nat.le_total n old.length with hn | hn
  · have hfront : n ≤ (old.take m).length := by
      rw [List.length_take]
      omega
    rw [resize_le hn]
    unfold resize
    rw [List.take_append_of_le_length hfront, List.take_take, Nat.min_eq_left h]
  · unfold resize
    rw [List.take_of_length_le (Nat.le_trans hn h), List.take_append, List.take_of_length_le hn,
      List.take_replicate, Nat.min_eq_left (by omega)]

/-- The disk with a file cut to `n` bytes. -/
def cutFile (d : Disk FileName) (ino n : ℕ) : Disk FileName :=
  d.setData ino (resize (d.data ino) n)

theorem cutFile_cutFile (d : Disk FileName) (ino : ℕ) {m n : ℕ} (h : n ≤ m) :
    cutFile (cutFile d ino m) ino n = cutFile d ino n := by
  unfold cutFile
  rw [Disk.data_setData, if_pos rfl, resize_resize _ h]
  simp [Disk.setData]

theorem undoable_write (i p : ℕ) (b : List UInt8) : Undoable (.write i p b) := by
  intro j n h
  cases h

theorem undoable_seek (i : ℕ) : Undoable (.seek i) := by
  intro j n h
  cases h

theorem undoable_of_fails {fails : Op FileName → Prop} (hset : ∀ i n, ¬ fails (.setLen i n))
    (o : Op FileName) (hf : fails o) : Undoable o :=
  fun i n heq => hset i n (heq ▸ hf)

section Runs

variable {fails : Op FileName → Prop} {α : Type} {f : File} {h : QueuedFile}

theorem finishes_streamPosition {ε : Type} {inject : IoErrorKind → ε} {r : Except ε ℕ} {f' : File}
    (hx : Finishes (Step fails) d ((File.streamPosition FileName).mapError inject f) d' (r, f')) :
    d' = d ∧ f' = f ∧ (r = .ok f.pos ∨ ∃ e, r = .error e) := by
  obtain ⟨tr, hx⟩ := hx
  cases hx with
  | @step _ d₁ _ _ r₁ _ _ _ hs hrest =>
  obtain ⟨rfl, hr⟩ := hs
  rcases hr with rfl | ⟨-, rfl⟩
  · obtain ⟨rfl, rfl, rfl⟩ := Finishes.pureP_inv ⟨_, hrest⟩
    exact ⟨rfl, rfl, Or.inl rfl⟩
  · obtain ⟨rfl, rfl, rfl⟩ := Finishes.pureP_inv ⟨_, hrest⟩
    exact ⟨rfl, rfl, Or.inr ⟨_, rfl⟩⟩

theorem finishes_seek {n : ℕ} {u : Unit} {f' : File}
    (hx : Finishes (Step fails) d (onFile (File.seek FileName n) f) d' (.ok u, f')) :
    f'.pos = n := by
  obtain ⟨tr, hx⟩ := hx
  cases hx with
  | @step _ d₁ _ _ r₁ _ _ _ hs hrest =>
  obtain ⟨rfl, hr⟩ := hs
  rcases hr with rfl | ⟨-, rfl⟩
  · obtain ⟨rfl, -, rfl⟩ := Finishes.pureP_inv ⟨_, hrest⟩
    rfl
  · obtain ⟨-, hr, -⟩ := Finishes.pureP_inv ⟨_, hrest⟩
    cases hr

/-- Cutting the file off and giving up. -/
theorem finishes_cutOff (hset : ∀ i n, ¬ fails (.setLen i n)) {n : ℕ} {err : StorageError}
    {r : Except StorageError α} {h' : QueuedFile}
    (hx : Finishes (Step fails) d ((do
      let _ ← settled (Proc.attempt (File.setLen FileName n))
      Proc.throw err : Io QueuedFile α) h) d' (r, h')) :
    d' = cutFile d h.file.ino n ∧ r = .error err ∧ h' = h := by
  obtain ⟨tr, hx⟩ := hx
  cases hx with
  | @step _ d₁ _ _ r₁ _ _ _ hs hrest =>
  obtain ⟨rfl, rfl⟩ | ⟨hf, -⟩ := hs
  · obtain ⟨rfl, rfl, rfl⟩ := Finishes.pureP_inv ⟨_, hrest⟩
    exact ⟨rfl, rfl, rfl⟩
  · exact absurd hf (hset _ _)

theorem cutOff_finishes (d : Disk FileName) (f : File) (n : ℕ) (err : StorageError) :
    Finishes (Step fails) d ((do
      let _ ← Proc.attempt (File.setLen FileName n)
      Proc.throw err : Io File α) f) (cutFile d f.ino n) (.error err, f) :=
  .step (r := .ok ()) (Or.inl ⟨rfl, rfl⟩) (.pure _ _ _)

/-- A record is turned down before anything is written, or handed to the queue.
A plain handle that is asked for the same goes on from its own answer. -/
theorem writeRecord_cases (hset : ∀ i n, ¬ fails (.setLen i n)) {e : LogEntry} {h₀ : QueuedFile}
    {r : Except StorageError ℕ}
    (hx : Finishes (Step fails) d (writeRecord c e h₀) d' (r, h)) :
    (∃ err, r = .error err ∧ d' = d ∧ h = h₀ ∧
      Finishes (Step Undoable) d (SegmentLog.writeRecord c e h₀.file) d (.error err, h₀.file)) ∨
    ∃ w d₁, Finishes (Step fails) d (QueuedFile.writeAll _ (recordBytes c e) h₀) d₁ (w, h) ∧
      (w = .ok () ∧ r = .ok h₀.file.pos ∧ d' = d₁ ∨
        ∃ k, w = .error k ∧ r = .error (.io k) ∧ d' = cutFile d₁ h.file.ino h₀.file.pos) ∧
      (∀ f₁, Finishes (Step Undoable) d (File.writeAll _ (recordBytes c e) h₀.file) d₁
          (.ok (), f₁) →
        Finishes (Step Undoable) d (SegmentLog.writeRecord c e h₀.file) d₁
          (.ok h₀.file.pos, f₁)) ∧
      ∀ k f₁, Finishes (Step Undoable) d (File.writeAll _ (recordBytes c e) h₀.file) d₁
          (.error k, f₁) →
        Finishes (Step Undoable) d (SegmentLog.writeRecord c e h₀.file)
          (cutFile d₁ f₁.ino h₀.file.pos) (.error (.io k), f₁) := by
  unfold writeRecord at hx
  unfold SegmentLog.writeRecord
  split_ifs at hx ⊢
  · obtain ⟨rfl, rfl, rfl⟩ := hx.pureP_inv
    exact Or.inl ⟨_, rfl, rfl, rfl, .pure _ _ _⟩
  · obtain ⟨rfl, rfl, rfl⟩ := hx.pureP_inv
    exact Or.inl ⟨_, rfl, rfl, rfl, .pure _ _ _⟩
  · obtain ⟨rfl, rfl, rfl⟩ := hx.pureP_inv
    exact Or.inl ⟨_, rfl, rfl, rfl, .pure _ _ _⟩
  obtain ⟨start, h₁, d₁, hstart, hrest⟩ | ⟨err, rfl, hstart⟩ := hx.bindP_inv
  · obtain ⟨f₁, rfl, hseek⟩ := Finishes.zoom_inv hstart
    obtain ⟨rfl, rfl, hpos⟩ := finishes_streamPosition hseek
    obtain rfl : start = h₀.file.pos := by
      obtain hpos | ⟨e', hpos⟩ := hpos
      · exact Except.ok.inj hpos
      · cases hpos
    have hplain : Finishes (Step Undoable) d₁ (onFile (File.streamPosition FileName) h₀.file) d₁
        (.ok h₀.file.pos, h₀.file) :=
      hseek.imp fun _ _ _ _ hs => hs.imp (undoable_of_fails hset)
    obtain ⟨w, h₂, d₂, hattempt, hrest⟩ | ⟨err, -, hattempt⟩ := hrest.bindP_inv
    · obtain ⟨w', heq, hwrite⟩ := hattempt.attempt_inv
      obtain rfl := Except.ok.inj heq
      have hback : ∀ w₁ f₁, Finishes (Step Undoable) d₁ (File.writeAll _ (recordBytes c e) h₀.file)
          d₂ (w₁, f₁) → Finishes (Step Undoable) d₁
            ((Proc.attempt (File.writeAll _ (recordBytes c e)) : Io File _) h₀.file) d₂
            (.ok w₁, f₁) := fun _ _ => Finishes.attempt
      have hends : h = h₂ ∧ (w = .ok () ∧ r = .ok h₀.file.pos ∧ d' = d₂ ∨
          ∃ k, w = .error k ∧ r = .error (.io k) ∧ d' = cutFile d₂ h₂.file.ino h₀.file.pos) := by
        cases w with
        | ok _ =>
          obtain ⟨rfl, rfl, rfl⟩ := hrest.pureP_inv
          exact ⟨rfl, Or.inl ⟨rfl, rfl, rfl⟩⟩
        | error k =>
          obtain ⟨rfl, rfl, rfl⟩ := finishes_cutOff hset hrest
          exact ⟨rfl, Or.inr ⟨k, rfl, rfl, rfl⟩⟩
      obtain ⟨rfl, hends⟩ := hends
      exact Or.inr ⟨w, d₂, hwrite, hends,
        fun f₁ hp => hplain.bindP ((hback _ f₁ hp).bindP (.pure _ _ _)),
        fun k f₁ hp => hplain.bindP ((hback _ f₁ hp).bindP (cutOff_finishes _ _ _ _))⟩
    · obtain ⟨w', heq, -⟩ := hattempt.attempt_inv
      cases heq
  · obtain ⟨f₁, rfl, hseek⟩ := Finishes.zoom_inv hstart
    obtain ⟨rfl, rfl, -⟩ := finishes_streamPosition hseek
    have hplain : Finishes (Step Undoable) d' (onFile (File.streamPosition FileName) h₀.file) d'
        (.error err, h₀.file) :=
      hseek.imp fun _ _ _ _ hs => hs.imp (undoable_of_fails hset)
    exact Or.inl ⟨err, rfl, rfl, rfl, hplain.bindP_error⟩

theorem finishes_writeRecord (hset : ∀ i n, ¬ fails (.setLen i n)) {e : LogEntry}
    {r : Except StorageError ℕ}
    (hx : Finishes (Step fails) d (writeRecord c e (.clean f)) d' (r, h)) :
    h.file.ino = f.ino ∧ f.pos ≤ h.file.pos ∧
    (h.failed = none ∧ (∀ pos, r = .ok pos → h.file.pos = f.pos + (recordBytes c e).length) ∧
      Finishes (Step Undoable) d (SegmentLog.writeRecord c e f) d' (r, h.file) ∨
    ∃ k p b, (∃ pos, r = .ok pos) ∧ h.failed = some k ∧ fails (.write f.ino p b) ∧ b ≠ [] ∧
      p + b.length = f.pos + (recordBytes c e).length ∧ ∃ err,
        Finishes (Step Undoable) d (SegmentLog.writeRecord c e f) (cutFile d' f.ino f.pos)
          (.error err, h.file)) := by
  obtain ⟨err, rfl, rfl, rfl, hplain⟩ |
    ⟨w, d₁, hwrite, hr, hok, herr⟩ := writeRecord_cases hset hx
  · exact ⟨rfl, le_rfl, Or.inl ⟨rfl, fun pos hr => (by cases hr), hplain⟩⟩
  obtain ⟨hino, hge, hcase⟩ := finishes_writeAll undoable_write hwrite
  refine ⟨hino, hge, ?_⟩
  rcases hcase with ⟨hclean, hend, hall⟩ | ⟨rfl, k, p, b, hkept, hfail, hb, hend, hall⟩
  · obtain ⟨rfl, rfl, rfl⟩ | ⟨k, rfl, rfl, rfl⟩ := hr
    · exact Or.inl ⟨hclean, fun _ _ => hend rfl, hok _ hall⟩
    · exact Or.inl ⟨hclean, fun pos hr => (by cases hr), herr _ _ hall⟩
  · obtain ⟨-, rfl, rfl⟩ | ⟨_, hw, -⟩ := hr
    · have hcut := herr _ _ hall
      rw [hino] at hcut
      exact Or.inr ⟨k, p, b, ⟨_, rfl⟩, hkept, hfail, hb, hend, .io k, hcut⟩
    · cases hw

theorem recordBytes_ne_nil (e : LogEntry) : recordBytes c e ≠ [] := by
  intro h
  have hlen := length_recordBytes c e
  rw [h, List.length_nil] at hlen
  omega

/-- A record behind a failed write is refused. -/
theorem finishes_writeRecord_failed (hset : ∀ i n, ¬ fails (.setLen i n)) {e : LogEntry}
    {k : IoErrorKind} {r : Except StorageError ℕ}
    (hx : Finishes (Step fails) d (writeRecord c e ⟨f, some k⟩) d' (r, h)) :
    (∃ err, r = .error err) ∧ h.file = f ∧ (d' = d ∨ d' = cutFile d f.ino f.pos) := by
  obtain ⟨err, rfl, rfl, rfl, -⟩ | ⟨w, d₁, hwrite, hr, -⟩ := writeRecord_cases hset hx
  · exact ⟨⟨err, rfl⟩, rfl, Or.inl rfl⟩
  · rw [writeAll_failed (recordBytes_ne_nil e)] at hwrite
    obtain ⟨rfl, rfl, rfl⟩ := hwrite.pureP_inv
    obtain ⟨hw, -⟩ | ⟨_, -, rfl, rfl⟩ := hr
    · cases hw
    · exact ⟨⟨_, rfl⟩, rfl, Or.inr rfl⟩

section Batch

variable {ts start offset : ℕ} {event : OtkEvent} {rest : List OtkEvent}

/-- Behind a failed write a batch is cut off, whatever is left of it. -/
theorem finishes_writeBatch_failed (hset : ∀ i n, ¬ fails (.setLen i n)) (hstart : start ≤ f.pos)
    {k : IoErrorKind} {r : Except StorageError (List ℕ)}
    (hx : Finishes (Step fails) d
      (writeBatch c ts producerId start offset (event :: rest) ⟨f, some k⟩) d' (r, h)) :
    (∃ err, r = .error err) ∧ h.file = f ∧ d' = cutFile d f.ino start := by
  rw [writeBatch] at hx
  split_ifs at hx
  · obtain ⟨rfl, rfl, rfl⟩ := finishes_cutOff hset hx
    exact ⟨⟨_, rfl⟩, rfl, rfl⟩
  · obtain ⟨w, h₁, d₁, hattempt, hrest⟩ | ⟨err, -, hattempt⟩ := hx.bindP_inv
    · obtain ⟨w', heq, hrecord⟩ := hattempt.attempt_inv
      obtain rfl := Except.ok.inj heq
      obtain ⟨⟨err, rfl⟩, hfile, hd⟩ := finishes_writeRecord_failed hset hrecord
      obtain ⟨rfl, rfl, rfl⟩ := finishes_cutOff hset hrest
      refine ⟨⟨_, rfl⟩, hfile, ?_⟩
      rw [hfile]
      rcases hd with rfl | rfl
      · rfl
      · exact cutFile_cutFile d f.ino hstart
    · obtain ⟨w', heq, -⟩ := hattempt.attempt_inv
      cases heq

/-- On a plain handle the same happens when the position cannot be asked for. -/
theorem writeBatch_gives_up (c : Codec) (d : Disk FileName) (f : File) : ∃ err,
    Finishes (Step Undoable) d
      (SegmentLog.writeBatch c ts producerId start offset (event :: rest) f)
      (cutFile d f.ino start) (.error err, f) := by
  have hrecord : ∃ err, Finishes (Step Undoable) d
      (SegmentLog.writeRecord c ⟨offset, ts, producerId, event⟩ f) d (.error err, f) := by
    unfold SegmentLog.writeRecord
    split_ifs
    · exact ⟨_, .pure _ _ _⟩
    · exact ⟨_, .pure _ _ _⟩
    · exact ⟨_, .pure _ _ _⟩
    · exact ⟨.io .other, .step (r := .error .other) ⟨rfl, Or.inr ⟨undoable_seek _, rfl⟩⟩
        (.pure _ _ _)⟩
  rw [SegmentLog.writeBatch]
  split_ifs
  · exact ⟨_, cutOff_finishes _ _ _ _⟩
  · obtain ⟨err, hrecord⟩ := hrecord
    exact ⟨err, hrecord.attempt.bindP (cutOff_finishes _ _ _ _)⟩

theorem eventsLen_cons (offset ts : ℕ) : eventsLen c producerId (event :: rest) =
    (recordBytes c ⟨offset, ts, producerId, event⟩).length + eventsLen c producerId rest := by
  rw [length_recordBytes, payloadLen, eventsLen, eventsLen, List.map_cons, List.sum_cons]
  dsimp only
  omega

theorem refines_writeBatch (hset : ∀ i n, ¬ fails (.setLen i n)) {stop : ℕ}
    (hlast : ∀ i p b, fails (.write i p b) → p + b.length < stop) {f : File}
    {events : List OtkEvent} (offset : ℕ) (failed : Option IoErrorKind) (hstart : start ≤ f.pos)
    (hstop : f.pos + eventsLen c producerId events = stop) :
    Refines (Step fails) (Step Undoable) QueuedFile.file
      (fun _ h => failed = none ∨ events ≠ [] → h.failed = none)
      (writeBatch c ts producerId start offset events)
      (SegmentLog.writeBatch c ts producerId start offset events) ⟨f, failed⟩ := by
  induction events generalizing offset f failed with
  | nil => exact .pure fun h => h.resolve_right (absurd rfl)
  | cons event rest ih =>
    intro d d' r h hx
    cases failed with
    | some k =>
      obtain ⟨⟨err, rfl⟩, hfile, rfl⟩ := finishes_writeBatch_failed hset hstart hx
      rw [hfile]
      exact writeBatch_gives_up c d f
    | none =>
    rw [writeBatch] at hx
    rw [SegmentLog.writeBatch]
    by_cases hmax : offset = 2 ^ 64 - 1
    · rw [if_pos hmax] at hx ⊢
      obtain ⟨rfl, rfl, rfl⟩ := finishes_cutOff hset hx
      exact ⟨_, cutOff_finishes _ _ _ _⟩
    rw [if_neg hmax] at hx ⊢
    obtain ⟨w, h₁, d₁, hattempt, hrest⟩ | ⟨err, -, hattempt⟩ := hx.bindP_inv
    · obtain ⟨w', heq, hrecord⟩ := hattempt.attempt_inv
      obtain rfl := Except.ok.inj heq
      obtain ⟨hino, hge, hcase⟩ := finishes_writeRecord hset hrecord
      rw [eventsLen_cons offset ts] at hstop
      rcases hcase with ⟨hclean, hend, hplain⟩ |
        ⟨k, p, b, ⟨pos, rfl⟩, hkept, hfail, -, hend, err, hplain⟩
      · cases w with
        | ok pos =>
          have hend := hend pos rfl
          obtain ⟨f₁, _⟩ := h₁
          obtain rfl : _ = none := hclean
          have hmore : Refines (Step fails) (Step Undoable) QueuedFile.file
              (fun _ h => h.failed = none)
              (do
                let positions ← writeBatch c ts producerId start (offset + 1) rest
                pure (pos :: positions))
              (do
                let positions ← SegmentLog.writeBatch c ts producerId start (offset + 1) rest
                pure (pos :: positions)) ⟨f₁, none⟩ := by
            have hstop₁ : f₁.pos + eventsLen c producerId rest = stop := by
              dsimp only at hend
              omega
            exact (ih (offset + 1) none (hstart.trans hge) hstop₁).bind
              fun positions y hy => .pure (hy (Or.inl rfl))
          have hlast := hmore d₁ d' r h hrest
          cases r with
          | ok positions => exact ⟨fun _ => hlast.1, hplain.attempt.bindP hlast.2⟩
          | error err =>
            obtain ⟨err', hlast⟩ := hlast
            exact ⟨err', hplain.attempt.bindP hlast⟩
        | error err =>
          obtain ⟨rfl, rfl, rfl⟩ := finishes_cutOff hset hrest
          exact ⟨_, hplain.attempt.bindP (cutOff_finishes _ _ _ _)⟩
      · -- More of the batch follows, and its first record is refused.
        have hlt := hlast _ _ _ hfail
        rcases rest with _ | ⟨event', rest⟩
        · have hnone : eventsLen c producerId [] = 0 := rfl
          omega
        obtain ⟨f₁, _⟩ := h₁
        obtain rfl : _ = some k := hkept
        obtain ⟨positions, h₂, d₂, hmore, -⟩ | ⟨err', rfl, hmore⟩ := hrest.bindP_inv
        · obtain ⟨⟨_, hr⟩, -⟩ := finishes_writeBatch_failed hset (hstart.trans hge) hmore
          cases hr
        · obtain ⟨-, hfile, rfl⟩ := finishes_writeBatch_failed hset (hstart.trans hge) hmore
          rw [hfile]
          have hback : cutFile d₁ f₁.ino start = cutFile (cutFile d₁ f.ino f.pos) f₁.ino start := by
            rw [← hino, cutFile_cutFile _ _ hstart]
          rw [hback]
          exact ⟨err, hplain.attempt.bindP (cutOff_finishes _ _ _ _)⟩
    · obtain ⟨w', heq, -⟩ := hattempt.attempt_inv
      cases heq

end Batch

theorem refines_settled {ε : Type} {t : Proc (Resp (N := FileName)) ε File α}
    {Q : α → QueuedFile → Prop} (himp : ∀ o, fails o → Undoable o)
    (hQ : ∀ d d' a f, Finishes (Step fails) d (t h.file) d' (.ok a, f) → Q a ⟨f, h.failed⟩) :
    Refines (Step fails) (Step Undoable) QueuedFile.file Q (settled t) t h :=
  .zoom (fun _ _ _ _ hs => hs.imp himp) (fun _ => rfl) hQ

theorem refines_onActive {t' : Io QueuedFile α} {t : Io File α} {l : Deferred Log}
    {a : ActiveSegment} (ha : l.state.active = some a) {Q : α → Deferred Log → Prop}
    (h : Refines (Step fails) (Step Undoable) QueuedFile.file
      (fun b y => Q b ⟨l.state.setFile y.file, y.failed⟩) t' t ⟨a.file, l.failed⟩) :
    Refines (Step fails) (Step Undoable) Deferred.state Q (onActive t') (SegmentLog.onActive t)
      l := by
  intro d d' r y hx
  unfold onActive at hx
  rw [ha] at hx
  obtain ⟨⟨r₁, y₁⟩, d₁, ht, hrest⟩ := hx.bind_inv
  obtain ⟨rfl, rfl, rfl⟩ := hrest.pureP_inv
  have hactive : ∀ {x}, Finishes (Step Undoable) d (t a.file) d' x →
      Finishes (Step Undoable) d (SegmentLog.onActive t l.state) d' (x.1, l.state.setFile x.2) := by
    intro x hp
    unfold SegmentLog.onActive
    rw [ha]
    have := hp.bind (f := fun x => .pure (x.1, l.state.setFile x.2)) (.pure _ _ _)
    unfold Log.setFile at this ⊢
    rw [ha] at this ⊢
    exact this
  have hplain := h d d' r y₁ ht
  rw [← ha]
  cases r with
  | ok b => exact ⟨hplain.1, hactive hplain.2⟩
  | error e =>
    obtain ⟨e', hplain⟩ := hplain
    exact ⟨e', hactive hplain⟩

end Runs

section Commit

variable {fails : Op FileName → Prop} {l : Deferred Log} (hset : ∀ i n, ¬ fails (.setLen i n))
include hset

theorem refines_ensureActive (hhead : ∀ i p b, fails (.write i p b) → batchPos l.state ≤ p) :
    Refines (Step fails) (Step Undoable) Deferred.state
      (fun _ y => ∃ a, y.state.active = some a ∧ a.nextFilePos = batchPos l.state)
      ensureActive SegmentLog.ensureActive l := by
  have himp : ∀ d o (r : Resp o) d', Step fails d o r d' → Step Undoable d o r d' :=
    fun _ _ _ _ hs => hs.imp (undoable_of_fails hset)
  refine .bind_get ?_
  cases ha : l.state.active with
  | some a => exact .pure ⟨a, ha, by simp [batchPos, ha]⟩
  | none =>
    have hpos : batchPos l.state = headerLen := by simp [batchPos, ha]
    refine Refines.bind (.lift himp (Q := fun _ y => y = l) fun _ => rfl) ?_
    rintro ts y rfl
    refine Refines.bind (.mapError (.liftE himp (Q := fun _ z => z = _) fun _ => rfl) _) ?_
    rintro ino z rfl
    have hheader : Refines (Step fails) (Step Undoable) QueuedFile.file (fun _ _ => True)
        (writeHeader ⟨z.state.nextOffset, ts⟩) (SegmentHeader.write ⟨z.state.nextOffset, ts⟩)
        (.clean ⟨ino, 0⟩) := by
      refine .mapError (refines_writeAll undoable_write fun p b hf hb => ?_) _
      have hle := hhead _ _ _ hf
      have hlen : (SegmentHeader.bytes ⟨z.state.nextOffset, ts⟩).length = headerLen := by
        simp [SegmentHeader.bytes, magic, headerLen]
      have hb := List.length_pos_of_ne_nil hb
      change p + b.length ≠ 0 + _
      omega
    refine hheader.bind_on fun _ h _ => ?_
    refine Refines.bind (.lift himp (Q := fun _ y => y = _) fun _ => rfl) ?_
    rintro _ y rfl
    exact .modify rfl ⟨_, rfl, hpos.symm⟩

/-- A commit on queued handles is one on plain handles, and no error is left when
it succeeds. -/
theorem refines_appendCommit (hfollowed : ∀ i p b, fails (.write i p b) →
      Followed c l.state producerId events (.write i p b)) :
    Refines (Step fails) (Step Undoable) Deferred.state (fun _ y => y.failed = none)
      (appendCommit c producerId events) (SegmentLog.appendCommit c producerId events) l := by
  have himp : ∀ d o (r : Resp o) d', Step fails d o r d' → Step Undoable d o r d' :=
    fun _ _ _ _ hs => hs.imp (undoable_of_fails hset)
  refine .bind_get ?_
  split_ifs with hp hnil hid
  · exact .throw _
  · exact .throw _
  · exact .throw _
  refine (refines_ensureActive hset fun i p b hf => (hfollowed i p b hf).1).bind ?_
  rintro _ y ⟨a, ha, hpos⟩
  refine Refines.bind (.lift himp (Q := fun _ z => z = y) fun _ => rfl) ?_
  rintro ts y rfl
  refine .bind_get ?_
  have hstart : (y.state.active.map ActiveSegment.nextFilePos).getD 0 = batchPos l.state := by
    rw [ha, Option.map_some, Option.getD_some, hpos]
  simp only [hstart]
  have hseek : Refines (Step fails) (Step Undoable) Deferred.state
      (fun _ z => ∃ a, z.state.active = some a ∧ a.file.pos = batchPos l.state)
      (onActive (settled (onFile (File.seek _ (batchPos l.state)))))
      (SegmentLog.onActive (onFile (File.seek _ (batchPos l.state)))) y := by
    refine refines_onActive ha (refines_settled (undoable_of_fails hset) fun d d' _ f hx => ?_)
    exact ⟨_, Log.setFile_active ha, finishes_seek hx⟩
  refine hseek.bind ?_
  rintro _ z ⟨a₁, ha₁, hfile⟩
  have hrecords : Refines (Step fails) (Step Undoable) QueuedFile.file
      (fun _ h => z.failed = none ∨ events ≠ [] → h.failed = none)
      (writeBatch c ts producerId (batchPos l.state) y.state.nextOffset events)
      (SegmentLog.writeBatch c ts producerId (batchPos l.state) y.state.nextOffset events)
      ⟨a₁.file, z.failed⟩ :=
    refines_writeBatch hset (fun i p b hf => (hfollowed i p b hf).2) _ _ hfile.ge (by rw [hfile])
  have hbatch : Refines (Step fails) (Step Undoable) Deferred.state
      (fun _ u => u.failed = none ∧ ∃ a, u.state.active = some a)
      (onActive (writeBatch c ts producerId (batchPos l.state) y.state.nextOffset events))
      (SegmentLog.onActive (SegmentLog.writeBatch c ts producerId (batchPos l.state)
        y.state.nextOffset events)) z :=
    refines_onActive ha₁ (hrecords.mono fun positions h hclean =>
      ⟨hclean (Or.inr hnil), _, Log.setFile_active ha₁⟩)
  -- Whatever is left asks for nothing that a write could have kept back.
  have hrest : ∀ {α : Type} (t : Io File α) (u : Deferred Log),
      (u.failed = none ∧ ∃ a, u.state.active = some a) →
      Refines (Step fails) (Step Undoable) Deferred.state
        (fun _ v => v.failed = none ∧ ∃ a, v.state.active = some a)
        (onActive (settled t)) (SegmentLog.onActive t) u := by
    rintro α t u ⟨hclean, a₂, ha₂⟩
    exact refines_onActive ha₂ (refines_settled (undoable_of_fails hset)
      fun _ _ _ _ _ => ⟨hclean, _, Log.setFile_active ha₂⟩)
  refine hbatch.bind fun positions u hu => ?_
  refine (hrest _ u hu).bind fun _ v hv => (hrest _ v hv).bind fun r x hx => ?_
  cases r with
  | error k => exact Refines.bind (.modify (Q := fun _ _ => True) rfl trivial) fun _ _ _ => .throw _
  | ok pos =>
    refine Refines.bind (.modify (Q := fun _ y => y.failed = none) rfl hx.1) fun _ y hy => ?_
    exact .lift himp fun _ => hy

end Commit

theorem not_collected_setLen {l : Log} (i n : ℕ) :
    ¬ Collected c l producerId events (.setLen i n) := by
  rintro (hf | hf)
  · exact hf.1 i n rfl
  · exact hf

theorem Collected.followed {l : Log} {i p : ℕ} {b : List UInt8}
    (h : Collected c l producerId events (.write i p b)) :
    Followed c l producerId events (.write i p b) := by
  rcases h with hf | hf
  · exact absurd hf.2 (by simp [Op.isWrite])
  · exact hf

theorem immediate_isWrite (o : Op FileName) (h : Immediate o) : o.isWrite = false := h.2

/-- Such an append is one on plain handles. -/
theorem Appends.plain {l l' : Deferred Log} {r : Except StorageError ℕ}
    (h : Appends c producerId events l d d' (r, l')) :
    ∃ r', (∀ n, r = .ok n → r' = .ok n) ∧
      Finishes (Step Undoable) d (SegmentLog.append c producerId events l.state) d'
        (r', l'.state) := by
  have hcommit : Refines (Step (Collected c l.state producerId events)) (Step Undoable)
      Deferred.state (fun _ y => y.failed = none) (appendCommit c producerId events)
      (SegmentLog.appendCommit c producerId events) l :=
    refines_appendCommit not_collected_setLen fun _ _ _ => Collected.followed
  generalize hx : (r, l') = x at h
  cases h with
  | failed h =>
    obtain ⟨rfl, rfl⟩ := Prod.mk.inj hx
    obtain ⟨e, hplain⟩ := hcommit _ _ _ _ h
    exact ⟨.error e, nofun, hplain.bindP_error⟩
  | @committed d₁ _ l₁ _ h hroll =>
    subst hx
    obtain ⟨hclean, hplain⟩ := hcommit _ _ _ _ h
    obtain ⟨s₁, _⟩ := l₁
    obtain rfl : _ = none := hclean
    obtain ⟨⟨r', s'⟩, heq, hrest⟩ := (mirrors_appendRoll s₁).finishes immediate_isWrite hroll
    obtain ⟨rfl, rfl⟩ := Prod.mk.inj heq
    exact ⟨r, fun _ hr => hr, hplain.bindP (hrest.imp fun _ _ _ _ hs => hs.imp fun _ hf => hf.1)⟩

end Queued

end OtkCore.SegmentLog
