import OtkCore.SegmentLog.Writing

/-!
# Appending

The invariant that ties the log's memory to the directory, and what `append`
does to both up to its commit. A failed append keeps the invariant and the
committed entries; with `set_len` working, the only failure that leaves records
behind is a lost position query, and that one poisons the log.
-/
namespace OtkCore.SegmentLog

open Effect FileIO Bytes

variable {c : Codec} {m : Mode}

/-- What an undo and a reader rely on: `set_len` works, and where readers
follow, segment creation does too. -/
structure Mode.Undoes (m : Mode) : Prop where
  setLen : ∀ i n, ¬ m.fails (.setLen i n)
  creates : m.strict → ∀ x t, ¬ m.fails (.openWrite x t)
  headers : m.strict → ∀ i p bytes, p < headerLen → ¬ m.fails (.write i p bytes)

/-- A closed segment in memory stands for one on disk. -/
structure ClosedRep (c : Codec) (cs : ClosedSegment) (s : Segment) : Prop where
  base : cs.baseOffset = s.base
  last : cs.lastOffset + 1 = s.stop
  path : cs.path = .seg s.base
  positions : cs.positions = s.positions c

/-- The active segment in memory stands for the committed part of the newest
segment. -/
structure ActiveRep (c : Codec) (a : ActiveSegment) (s : Segment) : Prop where
  base : a.baseOffset = s.base
  path : a.path = .seg s.base
  ino : a.file.ino = s.ino
  positions : a.positions = s.positions c
  filePos : a.nextFilePos = (s.image c).length

structure Rep (c : Codec) (m : Mode) (l : Log) (w : World) : Prop where
  good : Good c w
  closed : List.Forall₂ (ClosedRep c) l.closed w.ghost.live
  next : l.nextOffset ≤ w.ghost.total.length
  clean : l.poisoned = false → l.nextOffset = w.ghost.total.length
  idle : l.active = none → l.nextOffset = w.ghost.total.length ∧
    ∀ s, w.ghost.tail = some s → s.entries = [] ∧ ¬ m.strict
  active : ∀ a, l.active = some a → ∃ s z, AtTail c m w s z ∧ s.base ≤ l.nextOffset ∧
    ActiveRep c a (s.cut (l.nextOffset - s.base))

/-- Two states that differ in the active segment's handle or in an empty newest
segment only. -/
structure Kept (l : Log) (w : World) (l' : Log) (w' : World) : Prop where
  config : l'.config = l.config
  closed : l'.closed = l.closed
  next : l'.nextOffset = l.nextOffset
  poisoned : l'.poisoned = l.poisoned
  total : w'.ghost.total = w.ghost.total
  live : w'.ghost.live = w.ghost.live

theorem Kept.refl (l : Log) (w : World) : Kept l w l w := ⟨rfl, rfl, rfl, rfl, rfl, rfl⟩

theorem Kept.trans {l₁ l₂ l₃ : Log} {w₁ w₂ w₃ : World} (h : Kept l₁ w₁ l₂ w₂)
    (h' : Kept l₂ w₂ l₃ w₃) : Kept l₁ w₁ l₃ w₃ :=
  ⟨h'.config.trans h.config, h'.closed.trans h.closed, h'.next.trans h.next,
    h'.poisoned.trans h.poisoned, h'.total.trans h.total, h'.live.trans h.live⟩

section Rules

variable {σ : Type} {s : σ} {w : World}

theorem safe_nowNs {Q : Except StorageError ℕ × σ → World → Prop}
    (h : ∀ t < 2 ^ 64, Q (.ok t, s) w) : Safe (setting c m) ((nowNs : Io σ ℕ) s) Q w := by
  refine Safe.lift (quiet_setting.opStay fun t d' hs => ?_)
  obtain ⟨ht, rfl⟩ := hs
  exact ⟨rfl, h t ht⟩

theorem safe_syncDir {Q : Except StorageError (Except IoErrorKind Unit) × σ → World → Prop}
    (h : ∀ r, Q (.ok r, s) w) :
    Safe (setting c m) ((Proc.lift (Prog.op Op.syncDir) :
      Io σ (Except IoErrorKind Unit)) s) Q w := by
  refine Safe.lift (quiet_setting.opStay fun r d' hs => ?_)
  obtain ⟨rfl, -⟩ := hs
  exact ⟨rfl, h r⟩

theorem safe_notify {Q : Except StorageError Unit × σ → World → Prop} (h : Q (.ok (), s) w) :
    Safe (setting c m) ((Proc.lift (Prog.op Op.notify) : Io σ Unit) s) Q w := by
  refine Safe.lift (quiet_setting.opStay fun r d' hs => ?_)
  obtain rfl : d' = w.disk := hs
  exact ⟨rfl, h⟩

theorem safe_seek {f : File} {pos : ℕ} {Q : Except IoErrorKind Unit × File → World → Prop}
    (hok : Q (.ok (), ⟨f.ino, pos⟩) w)
    (herr : m.fails (.seek f.ino) → Q (.error .other, f) w) :
    Safe (setting c m) (File.seek FileName pos f) Q w :=
  quiet_setting.seek hok herr

theorem safe_sync {f : File} {Q : Except IoErrorKind Unit × File → World → Prop}
    (hok : Q (.ok (), f) w) (herr : m.fails (.sync f.ino) → Q (.error .other, f) w) :
    Safe (setting c m) (File.sync FileName f) Q w :=
  quiet_setting.sync hok herr

theorem safe_len {f : File} {Q : Except IoErrorKind ℕ × File → World → Prop}
    (hok : Q (.ok (w.disk.data f.ino).length, f) w)
    (herr : m.fails (.fileLen f.ino) → Q (.error .other, f) w) :
    Safe (setting c m) (File.len FileName f) Q w :=
  quiet_setting.len hok herr

/-- The log with another handle for its active segment. -/
def Log.setFile (l : Log) (f : File) : Log :=
  { l with active := l.active.map fun a => { a with file := f } }

theorem safe_onActive {V : Type} {T : Setting (Resp (N := FileName)) (Disk FileName) V} {α : Type}
    {t : Io File α} {l : Log} {a : ActiveSegment} {Q : Except StorageError α × Log → V → Prop}
    {v : V} (ha : l.active = some a)
    (h : Safe T (t a.file) (fun x v' => Q (x.1, l.setFile x.2) v') v) :
    Safe T (onActive t l) Q v := by
  unfold onActive
  rw [ha]
  refine Safe.bind (h.mono ?_)
  rintro ⟨r, f⟩ v' hx
  simpa [Safe, Log.setFile, ha] using hx

end Rules

theorem safe_writeHeader (hm : m.Undoes) {w : World} {s : Segment} (hgood : Good c w)
    (ht : w.ghost.tail = some s) (hes : s.entries = []) (hd : w.disk.data s.ino = [])
    {Q : Except StorageError Unit × File → World → Prop}
    (hok : AtTail c m (w.setTail s (s.image c)) s [] →
      Q (.ok (), ⟨s.ino, headerLen⟩) (w.setTail s (s.image c)))
    (herr : ∀ err p bytes, (∃ o, m.fails o) → ¬ m.strict → Good c (w.setTail s bytes) →
      Q (.error err, ⟨s.ino, p⟩) (w.setTail s bytes)) :
    Safe (setting c m) (SegmentHeader.write ⟨s.base, s.created⟩ ⟨s.ino, 0⟩) Q w := by
  have hv := hgood.validTail ht
  have hself : w.setTail s [] = w := World.setTail_self ht hd
  have himg : s.image c = SegmentHeader.bytes ⟨s.base, s.created⟩ := by
    simp [Segment.image, hes]
  have hlen : (SegmentHeader.bytes ⟨s.base, s.created⟩).length = 24 := length_headerBytes _
  have hguar : ∀ j k o r, j + k ≤ 24 → (setting c m).guar
      (w.setTail s ((SegmentHeader.bytes ⟨s.base, s.created⟩).take j)) o r
      (w.setTail s ((SegmentHeader.bytes ⟨s.base, s.created⟩).take (j + k))) := by
    intro j k o r hjk
    refine ⟨?_, id, fun _ t t' ht₁ ht₂ => ?_⟩
    · have hopen : OpenImage c s ((SegmentHeader.bytes ⟨s.base, s.created⟩).take (j + k)) := by
        by_cases hlt : j + k < 24
        · exact Or.inl ⟨List.take_prefix _ _, by simp [headerLen]; omega, hes⟩
        · refine Or.inr ⟨[], ?_, tailOk_nil c⟩
          rw [List.append_nil, himg, List.take_of_length_le (by omega)]
      have hmove := Move.setTail (c := c)
        (w := w.setTail s ((SegmentHeader.bytes ⟨s.base, s.created⟩).take j))
        (World.setTail_tail _) rfl rfl hv hopen (by simp [maxFileLen]) o
      rwa [World.setTail_setTail rfl] at hmove
    · obtain rfl := Option.some.inj ht₁
      obtain rfl := Option.some.inj ht₂
      left
      rw [World.setTail_data, World.setTail_data]
      exact ⟨List.take_prefix_take_left (by omega), List.prefix_refl _, rfl⟩
  refine Safe.mapError (quiet_setting.writeAll (P := fun j w' => Good c w' ∧
    w' = w.setTail s ((SegmentHeader.bytes ⟨s.base, s.created⟩).take j)) ?_ ?_ ?_ ?_)
  · rintro j k _ ⟨hg, rfl⟩ hk hjk -
    rw [hlen] at hjk
    refine ⟨_, ?_, hguar j k _ _ hjk, hg.move (hguar j k .now 0 hjk).1, rfl⟩
    change _ = (w.setTail _ _).disk.setData s.ino (patch ((w.setTail _ _).disk.data s.ino) _ _)
    have htake : ((SegmentHeader.bytes ⟨s.base, s.created⟩).take j).length = 0 + j := by
      simp only [List.length_take, hlen]
      omega
    rw [World.setTail_data, ← htake, patch_append, ← List.take_add]
    exact World.disk_setTail rfl _ _
  · rintro _ ⟨hg, rfl⟩
    rw [List.take_length, ← himg] at hg ⊢
    have := hok ⟨hg, rfl, by simp, by simp, fun _ => rfl⟩
    simpa [Except.mapError, headerLen, hes] using this
  · rintro j _ ⟨hg, rfl⟩ hj hf k
    rw [hlen] at hj
    refine herr _ _ _ ⟨_, hf⟩ (fun hs => hm.headers hs _ _ _ ?_ hf) hg
    simp only [headerLen]
    omega
  · rw [List.take_zero, hself]
    exact ⟨hgood, rfl⟩

theorem Rep.tail_base {l : Log} {w : World} (h : Rep c m l w) {s : Segment}
    (ht : w.ghost.tail = some s) (hes : s.entries = []) : s.base = w.ghost.total.length := by
  rw [h.good.ok.tail_base ht, Ghost.total_tail ht, hes, List.append_nil]
  rfl

theorem ActiveRep.empty {s : Segment} (hes : s.entries = []) {f : File} (hf : f.ino = s.ino)
    (n : ℕ) : ActiveRep c ⟨s.base, .seg s.base, f, [], 0, s.created, headerLen, 0⟩ (s.cut n) :=
  ⟨rfl, rfl, hf, by simp [Segment.positions, Segment.cut, hes, positionsFrom],
    by simp [Segment.cut, hes]⟩

/-- `ensure_active`: a new segment with its header, or an error that left at
most a torn header behind. -/
theorem Rep.ensureActive {l : Log} {w : World} (h : Rep c m l w) (hm : m.Undoes)
    (hp : l.poisoned = false) {Q : Except StorageError Unit × Log → World → Prop}
    (hok : ∀ a l' w', Rep c m l' w' → Kept l w l' w' → l'.active = some a →
      l'.poisoned = false → Q (.ok (), l') w')
    (herr : (∃ o, m.fails o) → ∀ err w', Rep c m l w' → Kept l w l w' → Q (.error err, l) w') :
    Safe (setting c m) (SegmentLog.ensureActive l) Q w := by
  unfold SegmentLog.ensureActive
  refine Safe.getP ?_
  cases ha : l.active with
  | some a => exact hok a l w h (.refl l w) ha hp
  | none =>
    obtain ⟨hnext, hidle⟩ := h.idle ha
    refine Safe.bindP (safe_nowNs fun ts hts => ?_)
    -- The rest, once the file is empty and stands for a segment of its own.
    have hrest : ∀ (s : Segment) (w₁ : World), Good c w₁ → w₁.ghost.tail = some s →
        s.entries = [] → s.created = ts → w₁.disk.data s.ino = [] → Kept l w l w₁ →
        Safe (setting c m) ((do
          let x ← (SegmentHeader.write ⟨l.nextOffset, ts⟩).on ⟨s.ino, 0⟩
          let _ ← Proc.lift (Prog.op Op.syncDir)
          Proc.modify fun s => { s with active := some ⟨l.nextOffset, .seg l.nextOffset, x.2, [], 0,
            ts, headerLen, 0⟩ } : Io Log Unit) l) Q w₁ := by
      intro s w₁ hg ht hes hcre hd hkept
      have hbase : s.base = l.nextOffset := by
        rw [hnext, ← hkept.total, hg.ok.tail_base ht, Ghost.total_tail ht, hes, List.append_nil]
        rfl
      have hkept' : ∀ bytes, Kept l w l (w₁.setTail s bytes) := fun bytes =>
        hkept.trans ⟨rfl, rfl, rfl, rfl, by rw [Ghost.total_tail ht, Ghost.total_tail rfl]; rfl, rfl⟩
      have hclosed : ∀ bytes, List.Forall₂ (ClosedRep c) l.closed (w₁.setTail s bytes).ghost.live :=
        fun bytes => by
          rw [(hkept' bytes).live]
          exact h.closed
      have hlen : ∀ bytes, l.nextOffset = (w₁.setTail s bytes).ghost.total.length := fun bytes => by
        rw [hnext, (hkept' bytes).total]
      subst hcre
      rw [← hbase]
      refine Safe.bindP (Safe.on (safe_writeHeader hm hg ht hes hd (fun hat => ?_) ?_))
      · refine Safe.bindP (safe_syncDir fun r => ?_)
        refine hok _ _ _ ⟨hat.good, hclosed _, (hlen _).le, fun _ => hlen _, by simp, ?_⟩
          ((hkept' _).trans ⟨rfl, rfl, rfl, rfl, rfl, rfl⟩) rfl hp
        intro a ha'
        obtain rfl := Option.some.inj ha'
        exact ⟨s, [], hat, hbase.le, .empty hes rfl _⟩
      · intro err p bytes hf hstrict hg'
        refine herr hf err _ ⟨hg', hclosed _, (hlen _).le, fun _ => hlen _, fun _ => ⟨hlen _, ?_⟩, ?_⟩
          (hkept' _)
        · intro t ht'
          obtain rfl := Option.some.inj ht'
          exact ⟨hes, hstrict⟩
        · simp [ha]
    refine Safe.bindP (Safe.mapError (Safe.liftE (quiet_setting.op fun r d' hs => ?_)))
    obtain hs | ⟨hf, rfl, rfl⟩ := hs
    · cases ht : w.ghost.tail with
      | none =>
        have hfree : w.disk.find (.seg l.nextOffset) = none := by
          cases hfind : w.disk.find (.seg l.nextOffset) with
          | none => rfl
          | some i =>
            obtain ⟨t, htm, hb, -⟩ := (h.good.seg _ _).mp hfind
            rw [ht] at htm
            have := h.good.ok.closed_lt (Ghost.mem_live (by simpa using htm))
            omega
        simp only [setting, hfree] at hs
        obtain ⟨rfl, rfl⟩ := hs
        have htotal : w.ghost.total = w.ghost.closed.flatMap Segment.entries := by
          simp [Ghost.total_eq, ht]
        have hmove := Move.create (c := c) ht hts
        rw [← hnext] at hmove
        have hkept : Kept l w l ⟨w.disk.create (.seg l.nextOffset),
            { w.ghost with tail := some ⟨l.nextOffset, w.disk.next, ts, []⟩ }⟩ :=
          ⟨rfl, rfl, rfl, rfl, by rw [htotal, Ghost.total_tail rfl]; simp, rfl⟩
        refine ⟨_, rfl, ⟨hmove, by rw [hkept.total]; exact id, fun _ t _ ht₁ => ?_⟩, ?_⟩
        · rw [ht] at ht₁
          cases ht₁
        · exact hrest ⟨l.nextOffset, w.disk.next, ts, []⟩ _ (h.good.move hmove) rfl rfl rfl
            (by simp) hkept
      | some s =>
        obtain ⟨hes, hstrict⟩ := hidle s ht
        have hbase := h.tail_base ht hes
        rw [← hnext] at hbase
        have hfind := h.good.find_tail ht
        rw [hbase] at hfind
        simp only [setting, hfind] at hs
        obtain ⟨rfl, rfl⟩ := hs
        have hv := h.good.validTail ht
        have hv' : Segment.Valid c { s with created := ts } :=
          ⟨hts, hv.entryOk, hv.numbered, hv.count⟩
        have hmove := Move.setTail ht
          (show ({ s with created := ts } : Segment).base = s.base from rfl) rfl hv'
          (Or.inl ⟨List.nil_prefix, by simp [headerLen], hes⟩) (by simp)
          (.openWrite (.seg l.nextOffset) true)
        have hkept : Kept l w l (w.setTail { s with created := ts } []) :=
          ⟨rfl, rfl, rfl, rfl, by rw [Ghost.total_tail ht, Ghost.total_tail rfl]; rfl, rfl⟩
        refine ⟨_, rfl, ⟨hmove, by rw [hkept.total]; exact id, fun hs => absurd hs hstrict⟩, ?_⟩
        exact hrest { s with created := ts } _ (h.good.move hmove) rfl hes rfl (by simp) hkept
    · exact ⟨w, rfl, quiet_setting.stay _ _ _, herr ⟨_, hf⟩ _ w h (.refl l w)⟩

namespace Log

variable {l : Log} {f : File}

@[simp] theorem setFile_config : (l.setFile f).config = l.config := rfl

@[simp] theorem setFile_closed : (l.setFile f).closed = l.closed := rfl

@[simp] theorem setFile_nextOffset : (l.setFile f).nextOffset = l.nextOffset := rfl

@[simp] theorem setFile_poisoned : (l.setFile f).poisoned = l.poisoned := rfl

@[simp] theorem setFile_setFile (g : File) : (l.setFile f).setFile g = l.setFile g := by
  simp [setFile, Function.comp_def]

theorem setFile_active {a : ActiveSegment} (ha : l.active = some a) :
    (l.setFile f).active = some { a with file := f } := by
  simp [setFile, ha]

end Log

theorem ActiveRep.setFile {a : ActiveSegment} {s : Segment} (h : ActiveRep c a s) {f : File}
    (hf : f.ino = s.ino) : ActiveRep c { a with file := f } s :=
  ⟨h.base, h.path, hf, h.positions, h.filePos⟩

/-- A batch has been written and committed in memory. -/
structure Committed (c : Codec) (producerId : String) (events : List OtkEvent) (ts : ℕ) (l : Log)
    (w : World) (l' : Log) (w' : World) : Prop where
  time : ts < 2 ^ 64
  config : l'.config = l.config
  closed : l'.closed = l.closed
  next : l'.nextOffset = l.nextOffset + events.length
  poisoned : l'.poisoned = false
  entryOk : ∀ e ∈ batchOf l.nextOffset ts producerId events, EntryOk c e
  total : w'.ghost.total = w.ghost.total ++ batchOf l.nextOffset ts producerId events
  live : w'.ghost.live = w.ghost.live

/-- A batch has been written, but its position query failed: the records are
there, the memory does not know them and the log is poisoned. -/
structure Lost (c : Codec) (producerId : String) (events : List OtkEvent) (ts : ℕ) (l : Log)
    (w : World) (l' : Log) (w' : World) : Prop where
  time : ts < 2 ^ 64
  config : l'.config = l.config
  closed : l'.closed = l.closed
  next : l'.nextOffset = l.nextOffset
  clean : l.poisoned = false
  poisoned : l'.poisoned = true
  entryOk : ∀ e ∈ batchOf l.nextOffset ts producerId events, EntryOk c e
  total : w'.ghost.total = w.ghost.total ++ batchOf l.nextOffset ts producerId events
  live : w'.ghost.live = w.ghost.live

/-- What a failed append leaves behind: the state as it was, or a poisoned log
after an operation failed. -/
def Tried (c : Codec) (m : Mode) (producerId : String) (events : List OtkEvent) (l : Log) (w : World)
    (l' : Log) (w' : World) : Prop :=
  Kept l w l' w' ∨ (∃ o, m.fails o) ∧ ∃ ts, Lost c producerId events ts l w l' w'

theorem Kept.trans_lost {producerId : String} {events : List OtkEvent} {ts : ℕ} {l₁ l₂ l₃ : Log}
    {w₁ w₂ w₃ : World} (h : Kept l₁ w₁ l₂ w₂) (h' : Lost c producerId events ts l₂ w₂ l₃ w₃) :
    Lost c producerId events ts l₁ w₁ l₃ w₃ := by
  refine ⟨h'.time, h'.config.trans h.config, h'.closed.trans h.closed, h'.next.trans h.next,
    h.poisoned.symm.trans h'.clean, h'.poisoned, ?_, ?_, h'.live.trans h.live⟩
  · rw [← h.next]
    exact h'.entryOk
  · rw [h'.total, h.total, h.next]

theorem Kept.committed {producerId : String} {events : List OtkEvent} {ts : ℕ} {l₁ l₂ l₃ : Log}
    {w₁ w₂ w₃ : World} (h : Kept l₁ w₁ l₂ w₂)
    (h' : Committed c producerId events ts l₂ w₂ l₃ w₃) :
    Committed c producerId events ts l₁ w₁ l₃ w₃ := by
  refine ⟨h'.time, h'.config.trans h.config, h'.closed.trans h.closed, ?_, h'.poisoned, ?_, ?_,
    h'.live.trans h.live⟩
  · rw [h'.next, h.next]
  · rw [← h.next]
    exact h'.entryOk
  · rw [h'.total, h.total, h.next]

/-- The state right after a commit: the handle stands at the end of the file. -/
structure Ready (c : Codec) (m : Mode) (l : Log) (w : World) : Prop where
  rep : Rep c m l w
  clean : l.poisoned = false
  atEnd : ∃ a s, l.active = some a ∧ AtTail c m w s [] ∧ ActiveRep c a s ∧ s.entries ≠ [] ∧
    a.file.pos = a.nextFilePos

section Commit

variable {l : Log} {w : World} {s : Segment} {a : ActiveSegment} {z : List UInt8}

/-- The parts of a log whose memory matches the newest segment. -/
structure Holds (c : Codec) (m : Mode) (l : Log) (w : World) (a : ActiveSegment) (s : Segment)
    (z : List UInt8) : Prop where
  rep : Rep c m l w
  clean : l.poisoned = false
  active : l.active = some a
  atTail : AtTail c m w s z
  mem : ActiveRep c a s
  stop : l.nextOffset = s.stop

theorem Rep.holds (h : Rep c m l w) (hp : l.poisoned = false) (ha : l.active = some a) :
    ∃ s z, Holds c m l w a s z := by
  obtain ⟨s, z, hat, hle, hact⟩ := h.active a ha
  have hstop : l.nextOffset = s.stop := by
    rw [h.clean hp, hat.base]
  have hcut : s.cut (l.nextOffset - s.base) = s := by
    rw [hstop, Segment.stop, Nat.add_sub_cancel_left, Segment.cut_length]
  rw [hcut] at hact
  exact ⟨s, z, h, hp, ha, hat, hact, hstop⟩

theorem Holds.of_ghost (h : Holds c m l w a s z) {w' : World} (hghost : w'.ghost = w.ghost)
    {z' : List UInt8} (hat : AtTail c m w' s z') {f : File} (hf : f.ino = s.ino) :
    Holds c m (l.setFile f) w' { a with file := f } s z' ∧ Kept l w (l.setFile f) w' := by
  have ha := Log.setFile_active (f := f) h.active
  have hact := h.mem.setFile hf
  refine ⟨⟨⟨hat.good, ?_, ?_, ?_, by simp [ha], ?_⟩, h.clean, ha, hat, hact, h.stop⟩,
    ⟨rfl, rfl, rfl, rfl, by rw [hghost], by rw [hghost]⟩⟩
  · rw [hghost]
    exact h.rep.closed
  · rw [hghost]
    exact h.rep.next
  · rw [hghost]
    exact h.rep.clean
  · intro b hb
    rw [ha] at hb
    obtain rfl := Option.some.inj hb
    refine ⟨s, z', hat, ?_, ?_⟩
    · rw [Log.setFile_nextOffset, h.stop]
      exact Nat.le_add_right _ _
    · rw [Log.setFile_nextOffset, h.stop, Segment.stop, Nat.add_sub_cancel_left, Segment.cut_length]
      exact hact

theorem Holds.move (h : Holds c m l w a s z) {f : File} (hf : f.ino = s.ino) {z' : List UInt8}
    (hat : AtTail c m (w.setTail s (s.image c ++ z')) s z') :
    Holds c m (l.setFile f) (w.setTail s (s.image c ++ z')) { a with file := f } s z' ∧
      Kept l w (l.setFile f) (w.setTail s (s.image c ++ z')) :=
  h.of_ghost (by rw [World.setTail, ← h.atTail.tail]) hat hf

theorem Holds.setFile (h : Holds c m l w a s z) {f : File} (hf : f.ino = s.ino) :
    Holds c m (l.setFile f) w { a with file := f } s z ∧ Kept l w (l.setFile f) w :=
  h.of_ghost rfl h.atTail hf

theorem Segment.extend_cut (s : Segment) (es : List LogEntry) :
    (s.extend es).cut s.entries.length = s := by
  simp [Segment.extend, Segment.cut]

theorem Segment.image_extend (s : Segment) (es : List LogEntry) :
    (s.extend es).image c = s.image c ++ recordsBytes c es := by
  simp [Segment.extend, Segment.image]

/-- The world after the records `es` are written at the end of `s`. -/
def World.extended (w : World) (c : Codec) (s : Segment) (es : List LogEntry) : World :=
  w.setTail (s.extend es) ((s.extend es).image c)

theorem Holds.total_extended (h : Holds c m l w a s z) (es : List LogEntry) :
    (w.extended c s es).ghost.total = w.ghost.total ++ es := by
  rw [World.extended, Ghost.total_tail rfl, Ghost.total_tail h.atTail.tail, List.append_assoc]
  rfl

/-- A batch that `append` does not accept with `n` as the next offset. -/
def Refused (c : Codec) (n : ℕ) (producerId : String) (events : List OtkEvent) : Prop :=
  events = [] ∨ Unfit c producerId events ∨ 2 ^ 64 ≤ n + events.length

theorem Holds.writeBatch (h : Holds c m l w a s z) (hm : m.Undoes)
    {ts : ℕ} (hts : ts < 2 ^ 64) (producerId : String) {events : List OtkEvent}
    (hcod : ∀ ev ∈ events, c.decode (c.encode ev) = .ok ev) (hne : events ≠ [])
    (hpos : a.file.pos = (s.image c).length)
    (hU : ∀ j, (∀ e ∈ (batchOf l.nextOffset ts producerId events).take j, EntryOk c e) →
      m.allowed (w.ghost.total ++ (batchOf l.nextOffset ts producerId events).take j))
    {Q : Except StorageError (List ℕ) × Log → World → Prop}
    (hok : (∀ e ∈ batchOf l.nextOffset ts producerId events, EntryOk c e) →
      AtTail c m (w.extended c s (batchOf l.nextOffset ts producerId events))
        (s.extend (batchOf l.nextOffset ts producerId events)) [] →
      Q (.ok (positionsFrom c (s.image c).length (batchOf l.nextOffset ts producerId events)),
          l.setFile ⟨s.ino,
            ((s.extend (batchOf l.nextOffset ts producerId events)).image c).length⟩)
        (w.extended c s (batchOf l.nextOffset ts producerId events)))
    (herr : ∀ err f w', Refused c l.nextOffset producerId events ∨ (∃ o, m.fails o) →
      Holds c m (l.setFile f) w' { a with file := f } s [] →
      Kept l w (l.setFile f) w' → Q (.error err, l.setFile f) w') :
    Safe (setting c m) (onActive (SegmentLog.writeBatch c ts producerId (s.image c).length
      l.nextOffset events) l) Q w := by
  have hfile : a.file = ⟨s.ino, (s.image c).length⟩ := by
    rw [← hpos, ← h.mem.ino]
  have hcut := Segment.cut_length s
  have hback : (w.setTail s (s.image c)).ghost.total = w.ghost.total := by
    rw [Ghost.total_tail rfl, Ghost.total_tail h.atTail.tail]
    rfl
  refine safe_onActive h.active ?_
  rw [h.stop] at hU hok herr ⊢
  have hsafe := @AtTail.writeBatch c m hm.setLen ts hts producerId s.entries.length events hcod w s z
  rw [hcut] at hsafe
  rw [hfile]
  refine hsafe h.atTail le_rfl ?_ hU ?_ ?_
  · rw [hback]
    simpa using hU 0 (by simp)
  · intro hes z' hz hat
    obtain rfl := hz (Or.inl hne)
    rw [List.append_nil] at hat ⊢
    exact hok hes hat
  · intro err p hwhy hat
    rw [show s.image c = s.image c ++ [] by simp] at hat ⊢
    obtain ⟨hh, hk⟩ := h.move (f := ⟨s.ino, p⟩) rfl hat
    refine herr err _ _ ?_ hh hk
    rcases hwhy with hu | hlen | hf
    · exact Or.inl (Or.inr (Or.inl hu))
    · exact Or.inl (Or.inr (Or.inr hlen))
    · exact Or.inr hf

theorem Holds.syncBatch (h : Holds c m l w a s z) (hm : m.Undoes) {es : List LogEntry}
    (hat : AtTail c m (w.extended c s es) (s.extend es) []) {f : File} (hf : f.ino = s.ino)
    (hU : m.allowed w.ghost.total) (flush : ℕ)
    {Q : Except StorageError Unit × Log → World → Prop}
    (hok : Q (.ok (), l.setFile f) (w.extended c s es))
    (herr : (∃ o, m.fails o) → ∀ err w', Holds c m (l.setFile f) w' { a with file := f } s [] →
      Kept l w (l.setFile f) w' → Q (.error err, l.setFile f) w') :
    Safe (setting c m) (onActive (SegmentLog.syncBatch flush (s.image c).length) (l.setFile f)) Q
      (w.extended c s es) := by
  have ha := Log.setFile_active (f := f) h.active
  refine safe_onActive ha ?_
  unfold SegmentLog.syncBatch
  split_ifs
  · refine Safe.bindP (Safe.attempt (safe_sync ?_ fun hfl => ?_))
    · simpa [Safe] using hok
    · have hcut := Segment.extend_cut s es
      have hlen := h.atTail.length_image_le
      have hguar := guar_cut (c := c) (m := m) (k := s.entries.length) (r := .ok ()) hat.tail
        hat.valid
      have hsafe := safe_cut (c := c) (m := m) (k := s.entries.length) (p := f.pos)
        (z := recordsBytes c es) hat.tail hat.valid hm.setLen
      have hback : (w.setTail s (s.image c)).ghost.total = w.ghost.total := by
        rw [Ghost.total_tail rfl, Ghost.total_tail h.atTail.tail]
        rfl
      have hworld : (w.extended c s es).setTail s (s.image c) = w.setTail s (s.image c) :=
        World.setTail_setTail (show s.ino = (s.extend es).ino from rfl) _ _
      have hne : m.strict → (w.extended c s es).disk.data (s.extend es).ino ≠
          (s.extend es).image c ++ sentinel := fun _ => by
        rw [hat.data]
        simp [sentinel, le]
      rw [hcut, hworld, hback] at hguar hsafe
      obtain ⟨i, p⟩ := f
      obtain rfl : i = s.ino := hf
      refine Safe.bindP (Safe.attempt (hsafe ?_ hlen hne hU ?_))
      · rw [hat.data, List.append_nil, Segment.image_extend]
      · have hat' : AtTail c m (w.setTail s (s.image c ++ [])) s [] := by
          rw [List.append_nil]
          exact ⟨hat.good.move (hguar hlen hne hU).1, rfl, by simp, by simp, fun _ => rfl⟩
        obtain ⟨hh, hk⟩ := h.move (f := ⟨s.ino, p⟩) rfl hat'
        rw [List.append_nil] at hh hk
        simpa [Safe] using herr ⟨_, hfl⟩ _ _ hh hk
  · simpa [Safe] using hok

/-- The write position after the batch is the end of the file, unless the query
is lost. -/
theorem safe_batchEnd {f : File} {Q : Except StorageError (Except IoErrorKind ℕ) × File → World → Prop}
    (hend : (w.disk.data f.ino).length = f.pos) (hok : Q (.ok (.ok f.pos), f) w)
    (herr : m.fails (.seek f.ino) → ∀ k, Q (.ok (.error k), f) w) :
    Safe (setting c m) ((Proc.attempt batchEnd : Io File _) f) Q w := by
  refine Safe.attempt (Safe.bindP (Safe.attempt (quiet_setting.opStay fun r d' hs => ?_)))
  obtain ⟨rfl, rfl | ⟨hf, rfl⟩⟩ := hs
  · exact ⟨rfl, hok⟩
  · refine ⟨rfl, Safe.bindP (Safe.attempt (quiet_setting.opStay fun r d' hs => ?_))⟩
    obtain ⟨rfl, rfl | ⟨-, rfl⟩⟩ := hs
    · refine ⟨rfl, ?_⟩
      change Q (.ok (.ok (w.disk.data f.ino).length), ⟨f.ino, (w.disk.data f.ino).length⟩) w
      rw [hend]
      exact hok
    · exact ⟨rfl, herr hf _⟩

/-- A lost position query: the records stay, the memory does not follow. -/
theorem Holds.poison (h : Holds c m l w a s z) {ts : ℕ} (hts : ts < 2 ^ 64) {producerId : String}
    {events : List OtkEvent} (hes : ∀ e ∈ batchOf l.nextOffset ts producerId events, EntryOk c e)
    {f : File} (hat : AtTail c m (w.extended c s (batchOf l.nextOffset ts producerId events))
      (s.extend (batchOf l.nextOffset ts producerId events)) []) (hf : f.ino = s.ino) :
    Rep c m { l.setFile f with poisoned := true }
        (w.extended c s (batchOf l.nextOffset ts producerId events)) ∧
      Lost c producerId events ts l w { l.setFile f with poisoned := true }
        (w.extended c s (batchOf l.nextOffset ts producerId events)) := by
  have htotal := h.total_extended (batchOf l.nextOffset ts producerId events)
  generalize hB : batchOf l.nextOffset ts producerId events = es at *
  have ha := Log.setFile_active (f := f) h.active
  have hcut : (s.extend es).cut (l.nextOffset - (s.extend es).base) = s := by
    rw [h.stop, Segment.stop]
    change (s.extend es).cut (s.base + s.entries.length - s.base) = s
    rw [Nat.add_sub_cancel_left, Segment.extend_cut]
  refine ⟨⟨hat.good, h.rep.closed, ?_, by simp, by simp [ha], ?_⟩,
    ⟨hts, rfl, rfl, rfl, h.clean, rfl, by rwa [hB], by rw [hB, htotal], rfl⟩⟩
  · rw [htotal, List.length_append]
    exact h.rep.next.trans (Nat.le_add_right _ _)
  · intro b hb
    rw [ha] at hb
    obtain rfl := Option.some.inj hb
    refine ⟨s.extend es, [], hat, ?_, ?_⟩
    · exact (h.stop ▸ Nat.le_add_right s.base s.entries.length : s.base ≤ l.nextOffset)
    · rw [Log.setFile_nextOffset, hcut]
      exact h.mem.setFile hf

theorem Holds.commit (h : Holds c m l w a s z) {ts : ℕ} (hts : ts < 2 ^ 64) {producerId : String}
    {events : List OtkEvent} (hne : events ≠ [])
    (hes : ∀ e ∈ batchOf l.nextOffset ts producerId events, EntryOk c e)
    (hat : AtTail c m (w.extended c s (batchOf l.nextOffset ts producerId events))
      (s.extend (batchOf l.nextOffset ts producerId events)) []) {l' : Log}
    (hl : l' = { l with
      active := some { a with
        file := ⟨s.ino, ((s.extend (batchOf l.nextOffset ts producerId events)).image c).length⟩
        positions := a.positions ++
          positionsFrom c (s.image c).length (batchOf l.nextOffset ts producerId events)
        nextFilePos := ((s.extend (batchOf l.nextOffset ts producerId events)).image c).length
        byteSize :=
          ((s.extend (batchOf l.nextOffset ts producerId events)).image c).length - headerLen
        lastAppendedAtNs := ts }
      nextOffset := l.nextOffset + events.length }) :
    Ready c m l' (w.extended c s (batchOf l.nextOffset ts producerId events)) ∧
      Committed c producerId events ts l w l'
        (w.extended c s (batchOf l.nextOffset ts producerId events)) := by
  have htotal := h.total_extended (batchOf l.nextOffset ts producerId events)
  have hlen := length_batchOf l.nextOffset ts producerId events
  generalize hB : batchOf l.nextOffset ts producerId events = es at *
  subst hl
  have hnext : l.nextOffset + events.length = (w.extended c s es).ghost.total.length := by
    rw [htotal, List.length_append, hlen, h.rep.clean h.clean]
  have hact : ActiveRep c { a with
      file := ⟨s.ino, ((s.extend es).image c).length⟩
      positions := a.positions ++ positionsFrom c (s.image c).length es
      nextFilePos := ((s.extend es).image c).length
      byteSize := ((s.extend es).image c).length - headerLen
      lastAppendedAtNs := ts } (s.extend es) := by
    refine ⟨h.mem.base, h.mem.path, rfl, ?_, rfl⟩
    simp [h.mem.positions, Segment.positions, Segment.extend, positionsFrom_append]
  refine ⟨⟨⟨hat.good, h.rep.closed, hnext.le, fun _ => hnext, by simp, ?_⟩, h.clean, ?_⟩,
    ⟨hts, rfl, rfl, rfl, h.clean, ?_, ?_, rfl⟩⟩
  · intro b hb
    obtain rfl := Option.some.inj hb
    refine ⟨s.extend es, [], hat, ?_, ?_⟩
    · change s.base ≤ l.nextOffset + events.length
      rw [h.stop, Segment.stop]
      omega
    · change ActiveRep c _ ((s.extend es).cut (l.nextOffset + events.length - s.base))
      have hk : l.nextOffset + events.length - s.base = (s.extend es).entries.length := by
        rw [h.stop, Segment.stop, Segment.extend, List.length_append]
        omega
      rw [hk, Segment.cut_length]
      exact hact
  · refine ⟨_, s.extend es, rfl, hat, hact, ?_, rfl⟩
    intro hnil
    have := List.append_eq_nil_iff.mp hnil
    rw [this.2] at hlen
    exact hne (List.length_eq_zero_iff.mp hlen.symm)
  · rwa [hB]
  · rw [hB, htotal]

/-- `append` up to its commit. Only a position query that fails loses the batch. -/
theorem Rep.appendCommit_seeks (h : Rep c m l w) (hm : m.Undoes)
    (producerId : String) (events : List OtkEvent)
    (hcod : ∀ ev ∈ events, c.decode (c.encode ev) = .ok ev)
    (hU : ∀ ts < 2 ^ 64, ∀ j,
      (∀ e ∈ (batchOf l.nextOffset ts producerId events).take j, EntryOk c e) →
      m.allowed (w.ghost.total ++ (batchOf l.nextOffset ts producerId events).take j))
    {Q : Except StorageError Unit × Log → World → Prop}
    (hok : ∀ ts l' w', Committed c producerId events ts l w l' w' → Ready c m l' w' →
      Q (.ok (), l') w')
    (herr : ∀ err l' w',
      Refused c l.nextOffset producerId events ∨ l.poisoned = true ∨ (∃ o, m.fails o) →
      Rep c m l' w' → Kept l w l' w' ∨
        (∃ i, m.fails (.seek i)) ∧ (∃ ts, Lost c producerId events ts l w l' w') →
      Q (.error err, l') w') :
    Safe (setting c m) (SegmentLog.appendCommit c producerId events l) Q w := by
  unfold SegmentLog.appendCommit
  refine Safe.getP ?_
  have hreject : ∀ err, Refused c l.nextOffset producerId events ∨ l.poisoned = true ∨
      (∃ o, m.fails o) → Safe (setting c m) ((Proc.throw err : Io Log Unit) l) Q w :=
    fun err hwhy => herr err l w hwhy h (Or.inl (.refl l w))
  split_ifs with hp hne hpid
  · exact hreject _ (Or.inr (Or.inl hp))
  · exact hreject _ (Or.inl (Or.inl hne))
  · exact hreject _ (Or.inl (Or.inr (Or.inl (Or.inl hpid))))
  rw [Bool.not_eq_true] at hp
  refine Safe.bindP (h.ensureActive hm hp (fun a l₁ w₁ h₁ hk₁ ha₁ hp₁ => ?_) fun hf err w₁ h₁ hk₁ =>
    herr err l w₁ (Or.inr (Or.inr hf)) h₁ (Or.inl hk₁))
  obtain ⟨s, z, hh⟩ := h₁.holds hp₁ ha₁
  refine Safe.bindP (safe_nowNs fun ts hts => Safe.getP ?_)
  have hstart : (l₁.active.map ActiveSegment.nextFilePos).getD 0 = (s.image c).length := by
    simp [ha₁, hh.mem.filePos]
  simp only [hstart]
  have hU' : m.allowed w₁.ghost.total := by
    rw [hk₁.total]
    simpa using hU 0 (by decide) 0 (by simp)
  refine Safe.bindP (safe_onActive ha₁ (Safe.mapError (safe_seek ?_ fun hf => ?_)))
  · obtain ⟨hh₂, hk₂⟩ := hh.setFile (f := ⟨a.file.ino, (s.image c).length⟩) hh.mem.ino
    refine Safe.bindP (hh₂.writeBatch hm hts producerId hcod hne rfl ?_ ?_ ?_)
    · intro j hj
      rw [hk₂.next, hk₁.next] at hj ⊢
      rw [hk₁.total]
      exact hU ts hts j hj
    · intro hes hat
      refine Safe.bindP (hh₂.syncBatch hm hat rfl hU' _ ?_ ?_)
      · refine Safe.bindP (safe_onActive (Log.setFile_active hh₂.active)
          (safe_batchEnd ?_ ?_ fun hf k => ?_))
        · have hd := congrArg List.length hat.data
          rwa [List.append_nil] at hd
        · refine Safe.modifyP (safe_notify ?_)
          obtain ⟨hready, hcom⟩ := hh₂.commit hts hne hes hat rfl
          have := hok ts _ _ ((hk₁.trans hk₂).committed hcom) hready
          simpa [Log.setFile, ha₁] using this
        · obtain ⟨hrep, hlost⟩ := hh₂.poison hts hes hat (f := ⟨s.ino,
            ((s.extend (batchOf l₁.nextOffset ts producerId events)).image c).length⟩) rfl
          have := herr (.io k) _ _ (Or.inr (Or.inr ⟨_, hf⟩)) hrep
            (Or.inr ⟨⟨_, hf⟩, ts, (hk₁.trans hk₂).trans_lost hlost⟩)
          refine Safe.modifyP ?_
          simpa [Safe, Log.setFile, ha₁] using this
      · intro hf err w' hh' hk'
        exact herr err _ _ (Or.inr (Or.inr hf)) hh'.rep (Or.inl ((hk₁.trans hk₂).trans hk'))
    · intro err f w' hwhy hh' hk'
      rw [hk₂.next, hk₁.next] at hwhy
      exact herr err _ _ (hwhy.imp_right Or.inr) hh'.rep (Or.inl ((hk₁.trans hk₂).trans hk'))
  · obtain ⟨hh₂, hk₂⟩ := hh.setFile hh.mem.ino
    exact herr _ _ _ (Or.inr (Or.inr ⟨_, hf⟩)) hh₂.rep (Or.inl (hk₁.trans hk₂))

theorem Rep.appendCommit (h : Rep c m l w) (hm : m.Undoes)
    (producerId : String) (events : List OtkEvent)
    (hcod : ∀ ev ∈ events, c.decode (c.encode ev) = .ok ev)
    (hU : ∀ ts < 2 ^ 64, ∀ j,
      (∀ e ∈ (batchOf l.nextOffset ts producerId events).take j, EntryOk c e) →
      m.allowed (w.ghost.total ++ (batchOf l.nextOffset ts producerId events).take j))
    {Q : Except StorageError Unit × Log → World → Prop}
    (hok : ∀ ts l' w', Committed c producerId events ts l w l' w' → Ready c m l' w' →
      Q (.ok (), l') w')
    (herr : ∀ err l' w',
      Refused c l.nextOffset producerId events ∨ l.poisoned = true ∨ (∃ o, m.fails o) →
      Rep c m l' w' → Tried c m producerId events l w l' w' → Q (.error err, l') w') :
    Safe (setting c m) (SegmentLog.appendCommit c producerId events l) Q w :=
  h.appendCommit_seeks hm producerId events hcod hU hok fun err l' w' hwhy hrep htried =>
    herr err l' w' hwhy hrep (htried.imp_right fun hlost =>
      ⟨hlost.1.elim fun i hf => ⟨.seek i, hf⟩, hlost.2⟩)

end Commit

end OtkCore.SegmentLog
