import OtkCore.Lib.Stopped
import OtkCore.SegmentLog.Appending

/-!
# Where a stop falls

What a segment file holds when an append is stopped before its commit, as long
as no write and no truncation fails: the first bytes of the batch, as far as the
writes have reached, or nothing of it once the file has been cut.
-/
namespace OtkCore.SegmentLog

open Effect FileIO Bytes

/-- The file ends where the batch begins, or holds the first bytes of the batch. -/
def Landed (old : Disk FileName) (ino start : ℕ) (bytes : List UInt8) (tr : Trace FileName)
    (d : Disk FileName) : Prop :=
  Truncates tr ∧ d.dir = old.dir ∧ (d.data ino).length = start ∨
    ∃ m, Laid old ino start bytes m (d, tr)

section Batch

variable {c : Codec} {fails : Op FileName → Prop} {old d : Disk FileName} {ino start m p : ℕ}
  {bytes : List UInt8} {w : Disk FileName × Trace FileName}

theorem landed_of_laid (h : Laid old ino start bytes m w) : Landed old ino start bytes w.2 w.1 :=
  Or.inr ⟨m, h⟩

theorem Landed.dir (h : Landed old ino start bytes w.2 w.1) : w.1.dir = old.dir := by
  obtain ⟨-, hdir, -⟩ | ⟨m, hlaid⟩ := h
  · exact hdir
  · rw [hlaid.disk]
    rfl

theorem Landed.setLen (h : Landed old ino start bytes w.2 w.1) {r : Resp (N := FileName)
    (.setLen ino start)} : Landed old ino start bytes (w.2 ++ [⟨.setLen ino start, r⟩])
      (w.1.setData ino (resize (w.1.data ino) start)) := by
  refine Or.inl ⟨(truncates_append _ _).mpr (Or.inr ⟨ino, start, r, List.mem_singleton_self _⟩),
    h.dir, ?_⟩
  rw [Disk.data_setData, if_pos rfl]
  simp only [resize, List.length_append, List.length_take, List.length_replicate]
  omega

theorem Landed.stay (h : Landed old ino start bytes w.2 w.1) {o : Op FileName} {r : Resp o}
    (hend : endOf ⟨o, r⟩ = 0) (hcut : ∀ i n, o ≠ .setLen i n) :
    Landed old ino start bytes (w.2 ++ [⟨o, r⟩]) w.1 := by
  obtain ⟨hc, hrest⟩ | ⟨m, hlaid⟩ := h
  · exact Or.inl ⟨(truncates_append _ _).mpr (Or.inl hc), hrest⟩
  · exact Or.inr ⟨m, hlaid.stay hend hcut⟩

theorem landed_setLen (hset : ∀ i n, ¬ fails (.setLen i n))
    (h : Landed old ino start bytes w.2 w.1)
    {Q : Except IoErrorKind Unit × File → Disk FileName × Trace FileName → Prop}
    (hQ : ∀ r w', Landed old ino start bytes w'.2 w'.1 → Q (r, ⟨ino, p⟩) w') :
    Safe (traced fails (Landed old ino start bytes)) (File.setLen FileName start ⟨ino, p⟩) Q w := by
  refine traced_op fun r d' hs => ?_
  obtain ⟨rfl, rfl⟩ | ⟨hf, -⟩ := hs
  · exact ⟨h.setLen, hQ _ _ h.setLen⟩
  · exact absurd hf (hset _ _)

theorem landed_writeRecord (hwrite : ∀ i p b, ¬ fails (.write i p b)) {e : LogEntry}
    (h : Laid old ino start bytes m w) (hpiece : recordBytes c e <+: bytes.drop m)
    {Q : Except StorageError ℕ × File → Disk FileName × Trace FileName → Prop}
    (hok : ∀ pos w', Laid old ino start bytes (m + (recordBytes c e).length) w' →
      Q (.ok pos, ⟨ino, start + m + (recordBytes c e).length⟩) w')
    (herr : ∀ err w', Laid old ino start bytes m w' → Q (.error err, ⟨ino, start + m⟩) w') :
    Safe (traced fails (Landed old ino start bytes)) (writeRecord c e ⟨ino, start + m⟩) Q w := by
  unfold writeRecord
  split_ifs
  · exact herr _ w h
  · exact herr _ w h
  · exact herr _ w h
  refine Safe.bindP (Safe.mapError (traced_op fun r d' hs => ?_))
  obtain ⟨rfl, hr⟩ := hs
  have hstay := h.stay (o := .seek ino) (r := r) rfl (by simp)
  refine ⟨landed_of_laid hstay, ?_⟩
  rcases r with k | _
  · exact herr _ _ hstay
  · exact Safe.bindP (Safe.attempt (traced_writeAll hwrite (fun m w => landed_of_laid) hstay hpiece
      fun w' hw' => hok _ w' hw'))

/-- The records of a batch, from those that are left to write. -/
theorem landed_writeBatch (hwrite : ∀ i p b, ¬ fails (.write i p b))
    (hset : ∀ i n, ¬ fails (.setLen i n)) {ts : ℕ} {producerId : String}
    {Q : Except StorageError (List ℕ) × File → Disk FileName × Trace FileName → Prop}
    (hok : ∀ positions pos w', Laid old ino start bytes bytes.length w' →
      Q (.ok positions, ⟨ino, pos⟩) w')
    (herr : ∀ err pos w', Landed old ino start bytes w'.2 w'.1 → Q (.error err, ⟨ino, pos⟩) w')
    {offset : ℕ} {events : List OtkEvent} (h : Laid old ino start bytes m w)
    (hrest : bytes.drop m = recordsBytes c (batchOf offset ts producerId events)) :
    Safe (traced fails (Landed old ino start bytes))
      (writeBatch c ts producerId start offset events ⟨ino, start + m⟩) Q w := by
  induction events generalizing offset m w Q with
  | nil =>
    have hall : m = bytes.length := by
      have hlen := List.drop_eq_nil_iff.mp hrest
      have hle := h.le
      omega
    subst hall
    exact hok _ _ w h
  | cons event rest ih =>
    rw [batchOf_cons, recordsBytes_cons] at hrest
    rw [writeBatch]
    split_ifs
    · exact Safe.bindP (Safe.attempt (landed_setLen hset (landed_of_laid h) fun r w' hw' =>
        herr _ _ w' hw'))
    · refine Safe.bindP (Safe.attempt (landed_writeRecord hwrite h ⟨_, hrest.symm⟩
        (fun pos w' hw' => ?_) fun err w' hw' => ?_))
      · have hdrop : bytes.drop (m + (recordBytes c ⟨offset, ts, producerId, event⟩).length) =
            recordsBytes c (batchOf (offset + 1) ts producerId rest) := by
          rw [← List.drop_drop, hrest, List.drop_left]
        rw [Nat.add_assoc]
        refine Safe.bindP (ih ?_ ?_ hw' hdrop)
        · exact fun positions pos w'' hw'' => hok _ pos w'' hw''
        · exact fun err pos w'' hw'' => herr err pos w'' hw''
      · exact Safe.bindP (Safe.attempt (landed_setLen hset (landed_of_laid hw') fun r w'' hw'' =>
          herr _ _ w'' hw''))

theorem landed_end (hset : ∀ i n, ¬ fails (.setLen i n)) (flushIntervalMs pos : ℕ)
    (h : Landed old ino start bytes w.2 w.1)
    {Q : Except StorageError Unit × File → Disk FileName × Trace FileName → Prop}
    (hQ : ∀ r w', Landed old ino start bytes w'.2 w'.1 → Q (r, ⟨ino, pos⟩) w') :
    Safe (traced fails (Landed old ino start bytes)) (syncBatch flushIntervalMs start ⟨ino, pos⟩)
      Q w := by
  unfold syncBatch
  split_ifs
  · refine Safe.bindP (Safe.attempt (traced_op fun r d' hs => ?_))
    obtain ⟨rfl, hr⟩ := hs
    have hstay := h.stay (o := .sync ino) (r := r) rfl (by simp)
    refine ⟨hstay, ?_⟩
    rcases r with k | _
    · exact Safe.bindP (Safe.attempt (landed_setLen hset hstay fun r w' hw' => hQ _ w' hw'))
    · exact hQ _ _ hstay
  · exact hQ _ w h

theorem landed_batchEnd (pos : ℕ) (h : Landed old ino start bytes w.2 w.1)
    {Q : Except IoErrorKind ℕ × File → Disk FileName × Trace FileName → Prop}
    (hQ : ∀ r f w', Landed old ino start bytes w'.2 w'.1 → Q (r, f) w') :
    Safe (traced fails (Landed old ino start bytes)) (batchEnd ⟨ino, pos⟩) Q w := by
  refine Safe.bindP (Safe.attempt (traced_op fun r d' hs => ?_))
  obtain ⟨rfl, hr⟩ := hs
  have hstay := h.stay (o := .seek ino) (r := r) rfl (by simp)
  refine ⟨hstay, ?_⟩
  rcases r with k | _
  · refine Safe.bindP (Safe.attempt (traced_op fun r d' hs => ?_))
    obtain ⟨rfl, hr⟩ := hs
    have hlen := hstay.stay (w := (_, _)) (o := .fileLen ino) (r := r) rfl (by simp)
    refine ⟨hlen, ?_⟩
    rcases r with k | n
    · exact hQ _ _ _ hlen
    · exact hQ _ _ _ hlen
  · exact hQ _ _ _ hstay

theorem ensureActive_of_active {l : Log} {a : ActiveSegment} (ha : l.active = some a) :
    ensureActive l = .pure (.ok (), l) := by
  unfold ensureActive
  rw [Proc.bind_apply, Proc.get_apply, Prog.pure_bind]
  dsimp only
  rw [ha]
  rfl

theorem landed_appendCommit (hwrite : ∀ i p b, ¬ fails (.write i p b))
    (hset : ∀ i n, ¬ fails (.setLen i n)) {l : Log} {a : ActiveSegment} (ha : l.active = some a)
    (hroom : a.nextFilePos ≤ (d.data a.file.ino).length) (producerId : String)
    (events : List OtkEvent) :
    Safe (traced fails fun tr d' => ∃ ts, Landed d a.file.ino a.nextFilePos
        (recordsBytes c (batchOf l.nextOffset ts producerId events)) tr d')
      (appendCommit c producerId events l) (fun _ _ => True) (d, []) := by
  refine Safe.getP ?_
  split_ifs
  · trivial
  · trivial
  · trivial
  refine Safe.bindP ?_
  rw [ensureActive_of_active ha]
  refine Safe.bindP (Safe.lift (traced_op fun ts d' hs => ?_))
  obtain rfl : d' = d := hs.2
  have hempty : ¬ Truncates ([] : Trace FileName) := by simp [Truncates]
  have hnow := (Laid.nil rfl hempty hroom (recordsBytes c
    (batchOf l.nextOffset ts producerId events))).stay
    (o := .now) (r := ts) rfl (by simp)
  refine ⟨⟨ts, landed_of_laid hnow⟩, ?_⟩
  change Safe _ ((Proc.get >>= _) l) (fun _ _ => True) _
  refine traced_mono (J := Landed d' a.file.ino a.nextFilePos
    (recordsBytes c (batchOf l.nextOffset ts producerId events))) (fun _ _ h => ⟨ts, h⟩)
    (Safe.getP ?_)
  have hstart : (l.active.map ActiveSegment.nextFilePos).getD 0 = a.nextFilePos := by simp [ha]
  simp only [hstart]
  refine Safe.bindP (safe_onActive ha (Safe.mapError (traced_op fun r d' hs => ?_)))
  obtain ⟨rfl, hr⟩ := hs
  have hseek := hnow.stay (o := .seek a.file.ino) (r := r) rfl (by simp)
  refine ⟨landed_of_laid hseek, ?_⟩
  rcases r with k | _
  · trivial
  refine Safe.bindP (safe_onActive (Log.setFile_active ha) (landed_writeBatch (m := 0) hwrite hset
    (fun positions pos w' hw' => ?_) (fun err pos w' hw' => trivial) hseek rfl))
  have ha₁ := Log.setFile_active (f := ⟨a.file.ino, pos⟩) (Log.setFile_active (f := ⟨a.file.ino,
    a.nextFilePos⟩) ha)
  refine Safe.bindP (safe_onActive ha₁ (landed_end hset _ _ (landed_of_laid hw') fun r w₁ hw₁ => ?_))
  rcases r with err | _
  · trivial
  have ha₂ := Log.setFile_active (f := ⟨a.file.ino, pos⟩) ha₁
  refine Safe.bindP (safe_onActive ha₂ (Safe.attempt (landed_batchEnd _ hw₁ fun r f w₂ hw₂ => ?_)))
  rcases r with k | n
  · trivial
  · refine Safe.modifyP (Safe.lift (traced_op fun r d' hs => ?_))
    obtain rfl : d' = w₂.1 := hs
    exact ⟨hw₂.stay (o := .notify) (r := r) rfl (by simp), trivial⟩

theorem reached_ensureActive (hwrite : ∀ i p b, ¬ fails (.write i p b)) (l : Log) :
    Safe (traced fails fun tr _ => reached tr ≤ headerLen) (ensureActive l) (fun _ _ => True)
      (d, []) := by
  refine Safe.getP ?_
  cases l.active with
  | some a => trivial
  | none =>
    refine Safe.bindP (Safe.lift (traced_op fun ts d' hs => ⟨Nat.zero_le _, ?_⟩))
    refine Safe.bindP (Safe.mapError (Safe.liftE (traced_op fun r d₁ hs => ⟨Nat.zero_le _, ?_⟩)))
    rcases r with k | ino
    · trivial
    have hlen : (SegmentHeader.bytes ⟨l.nextOffset, ts⟩).length = headerLen := by
      simp [SegmentHeader.bytes, magic, headerLen]
    have hreached : ∀ m w, Laid d₁ ino 0 (SegmentHeader.bytes ⟨l.nextOffset, ts⟩) m w →
        reached w.2 ≤ headerLen := by
      intro m w h
      have hle := h.le
      rw [h.reached]
      split_ifs <;> omega
    have hstart : Laid d₁ ino 0 (SegmentHeader.bytes ⟨l.nextOffset, ts⟩) 0
        (d₁, [⟨.now, ts⟩, ⟨.openWrite (.seg l.nextOffset) true, .ok ino⟩]) :=
      .nil rfl (by simp [Truncates]) (Nat.zero_le _) _
    refine Safe.bindP (Safe.on (Safe.mapError (traced_writeAll hwrite hreached hstart
      (List.prefix_refl _) fun w' hw' => ?_)))
    refine Safe.bindP (Safe.lift (traced_op fun r d₂ hs₂ => ⟨?_, trivial⟩))
    have hend := hreached _ _ (hw'.stay (o := .syncDir) (r := r) rfl (by simp))
    exact hend

end Batch

end OtkCore.SegmentLog
