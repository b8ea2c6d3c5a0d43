import OtkCore.SegmentLog.DirtyReads
import OtkCore.SegmentLog.Retention
import OtkCore.SegmentLog.Spinning

/-!
# What a subscription reports

As long as appends and rolls succeed, a subscription delivers the entries in order,
each once. It ends with an error where the segment of its next offset has been deleted,
but also before an index that is too large to be read; and an offset that was still to
come when the round began may be taken for an expired one.
-/
namespace OtkCore.SegmentLog

open Effect FileIO

def Uncut : Op FileName → Prop
  | .setLen _ _ => False
  | _ => True

theorem Adding.uncut {o : Op FileName} (h : Adding o) : Uncut o := by
  cases o with
  | setLen i len => exact h
  | _ => trivial

section Keeping

variable {c : Codec} {σ : Type}

theorem uncut_call {α : Type} {p : Prog (Resp (N := FileName)) (Except IoErrorKind α)}
    (h : p.Uses Uncut) : Uses Uncut (call p : Io σ α) :=
  .mapError (.liftE h) _

theorem uncut_writeAll (bytes : List UInt8) : Uses Uncut (File.writeAll FileName bytes) :=
  (uses_writeAllAux _ _).mono fun _ => Adding.uncut

theorem uncut_sync : Uses Uncut (File.sync FileName) := .bind .get fun _ => .liftE (.op trivial)

theorem uncut_seek (pos : ℕ) : Uses Uncut (File.seek FileName pos) :=
  .bind .get fun _ => .bind (.liftE (.op trivial)) fun _ => .modify _

theorem uncut_scratch (x y : FileName) (bytes : List UInt8) : Uses Uncut (do
    let ino ← call (Prog.op (Op.openWrite x true))
    let (_, f) ← (onFile (File.writeAll _ bytes)).on ⟨ino, 0⟩
    let _ ← (onFile (File.sync _)).on f
    call (Prog.op (Op.rename x y))
    let _ ← Proc.lift (Prog.op Op.syncDir) : Io σ Unit) := by
  refine Uses.bind (uncut_call (.op trivial)) fun ino => ?_
  refine Uses.bind (.on (.mapError (uncut_writeAll _) _) _) fun f => ?_
  refine Uses.bind (.on (.mapError uncut_sync _) _) fun _ => ?_
  exact .bind (uncut_call (.op trivial)) fun _ => .bind (.lift (.op trivial)) fun _ => .pure _

theorem cleanly_onActive {α : Type} {t : Io File α} (ht : Cleanly Uncut t) :
    Cleanly Uncut (onActive t) := by
  intro l
  unfold onActive
  cases l.active with
  | none => simp [Prog.Cleanly, Says]
  | some a =>
    refine Says.bind ((ht a.file).mono ?_)
    rintro ⟨r, file⟩ tr htr
    simpa [Says] using htr

theorem cleanly_writeRecord (e : LogEntry) : Cleanly Uncut (writeRecord c e) := by
  unfold writeRecord
  dsimp only
  split_ifs
  · exact .of_doomed (.throw _)
  · exact .of_doomed (.throw _)
  · exact .of_doomed (.throw _)
  · refine Cleanly.bind (.of_uses (.mapError (.bind .get fun f => .bind (.liftE (.op trivial))
      fun _ => .pure _) _)) fun start => ?_
    exact Cleanly.bind_attempt (.of_uses (uncut_writeAll _)) (fun _ => .of_uses (.pure _))
      fun k => .bind _ fun _ => .throw _

theorem cleanly_writeBatch (ts : ℕ) (producerId : String) (start offset : ℕ)
    (events : List OtkEvent) :
    Cleanly Uncut (writeBatch c ts producerId start offset events) := by
  induction events generalizing offset with
  | nil => exact .of_uses (.pure _)
  | cons event rest ih =>
    rw [writeBatch]
    split_ifs
    · exact .of_doomed (.bind _ fun _ => .throw _)
    · exact Cleanly.bind_attempt (cleanly_writeRecord _)
        (fun pos => .bind (ih _) fun _ => .of_uses (.pure _)) fun err => .bind _ fun _ => .throw _

theorem cleanly_syncBatch (flushIntervalMs start : ℕ) :
    Cleanly Uncut (syncBatch flushIntervalMs start) := by
  unfold syncBatch
  split_ifs
  · exact Cleanly.bind_attempt (.of_uses uncut_sync) (fun _ => .of_uses (.pure _))
      fun k => .bind _ fun _ => .throw _
  · exact .of_uses (.pure _)

theorem cleanly_appendCommit (producerId : String) (events : List OtkEvent) :
    Cleanly Uncut (appendCommit c producerId events) := by
  refine Cleanly.bind (.of_uses .get) fun l => ?_
  split_ifs
  · exact .of_doomed (.throw _)
  · exact .of_doomed (.throw _)
  · exact .of_doomed (.throw _)
  refine Cleanly.bind (.of_uses (uses_ensureActive.mono fun _ => Adding.uncut)) fun _ => ?_
  refine Cleanly.bind (.of_uses (.lift (.op trivial))) fun ts => ?_
  refine Cleanly.bind (.of_uses .get) fun l => ?_
  refine Cleanly.bind (cleanly_onActive (.of_uses (.mapError (uncut_seek _) _))) fun _ => ?_
  refine Cleanly.bind (cleanly_onActive (cleanly_writeBatch _ _ _ _ _)) fun positions => ?_
  refine Cleanly.bind (cleanly_onActive (cleanly_syncBatch _ _)) fun _ => ?_
  have hend : Uses Uncut batchEnd := uses_batchEnd.mono fun _ => Adding.uncut
  refine Cleanly.bind (cleanly_onActive (.of_uses (.attempt hend))) fun r => ?_
  cases r with
  | error k => exact .of_doomed (.bind _ fun _ => .throw _)
  | ok pos => exact .of_uses (.bind (.modify _) fun _ => .lift (.op trivial))

theorem cleanly_writeSentinel (pos : ℕ) : Cleanly Uncut (writeSentinel pos) := by
  refine Cleanly.bind (.of_uses (.mapError uncut_sync _)) fun _ => ?_
  refine Cleanly.bind (.of_uses (.mapError (uncut_writeAll _) _)) fun _ => ?_
  exact Cleanly.bind_attempt (.of_uses uncut_sync) (fun _ => .of_uses (.pure _))
    fun k => .bind _ fun _ => .bind _ fun _ => .throw _

theorem cleanly_closeActive (a : ActiveSegment) : Cleanly Uncut (closeActive a) := by
  refine Cleanly.bind (cleanly_onActive (cleanly_writeSentinel _)) fun _ => ?_
  refine Cleanly.bind_attempt (.of_uses (uncut_scratch _ _ _)) (fun _ => ?_)
    fun err => .bind _ fun _ => .throw _
  refine Cleanly.bind (cleanly_onActive (.of_uses (.attempt (.bind .get fun _ =>
    .liftE (.op trivial))))) fun r => ?_
  refine Cleanly.bind (.of_uses (.modify _)) fun _ => Cleanly.bind (.of_uses .get) fun l => ?_
  refine Cleanly.bind (.of_uses (uncut_scratch _ _ _)) fun _ => .of_uses ?_
  refine uses_enforceRetention.mono fun o ho => ?_
  cases o with
  | setLen i len => exact ho
  | _ => trivial

theorem cleanly_appendRoll : Cleanly Uncut appendRoll := by
  refine Cleanly.bind (.of_uses ?_) fun rolls => ?_
  · refine Uses.bind .get fun l => ?_
    split
    · exact .pure _
    · split_ifs
      · exact .pure _
      · exact .bind (.lift (.op trivial)) fun _ => .pure _
  have hrest : ∀ _ : Unit, Cleanly Uncut (do
      let s ← Proc.get
      pure (s.nextOffset - 1) : Io Log ℕ) :=
    fun _ => .of_uses (.bind .get fun _ => .pure _)
  split_ifs
  · refine Cleanly.bind (Cleanly.bind (.of_uses .get) fun l => ?_) hrest
    split
    · exact .of_uses (.pure _)
    · split_ifs
      · exact .of_uses (.bind (.modify _) fun _ => .bind (.lift (.op trivial)) fun _ => .pure _)
      · exact cleanly_closeActive _
  · exact hrest ()

end Keeping

namespace Writer

def Succeeding : Writer → Prop
  | .idle _ => True
  | .storing _ _ rest => ¬ rest.Doomed
  | .rolling _ rest => ¬ rest.Doomed

/-- What is under way cuts something off only in failing. -/
def Cautious : Writer → Prop
  | .idle _ => True
  | .storing _ _ rest => rest.Cleanly Uncut
  | .rolling _ rest => rest.Cleanly Uncut

variable {l : Log} {batch : List (String × OtkEvent)}

theorem cautious_ofRolling {p : Prog (Resp (N := FileName)) (Except StorageError ℕ × Log)}
    (h : p.Cleanly Uncut) : (Writer.ofRolling l p).Cautious := by
  cases p with
  | pure x => trivial
  | step o k => exact h

theorem cautious_ofStoring {p : Prog (Resp (N := FileName)) (Except StorageError Unit × Log)}
    (h : p.Cleanly Uncut) : (Writer.ofStoring l batch p).Cautious := by
  match p with
  | .step o k => exact h
  | .pure (.ok (), l') => exact cautious_ofRolling (cleanly_appendRoll l')
  | .pure (.error err, l') => trivial

theorem Succeeding.uncut {a : Writer} (h : a.Succeeding) (hcautious : a.Cautious) {i len : ℕ} :
    a.pending ≠ some (.setLen i len) := by
  intro hpending
  match a with
  | .idle l => cases hpending
  | .storing l batch (.pure x) => cases hpending
  | .storing l batch (.step o k) =>
    obtain rfl := Option.some.inj hpending
    exact h (hcautious.doomed id)
  | .rolling l (.pure x) => cases hpending
  | .rolling l (.step o k) =>
    obtain rfl := Option.some.inj hpending
    exact h (hcautious.doomed id)

end Writer

namespace System

variable {c : Codec} {x y : System} {P Q : System → Prop}

/-- The append or the roll that is under way can still succeed: no answer has made it
fail. -/
def Succeeding (x : System) : Prop := x.writer.Succeeding

theorem succeeding_of_idle {l : Log} (h : x.writer = .idle l) : x.Succeeding := by
  rw [Succeeding, h]
  trivial

theorem Run.mono (h : Run c P x) (hPQ : ∀ x, Run c P x → P x → Q x) : Run c Q x := by
  induction h with
  | opened hlife hopen => exact .opened hlife hopen
  | next hrun hp hx ih => exact .next ih (hPQ _ hrun hp) hx

theorem Run.cautious (h : Run c P x) : x.writer.Cautious := by
  induction h with
  | opened hlife hopen => trivial
  | next hrun hp hx ih =>
    cases hx with
    | append hidle hcod => exact Writer.cautious_ofStoring (cleanly_appendCommit _ _ _)
    | store hstoring hs =>
      rw [hstoring] at ih
      exact Writer.cautious_ofStoring (Prog.Cleanly.next ih _)
    | roll hrolling hs =>
      rw [hrolling] at ih
      exact Writer.cautious_ofRolling (Prog.Cleanly.next ih _)
    | subscribe hidle habsent hsub => exact ih
    | arm hresting hopen => exact ih
    | look htrying hs => exact ih
    | finish htrying => exact ih

theorem Run.spares (h : Run c Succeeding x) : Run c Spares x :=
  h.mono fun _ hrun hsucceeding _ _ hpending =>
    absurd hpending (Writer.Succeeding.uncut hsucceeding hrun.cautious)

/-- The index of a segment is too large to be read: it has that many bytes as long as the
segment is there. -/
def Oversized (d : Disk FileName) (base len : ℕ) : Prop :=
  maxIndexBytes < len ∧ ((d.find (.seg base)).isSome = true →
    ∃ i, d.find (.idx base) = some i ∧ (d.data i).length = len)

/-- What the subscription may report at offset `n`: no segment begins at or before it,
if it was committed when the round began; or that the index of a segment that begins
there or before is too large to be read. -/
def Reported (x : System) (n : ℕ) (err : StorageError) : Prop :=
  (∃ earliest, err = .retentionExpired n earliest ∧ (n < x.armed → ¬ Retained x.disk n)) ∨
    ∃ dir base len, base ≤ n ∧ Oversized x.disk base len ∧ err = oversizedIndex dir base len

theorem oversized_of_closed {w : World} (hg : Good c w) {t : Segment} (ht : t ∈ w.ghost.closed)
    (hlarge : maxIndexBytes < 8 * t.entries.length) :
    Oversized w.disk t.base (8 * t.entries.length) := by
  refine ⟨hlarge, fun hlinked => ?_⟩
  obtain ⟨u, hu, hb, hleft⟩ := (hg.linked_iff t.base).mp hlinked
  cases hindex : w.disk.find (.idx t.base) with
  | none =>
    have hgone := hg.stop_le_of_unindexed ht hindex
    have hsome := List.length_pos_of_ne_nil (hg.ok.nonempty t ht)
    rw [Segment.stop] at hgone
    omega
  | some j =>
    obtain ⟨v, hv, hvb, hdata⟩ := hg.idxData t.base j hindex
    obtain rfl := hg.ok.closed_inj hv ht hvb
    exact ⟨j, rfl, by rw [hdata, length_indexBytes, Segment.length_positions]⟩

theorem Sound.reports {E : List LogEntry} {w : World} {b : ℕ} (h : x.Sound c E w b)
    {err : StorageError} {s : Subscription} (hx : x.reader = .trying (.pure (.error err, s))) :
    s.nextOffset = x.start + x.delivered.length ∧ x.Reported s.nextOffset err := by
  have hreader := h.reader
  rw [hx] at hreader
  obtain ⟨-, -, hn, hexcused⟩ := hreader
  rw [hn]
  refine ⟨rfl, ?_⟩
  rcases hexcused with ⟨earliest, rfl, hgone⟩ | ⟨dir, t, ht, hle, hlarge, rfl⟩ | ⟨o, ho⟩
  · refine .inl ⟨earliest, rfl, fun hlt => ?_⟩
    have hevicted := hgone hlt
    rw [evictedCount_upTo] at hevicted
    rw [← h.disk]
    exact h.good.not_retained hevicted
  · have hclosed := (h.good.later_upTo b).closed.subset ht
    have hfile := oversized_of_closed h.good hclosed hlarge
    rw [h.disk] at hfile
    exact .inr ⟨dir, t.base, _, hle, hfile, rfl⟩
  · exact ho.elim

/-- In every run whose appends and rolls succeed: what has been delivered are the
entries from the start offset on, in order and each once, which between two calls are
what reading their offsets returns; and the only errors are those above. -/
theorem delivers_in_order (h : Run c Succeeding x) : ∃ entries : List LogEntry,
    entries.length = x.writer.log.nextOffset ∧ payloads (entries.drop x.first) = x.accepted ∧
    (∀ i e, x.delivered[i]? = some e → e.offset = x.start + i ∧
      (e.offset < entries.length → entries[e.offset]? = some e)) ∧
    (∀ l, x.writer = .idle l → ∀ e ∈ x.delivered, e.offset < entries.length ∧
      (Retained x.disk e.offset → ReadsBack c l x.disk e)) ∧
    ∀ err s, x.reader = .trying (.pure (.error err, s)) →
      s.nextOffset = x.start + x.delivered.length ∧ x.Reported s.nextOffset err := by
  obtain ⟨E, w, b, hsound⟩ := h.spares.sound fun _ hspare => hspare
  have hnext := hsound.writer.next
  refine ⟨E, hnext.symm, hsound.accepted, fun i e he => ?_, fun l hl e he => ?_,
    fun err s hx => hsound.reports hx⟩
  · have hmem := List.mem_iff_getElem?.mpr ⟨i, he⟩
    exact ⟨(hsound.delivered_stored he).1, fun hlt => hsound.delivered_committed hmem hlt⟩
  · rw [hl] at hnext
    obtain ⟨hlt, hback⟩ := hsound.delivered_idle hl he
    exact ⟨hnext ▸ hlt, hback⟩

end System

/-- Left alone, what is under way comes to an end without an error. -/
def Writer.finishing (d : Disk FileName) : Writer → Bool
  | .idle _ => true
  | .storing _ _ rest => (simulate 0 rest [] d).any fun y => y.2.1.isOk
  | .rolling _ rest => (simulate 0 rest [] d).any fun y => y.2.1.isOk

theorem not_doomed_of_simulate {α : Type} {d : Disk FileName}
    {p : Prog (Resp (N := FileName)) (Except StorageError α × Log)}
    (h : ((simulate 0 p [] d).any fun y => y.2.1.isOk) = true) : ¬ p.Doomed := by
  intro hdoomed
  cases hy : simulate 0 p [] d with
  | none =>
    rw [hy] at h
    cases h
  | some y =>
    obtain ⟨d', r, l⟩ := y
    rw [hy] at h
    have hrun : Finishes (Step NoFail) d p d' (r, l) := finishes_of_simulate (by simp) hy
    obtain ⟨tr, hx⟩ := hrun
    cases r with
    | ok a => exact hdoomed.not_exec hx
    | error err => cases h

def Reader.failed? : Reader → Option (StorageError × Subscription)
  | .trying (.pure (.error err, s)) => some (err, s)
  | _ => none

theorem Reader.failed?_eq_some {a : Reader} {err : StorageError} {s : Subscription}
    (h : a.failed? = some (err, s)) : a = .trying (.pure (.error err, s)) := by
  match a with
  | .absent => cases h
  | .resting t => cases h
  | .trying (.step o k) => cases h
  | .trying (.pure (.ok r, t)) => cases h
  | .trying (.pure (.error err', t)) =>
    obtain ⟨rfl, rfl⟩ := Prod.mk.inj (Option.some.inj h)
    rfl

namespace System

variable {c : Codec} {x y : System}

theorem succeeding_of_finishing (h : x.writer.finishing x.disk = true) : x.Succeeding := by
  unfold Succeeding
  cases hx : x.writer with
  | idle l => trivial
  | storing l batch rest =>
    rw [hx] at h
    exact not_doomed_of_simulate h
  | rolling l rest =>
    rw [hx] at h
    exact not_doomed_of_simulate h

theorem succeeding_of_drive {turns : List Turn} {config : SegmentLogConfig}
    (hsample : turns.all (fun t => t.events.all (· = sampleHealth)) = true)
    (h : drive sampleCodec 0 (fun x => x.writer.finishing x.disk = true) turns (fresh config) =
      some y) : Run sampleCodec Succeeding y :=
  (run_of_drive hsample h).mono fun _ _ hx => succeeding_of_finishing hx

/-- Two batches go to segments of their own, a subscription follows them, and a third
batch evicts the first segment. -/
def rollingTurns : List Turn :=
  .subscribe 0 :: .append "p" [sampleHealth, sampleHealth] :: List.replicate 27 (.log false) ++
    .append "q" [sampleHealth] :: List.replicate 25 (.log false) ++
    .arm :: List.replicate 22 .look ++ [.finish, .arm] ++ List.replicate 10 .look ++
    [.finish, .arm] ++ List.replicate 4 .look ++ [.finish, .arm] ++ List.replicate 10 .look ++
    .finish :: .append "r" [sampleHealth] :: List.replicate 28 (.log false)

theorem drive_delivers :
    ((drive sampleCodec 0 (fun x => x.writer.finishing x.disk = true) rollingTurns
      (fresh { maxSegmentBytes := 1, retention := .sizeBased 180 })).map fun x =>
        (x.delivered, x.writer.log.nextOffset, (x.disk.find (.seg 0)).isSome)) =
      some ([⟨0, 0, "p", sampleHealth⟩, ⟨1, 0, "p", sampleHealth⟩, ⟨2, 0, "q", sampleHealth⟩], 4,
        false) := by
  decide +kernel

theorem delivers_in_order_sample : ∃ x, Run sampleCodec Succeeding x ∧
    x.delivered = [⟨0, 0, "p", sampleHealth⟩, ⟨1, 0, "p", sampleHealth⟩,
      ⟨2, 0, "q", sampleHealth⟩] ∧ x.writer.log.nextOffset = 4 ∧ x.disk.find (.seg 0) = none ∧
    ∃ entries : List LogEntry,
      entries.length = x.writer.log.nextOffset ∧ payloads (entries.drop x.first) = x.accepted ∧
      (∀ i e, x.delivered[i]? = some e → e.offset = x.start + i ∧
        (e.offset < entries.length → entries[e.offset]? = some e)) ∧
      (∀ l, x.writer = .idle l → ∀ e ∈ x.delivered, e.offset < entries.length ∧
        (Retained x.disk e.offset → ReadsBack sampleCodec l x.disk e)) ∧
      ∀ err s, x.reader = .trying (.pure (.error err, s)) →
        s.nextOffset = x.start + x.delivered.length ∧ x.Reported s.nextOffset err := by
  obtain ⟨x, hdrive, hx⟩ := Option.map_eq_some_iff.mp drive_delivers
  obtain ⟨hdelivered, hx⟩ := Prod.mk.inj hx
  obtain ⟨hnext, hgone⟩ := Prod.mk.inj hx
  have hrun : Run sampleCodec Succeeding x := succeeding_of_drive (by decide +kernel) hdrive
  exact ⟨x, hrun, hdelivered, hnext, Option.not_isSome_iff_eq_none.mp (by simp [hgone]),
    delivers_in_order hrun⟩

/-- A subscription lists an empty directory; by the time it reads the watermark a batch
has been appended and its segment closed. -/
def racingTurns : List Turn :=
  [.subscribe 0, .arm, .look] ++ .append "p" [sampleHealth] :: List.replicate 25 (.log false) ++
    [.look, .look]

theorem drive_racing :
    ((drive sampleCodec 0 (fun x => x.writer.finishing x.disk = true) racingTurns
      (fresh { maxSegmentBytes := 1 })).map fun x =>
        (x.reader.failed?.map fun (err, s) => (err, s.nextOffset),
          x.writer.idle?.map Log.nextOffset, (x.disk.find (.seg 0)).isSome)) =
      some (some (.retentionExpired 0 none, 0), some 1, true) := by
  decide +kernel

variable {l l' : Log} {d : Disk FileName}

theorem Run.commits {batch : List (String × OtkEvent)}
    {rest : Prog (Resp (N := FileName)) (Except StorageError Unit × Log)}
    (hx : Run c Succeeding (x.commit l batch rest))
    (hrun : Finishes (Step NoFail) x.disk rest d (.ok (), l')) :
    ∃ y, Run c Succeeding y ∧ y.writer = .ofRolling l' (appendRoll l') ∧ y.disk = d ∧
      y.reader = x.reader ∧ y.accepted = x.accepted ++ batch := by
  obtain ⟨tr, hrun⟩ := hrun
  induction rest generalizing x tr with
  | pure a =>
    cases hrun
    exact ⟨_, hx, rfl, rfl, rfl, rfl⟩
  | step o k ih =>
    cases hrun with
    | @step _ d₁ _ _ r _ tr' _ hs hrest =>
      have hgo := hx.next (fun hdoomed => hdoomed.not_exec (.step hs hrest))
        (.store rfl (hs.imp fun _ hf => hf.elim))
      obtain ⟨y, hy, hwriter, hdisk, hreader, haccepted⟩ := ih r hgo _ hrest
      exact ⟨y, hy, hwriter, hdisk, hreader, haccepted.trans (by simp [commit, committedBy])⟩

theorem Run.rolls {rest : Prog (Resp (N := FileName)) (Except StorageError ℕ × Log)} {n : ℕ}
    (hx : Run c Succeeding x) (hwriter : x.writer = .ofRolling l rest)
    (hrun : Finishes (Step NoFail) x.disk rest d (.ok n, l')) :
    ∃ y, Run c Succeeding y ∧ y.writer = .idle l' ∧ y.disk = d ∧ y.reader = x.reader ∧
      y.accepted = x.accepted := by
  obtain ⟨tr, hrun⟩ := hrun
  induction rest generalizing x tr with
  | pure a =>
    cases hrun
    exact ⟨x, hx, hwriter, rfl, rfl, rfl⟩
  | step o k ih =>
    cases hrun with
    | @step _ d₁ _ _ r _ tr' _ hs hrest =>
      have hsucceeding : x.Succeeding := by
        rw [Succeeding, hwriter]
        exact fun hdoomed => hdoomed.not_exec (.step hs hrest)
      obtain ⟨y, hy, hidle, hdisk, hreader, haccepted⟩ :=
        ih r (hx.next hsucceeding (.roll hwriter hs)) rfl _ hrest
      exact ⟨y, hy, hidle, hdisk, hreader, haccepted⟩

theorem Run.appends {producerId : String} {events : List OtkEvent} {n : ℕ}
    (hx : Run c Succeeding x) (hidle : x.writer = .idle l) (hcod : Decodes c events)
    (hrun : Finishes (Step NoFail) x.disk (append c producerId events l) d (.ok n, l')) :
    ∃ y, Run c Succeeding y ∧ y.writer = .idle l' ∧ y.disk = d ∧ y.reader = x.reader ∧
      y.accepted = x.accepted ++ events.map (producerId, ·) := by
  obtain ⟨⟨r, l₁⟩, d₁, hcommit, hroll⟩ := Finishes.bind_inv hrun
  cases r with
  | error err =>
    obtain ⟨tr, hroll⟩ := hroll
    cases hroll
  | ok u =>
    obtain ⟨y, hy, hwriter, rfl, hreader, haccepted⟩ :=
      (hx.next (succeeding_of_idle hidle) (.append hidle hcod)).commits hcommit
    obtain ⟨z, hz, hidle', hdisk, hreader', haccepted'⟩ := hy.rolls hwriter hroll
    exact ⟨z, hz, hidle', hdisk, hreader'.trans hreader, haccepted'.trans haccepted⟩

/-- A subscription that is left alone comes to the end of its round. -/
theorem Run.looks
    {rest : Prog (Resp (N := FileName))
      (Except StorageError Subscription.Round × Subscription)}
    {a : Except StorageError Subscription.Round × Subscription}
    (hx : Run c Succeeding x) (hidle : x.writer = .idle l) (htrying : x.reader = .trying rest)
    (hrun : Finishes (Step NoFail) x.disk rest d a) :
    ∃ y, Run c Succeeding y ∧ y.writer = .idle l ∧ y.disk = d ∧ y.reader = .trying (.pure a) ∧
      y.accepted = x.accepted := by
  obtain ⟨tr, hrun⟩ := hrun
  induction rest generalizing x tr with
  | pure b =>
    cases hrun
    exact ⟨x, hx, hidle, rfl, htrying, rfl⟩
  | step o k ih =>
    cases hrun with
    | @step _ d₁ _ _ r _ tr' _ hs hrest =>
      have hlooks := hx.next (succeeding_of_idle hidle) (.look htrying hs)
      obtain ⟨y, hy, hrest⟩ := ih r hlooks hidle rfl _ hrest
      exact ⟨y, hy, hrest⟩

end System

namespace Subscription

variable {c : Codec} {d : Disk FileName} {n base ino j : ℕ}

theorem safe_openToOffset_large (hbest : bestBase d n = some base)
    (hseg : d.find (.seg base) = some ino) (hidx : d.find (.idx base) = some j)
    (hlarge : maxIndexBytes < (d.data j).length) (dir : String) {s : Subscription} :
    Safe (bare NoFail) (openToOffset c dir n s)
      (fun x d' => d' = d ∧ x.2 = s ∧ ∃ msg, x.1 = .error (.corrupted msg)) d := by
  refine Safe.bindP (safe_scanSegments_still (fun found hfound => ?_) fun ⟨_, hf⟩ => hf.elim)
  obtain ⟨best, least⟩ := found
  obtain rfl : best = some base := hfound.trans hbest
  refine Safe.bindP (Safe.lift (quiet_bare.openRead (fun i hi => ?_) (fun hnone => ?_)
    fun hf => hf.elim))
  · refine Safe.bindP (safe_idxExists_still ?_ fun ⟨_, hf⟩ => hf.elim)
    dsimp only
    rw [if_pos (by rw [hidx]; rfl)]
    refine Safe.bindP (Safe.attempt (safe_readIndex_at hidx dir (fun hle _ => ?_)
      (fun _ msg => ?_) fun ⟨_, hf⟩ => hf.elim))
    · omega
    · exact ⟨rfl, rfl, msg, rfl⟩
  · cases hseg.symm.trans hnone

/-- A round that has to open a segment whose index is too large. -/
theorem safe_round_large (hbest : bestBase d n = some base)
    (hseg : d.find (.seg base) = some ino) (hidx : d.find (.idx base) = some j)
    (hlarge : maxIndexBytes < (d.data j).length) (dir : String) :
    Safe (bare NoFail) (round c dir (.new n))
      (fun x d' => d' = d ∧ x.2.nextOffset = n ∧ ∃ msg, x.1 = .error (.corrupted msg)) d := by
  refine Safe.bind (Safe.bindP (Safe.getP (Safe.bindP
    ((safe_openToOffset_large hbest hseg hidx hlarge dir).mono ?_))))
  rintro ⟨r, s⟩ d' ⟨rfl, rfl, msg, rfl⟩
  exact ⟨rfl, rfl, msg, rfl⟩

/-- At a base offset the segment of that name is the best one. -/
theorem bestBase_self (h : (d.find (.seg n)).isSome = true) : bestBase d n = some n := by
  rw [bestBase, List.max?_eq_some_iff]
  refine ⟨List.mem_filter.mpr ⟨List.mem_filterMap.mpr ⟨.seg n, ?_, rfl⟩, by simp⟩, fun b hb => ?_⟩
  · rwa [Disk.mem_keys]
  · simpa using (List.mem_filter.mp hb).2

end Subscription

namespace System

/-- A batch with more entries than an index may have is appended, and its segment is
closed; a subscription to it fails. -/
theorem reports_large_index : ∃ x s l msg, Run sampleCodec Succeeding x ∧ x.writer = .idle l ∧
    x.accepted = oversizedBatch.map ("p", ·) ∧
    x.reader = .trying (.pure (.error (.corrupted msg), s)) ∧ Retained x.disk s.nextOffset := by
  obtain ⟨l, d, happend, hbig⟩ := finishes_oversized
  unfold IndexesReadable at hbig
  push Not at hbig
  obtain ⟨base, j, hseg, hidx, hlarge⟩ := hbig
  obtain ⟨ino, hino⟩ := Option.isSome_iff_exists.mp hseg
  have hopened : Run sampleCodec Succeeding (fresh ageless.config) :=
    .opened .empty (finishes_openDir_empty _)
  have hsubscribed := hopened.next trivial
    (.subscribe rfl rfl (show ageless.subscribe base = .ok (.new base) from rfl))
  obtain ⟨y, hy, hidle, rfl, hreader, haccepted⟩ :=
    hsubscribed.appends rfl decodes_oversized happend
  have harmed := hy.next (succeeding_of_idle hidle) (.arm hreader rfl)
  obtain ⟨⟨r, s⟩, hround⟩ :=
    Subscription.exists_round NoFail y.disk y.writer.log.config.dir (.new base)
  obtain ⟨z, hz, hidle', hdisk, hreader', haccepted'⟩ := harmed.looks hidle rfl hround
  obtain ⟨-, hnext, msg, rfl⟩ := finishes_bare hround
    (Subscription.safe_round_large (Subscription.bestBase_self hseg) hino hidx hlarge _)
  refine ⟨z, s, l, msg, hz, hidle', haccepted'.trans haccepted, hreader', base, ino, ?_, hnext.ge⟩
  rw [hdisk]
  exact hino

/-- An offset is reported as expired whose entry is committed and still there; and
another error is reported. -/
theorem reports_otherwise :
    (∃ x s l, Run sampleCodec Succeeding x ∧ x.writer = .idle l ∧
      x.reader = .trying (.pure (.error (.retentionExpired s.nextOffset none), s)) ∧
      s.nextOffset < l.nextOffset ∧ Retained x.disk s.nextOffset) ∧
    ∃ x s l msg, Run sampleCodec Succeeding x ∧ x.writer = .idle l ∧
      x.reader = .trying (.pure (.error (.corrupted msg), s)) ∧ Retained x.disk s.nextOffset := by
  constructor
  · obtain ⟨x, hdrive, hx⟩ := Option.map_eq_some_iff.mp drive_racing
    obtain ⟨hfailed, hx⟩ := Prod.mk.inj hx
    obtain ⟨hidle, hlinked⟩ := Prod.mk.inj hx
    obtain ⟨⟨err, s⟩, hreader, hs⟩ := Option.map_eq_some_iff.mp hfailed
    obtain ⟨rfl, hnext⟩ := Prod.mk.inj hs
    obtain ⟨l, hl, hlog⟩ := Option.map_eq_some_iff.mp hidle
    obtain ⟨ino, hino⟩ := Option.isSome_iff_exists.mp hlinked
    refine ⟨x, s, l, succeeding_of_drive (by decide +kernel) hdrive, Writer.idle?_eq_some hl, ?_,
      ?_, 0, ino, hino, Nat.zero_le _⟩
    · rw [hnext]
      exact Reader.failed?_eq_some hreader
    · omega
  · obtain ⟨x, s, l, msg, hrun, hidle, -, hreader, hretained⟩ := reports_large_index
    exact ⟨x, s, l, msg, hrun, hidle, hreader, hretained⟩

end System

end OtkCore.SegmentLog
