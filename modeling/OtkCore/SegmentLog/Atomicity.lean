import OtkCore.SegmentLog.Stops
import OtkCore.SegmentLog.Unreported
import OtkCore.Lib.Outcome
import Mathlib.Data.List.Flatten

/-!
# Batches

A batch is written record by record, and recovery judges every record on its
own. A stop inside an append can therefore leave part of a batch behind. Where
no stop falls between the first and the last record of a batch, and a failed
batch is cut off again, the log consists of whole batches.
-/
namespace OtkCore.SegmentLog

open Effect FileIO Bytes

variable {c : Codec} {l l' : Log} {w : World} {d d' : Disk FileName}

/-- The operation does not touch the names in the directory but to add one. -/
def Linking : Op FileName → Prop
  | .rename _ _ | .unlink _ => False
  | _ => True

def Storing : Op FileName → Prop
  | .rename _ _ | .unlink _ | .notify => False
  | _ => True

theorem Storing.linking {o : Op FileName} (h : Storing o) : Linking o := by
  cases o with
  | rename src dst | unlink x => exact h
  | _ => trivial

/-- The operation adds to the files, or asks about them. -/
def Adding : Op FileName → Prop
  | .now | .openWrite _ _ | .write _ _ _ | .seek _ | .fileLen _ | .sync _ | .syncDir => True
  | _ => False

theorem Adding.storing {o : Op FileName} (h : Adding o) : Storing o := by
  cases o with
  | rename src dst | unlink x | notify => exact h
  | _ => trivial

theorem uses_writeAllAux (fuel : ℕ) (bytes : List UInt8) :
    Uses Adding (File.writeAllAux FileName fuel bytes) := by
  induction fuel generalizing bytes with
  | zero => exact .pure _
  | succ fuel ih =>
    rw [File.writeAllAux]
    split_ifs
    · exact .pure _
    · refine Uses.bind ?_ fun n => ?_
      · exact .bind .get fun f => .bind (.liftE (.op trivial)) fun n => .bind (.modify _) fun _ =>
          .pure _
      · split_ifs
        · exact .throw _
        · exact ih _

theorem uses_setLen (n : ℕ) : Uses Storing (File.setLen FileName n) :=
  .bind .get fun _ => .liftE (.op trivial)

theorem uses_writeRecord (e : LogEntry) : Uses Storing (writeRecord c e) := by
  unfold writeRecord
  dsimp only
  split_ifs
  · exact .throw _
  · exact .throw _
  · exact .throw _
  · refine Uses.bind (.mapError (.bind .get fun f => .bind (.liftE (.op trivial)) fun _ =>
      .pure _) _) fun start => ?_
    refine Uses.bind (.attempt ((uses_writeAllAux _ _).mono fun _ => Adding.storing)) fun r => ?_
    cases r with
    | error k => exact .bind (.attempt (uses_setLen _)) fun _ => .throw _
    | ok _ => exact .pure _

theorem uses_writeBatch (ts : ℕ) (producerId : String) (start offset : ℕ)
    (events : List OtkEvent) : Uses Storing (writeBatch c ts producerId start offset events) := by
  induction events generalizing offset with
  | nil => exact .pure _
  | cons event rest ih =>
    rw [writeBatch]
    split_ifs
    · exact .bind (.attempt (uses_setLen _)) fun _ => .throw _
    · refine Uses.bind (.attempt (uses_writeRecord _)) fun r => ?_
      cases r with
      | ok pos => exact .bind (ih _) fun _ => .pure _
      | error k => exact .bind (.attempt (uses_setLen _)) fun _ => .throw _

theorem uses_onActive {α : Type} {t : Io File α} (ht : Uses Storing t) :
    Uses Storing (onActive t) := by
  intro l
  unfold onActive
  cases l.active with
  | none => trivial
  | some a => exact Prog.Uses.bind (ht a.file) fun _ => trivial

theorem uses_ensureActive : Uses Adding ensureActive := by
  refine Uses.bind .get fun l => ?_
  cases l.active with
  | some a => exact .pure _
  | none =>
    refine Uses.bind (.lift (.op trivial)) fun ts => ?_
    refine Uses.bind (.mapError (.liftE (.op trivial)) _) fun ino => ?_
    refine Uses.bind (.on (.mapError (uses_writeAllAux _ _) _) _) fun x => ?_
    exact .bind (.lift (.op trivial)) fun _ => .modify _

theorem uses_syncBatch (flushIntervalMs start : ℕ) :
    Uses Storing (syncBatch flushIntervalMs start) := by
  unfold syncBatch
  split_ifs
  · refine Uses.bind (.attempt (.bind .get fun f => .liftE (.op trivial))) fun r => ?_
    cases r with
    | ok _ => exact .pure _
    | error k => exact .bind (.attempt (uses_setLen _)) fun _ => .throw _
  · exact .pure _

theorem uses_batchEnd : Uses Adding batchEnd := by
  refine Uses.bind (.attempt (.bind .get fun f => .bind (.liftE (.op trivial)) fun _ =>
    .pure _)) fun r => ?_
  cases r with
  | ok pos => exact .pure _
  | error k =>
    refine Uses.bind (.attempt (.bind .get fun f => .bind (.liftE (.op trivial)) fun _ =>
      .bind (.modify _) fun _ => .pure _)) fun r => ?_
    cases r with
    | ok pos => exact .pure _
    | error _ => exact .throw _

theorem uses_seekActive (pos : ℕ) : Uses Storing (onActive (onFile (File.seek FileName pos))) :=
  uses_onActive (.mapError (.bind .get fun _ => .bind (.liftE (.op trivial)) fun _ => .modify _) _)

theorem uses_appendCommit (producerId : String) (events : List OtkEvent) :
    Uses Linking (appendCommit c producerId events) := by
  refine Uses.bind .get fun l => ?_
  split_ifs
  · exact .throw _
  · exact .throw _
  · exact .throw _
  refine Uses.bind (uses_ensureActive.mono fun _ h => h.storing.linking) fun _ => ?_
  refine Uses.bind (.lift (.op trivial)) fun ts => Uses.bind .get fun l => ?_
  refine Uses.bind ((uses_seekActive _).mono fun _ => Storing.linking) fun _ => ?_
  refine Uses.bind ((uses_onActive (uses_writeBatch _ _ _ _ _)).mono fun _ => Storing.linking)
    fun positions => ?_
  refine Uses.bind ((uses_onActive (uses_syncBatch _ _)).mono fun _ => Storing.linking) fun _ => ?_
  have hend : Uses Storing batchEnd := uses_batchEnd.mono fun _ => Adding.storing
  refine Uses.bind ((uses_onActive (.attempt hend)).mono fun _ => Storing.linking) fun r => ?_
  cases r with
  | error k => exact .bind (.modify _) fun _ => .throw _
  | ok pos => exact .bind (.modify _) fun _ => .lift (.op trivial)

/-- The base of the segment that the next batch goes to. -/
def batchBase (l : Log) : ℕ := (l.active.map ActiveSegment.baseOffset).getD l.nextOffset

/-- The append has been stopped before its first record was complete, behind its
last one, or after the batch was cut off again. -/
def BetweenBatches (c : Codec) (l : Log) (producerId : String) (events : List OtkEvent)
    (tr : Trace FileName) : Prop :=
  Truncates tr ∨ reached tr < batchPos l + eventsLen c producerId (events.take 1) ∨
    batchPos l + eventsLen c producerId events ≤ reached tr

theorem length_recordsBytes_batchOf (n ts : ℕ) (producerId : String) (events : List OtkEvent) :
    (recordsBytes c (batchOf n ts producerId events)).length = eventsLen c producerId events := by
  induction events generalizing n with
  | nil => rfl
  | cons event rest ih =>
    rw [batchOf_cons, recordsBytes_cons, List.length_append, ih, length_recordBytes, payloadLen,
      eventsLen, eventsLen, List.map_cons, List.sum_cons]
    dsimp only
    omega

theorem take_batchOf (n ts j : ℕ) (producerId : String) (events : List OtkEvent) :
    (batchOf n ts producerId events).take j = batchOf n ts producerId (events.take j) := by
  induction events generalizing n j with
  | nil => rw [List.take_nil, batchOf_nil, List.take_nil]
  | cons event rest ih =>
    cases j with
    | zero => rfl
    | succ j => rw [batchOf_cons, List.take_succ_cons, ih, List.take_succ_cons, batchOf_cons]

def Ghost.newest (g : Ghost) : List LogEntry := (g.tail.map Segment.entries).getD []

theorem Rep.batch_place {m : Mode} (h : Rep c m l w) (hp : l.poisoned = false) :
    batchBase l = w.ghost.closedCount ∧
      batchPos l = headerLen + (recordsBytes c w.ghost.newest).length := by
  have hnext := h.clean hp
  unfold batchBase batchPos Ghost.newest
  cases ha : l.active with
  | some a =>
    obtain ⟨s, z, hat, -, hact⟩ := h.active a ha
    have hbase : a.baseOffset = s.base := hact.base
    have hall : l.nextOffset - s.base = s.entries.length := by
      have hstop := hat.base
      rw [Segment.stop] at hstop
      omega
    rw [hall, Segment.cut_length] at hact
    rw [hat.tail]
    refine ⟨hbase.trans (h.good.ok.tail_base hat.tail), ?_⟩
    simpa using hact.filePos
  | none =>
    obtain ⟨-, hempty⟩ := h.idle ha
    have htotal := w.ghost.total_eq
    have hnone : (w.ghost.tail.map Segment.entries).getD [] = [] := by
      cases ht : w.ghost.tail with
      | none => rfl
      | some s => exact (hempty s ht).1
    rw [hnone] at htotal ⊢
    refine ⟨?_, rfl⟩
    rw [Option.map_none, Option.getD_none, hnext, htotal, List.append_nil]
    rfl

theorem Move.closed_eq {w' : World} {o : Op FileName} (hm : Move c o w w') (ho : Linking o) :
    w'.ghost.closed = w.ghost.closed := by
  cases hm with
  | stay | scratchOpen | scratch | create | write => rfl
  | close | mark | drop | dropIndex => exact ho.elim

theorem TailOk.not_record {t : List UInt8} (h : TailOk c t) (e : LogEntry) :
    ¬ recordBytes c e <+: t := by
  intro hp
  have hlen := hp.length_le
  have hge := payloadLen_ge c e
  rw [length_recordBytes] at hlen
  rcases h with hshort | rfl | ⟨e', he', ht, hlt⟩
  · omega
  · simp [sentinel] at hlen
  · rw [length_recordBytes] at hlt
    -- Both records begin with their length.
    have hfield : le 4 (payloadLen c e) = le 4 (payloadLen c e') := by
      obtain ⟨more, hmore⟩ := hp.trans ht
      rw [← take_recordBytes e, ← take_recordBytes e', ← hmore,
        List.take_append_of_le_length (by rw [length_recordBytes]; omega)]
    have hsmall := he'.payloadLen_lt
    have heq := congrArg ofLe hfield
    rw [ofLe_le (by omega), ofLe_le hsmall] at heq
    omega

/-- Where part of a batch is stored, the file holds its records and what is left
of another one. -/
theorem Good.part_of_batch {w' : World} (h : Good c w') {batch : List LogEntry} {j : ℕ} {l : Log}
    (hbase : batchBase l = w.ghost.closedCount)
    (hpos : batchPos l = headerLen + (recordsBytes c w.ghost.newest).length)
    (hsame : w'.ghost.closed = w.ghost.closed)
    (htotal : w'.ghost.total = w.ghost.total ++ batch.take j) (hj : batch.take j ≠ []) :
    ∃ i t, w'.disk.find (.seg (batchBase l)) = some i ∧ TailOk c t ∧
      (w'.disk.data i).drop (batchPos l) = recordsBytes c (batch.take j) ++ t := by
  have hnewest : w'.ghost.newest = w.ghost.newest ++ batch.take j := by
    rw [Ghost.total_eq, w.ghost.total_eq, hsame, List.append_assoc] at htotal
    exact List.append_cancel_left htotal
  obtain ⟨s, hs⟩ : ∃ s, w'.ghost.tail = some s := by
    cases ht : w'.ghost.tail with
    | some s => exact ⟨s, rfl⟩
    | none =>
      rw [Ghost.newest, ht] at hnewest
      exact absurd (List.append_eq_nil_iff.mp hnewest.symm).2 hj
  have hentries : s.entries = w.ghost.newest ++ batch.take j := by
    rw [← hnewest, Ghost.newest, hs]
    rfl
  obtain ⟨-, -, hnil⟩ | ⟨t, hdata, htail⟩ := h.tailData s hs
  · rw [hnil] at hentries
    exact absurd (List.append_eq_nil_iff.mp hentries.symm).2 hj
  refine ⟨s.ino, t, ?_, htail, ?_⟩
  · rw [hbase, Ghost.closedCount, ← hsame, ← Ghost.closedCount, ← h.ok.tail_base hs]
    exact h.find_tail hs
  · rw [hdata, hpos, drop_image_append c hentries]

/-- A file that holds all bytes of a batch, and the records of its first entries
with the remainder of another record behind them, holds all its entries. -/
theorem batch_complete {n ts ts' j : ℕ} {producerId : String} {events : List OtkEvent}
    {t : List UInt8} (ht : TailOk c t)
    (h : recordsBytes c (batchOf n ts producerId events) <+:
      recordsBytes c ((batchOf n ts' producerId events).take j) ++ t) :
    (batchOf n ts' producerId events).take j = batchOf n ts' producerId events := by
  have hlen : ∀ ts, (batchOf n ts producerId events).length = events.length := fun ts => by
    rw [← length_payloads, payloads_batchOf, List.length_map]
  have hfront : (recordsBytes c ((batchOf n ts producerId events).take j)).length =
      (recordsBytes c ((batchOf n ts' producerId events).take j)).length := by
    rw [take_batchOf, take_batchOf, length_recordsBytes_batchOf, length_recordsBytes_batchOf]
  rw [← List.take_append_drop j (batchOf n ts producerId events), recordsBytes_append] at h
  have hrest : recordsBytes c ((batchOf n ts producerId events).drop j) <+: t := by
    have hdrop := h.drop (recordsBytes c ((batchOf n ts producerId events).take j)).length
    rw [List.drop_left, hfront, List.drop_left] at hdrop
    exact hdrop
  rcases hd : (batchOf n ts producerId events).drop j with _ | ⟨f, fs⟩
  · have hle := List.drop_eq_nil_iff.mp hd
    exact List.take_of_length_le (by rw [hlen] at hle ⊢; exact hle)
  · rw [hd, recordsBytes_cons] at hrest
    exact absurd ((List.prefix_append _ _).trans hrest) (ht.not_record f)

theorem Ready.congr_mode {m m' : Mode} (h : Ready c m l w) (hs : m'.strict ↔ m.strict) :
    Ready c m' l w := by
  obtain ⟨a, s, ha, hat, hrest⟩ := h.atEnd
  exact ⟨h.rep.congr_mode hs, h.clean, a, s, ha,
    ⟨hat.good, hat.tail, hat.data, hat.short, fun hst => hat.strict (hs.mp hst)⟩, hrest⟩

/-- Nobody follows the files, and the stored entries are among these. -/
def within (fails : Op FileName → Prop) (allowed : List LogEntry → Prop) : Mode :=
  ⟨fails, False, allowed⟩

theorem within_undoes {fails : Op FileName → Prop} (hset : ∀ i n, ¬ fails (.setLen i n))
    (allowed : List LogEntry → Prop) : (within fails allowed).Undoes :=
  ⟨hset, fun hs => hs.elim, fun hs => hs.elim⟩

/-- A stopped program that keeps the entries leaves a good directory with just
these entries. -/
theorem Good.stays {α : Type} {fails : Op FileName → Prop}
    {p rest : Prog (Resp (N := FileName)) α} {tr : List (Event (Resp (N := FileName)))}
    (hg : Good c w) (hx : Exec (Step fails) w.disk p tr d' rest) {Q : α → World → Prop}
    (hs : Safe (setting c (within fails (· = w.ghost.total))) p Q w) :
    ∃ w', w'.disk = d' ∧ Good c w' ∧ w'.ghost.total = w.ghost.total := by
  have hI : ∀ w₁ o r w₂, ⟨o, r⟩ ∈ tr → Good c w₁ ∧ w₁.ghost.total = w.ghost.total →
      (setting c (within fails (· = w.ghost.total))).guar w₁ o r w₂ →
      Good c w₂ ∧ w₂.ghost.total = w.ghost.total :=
    fun w₁ o r w₂ _ hi hguar => ⟨hi.1.move hguar.1, hguar.2.1 hi.2⟩
  obtain ⟨w', hd, hi, -⟩ := hs.exec (fun _ => rfl) hx hI rfl ⟨hg, rfl⟩
  exact ⟨w', hd, hi.1, hi.2⟩

section Stopped

variable {producerId : String} {events : List OtkEvent} {ts j : ℕ}
  {tr : List (Event (Resp (N := FileName)))}

theorem not_immediate_write (i p : ℕ) (b : List UInt8) : ¬ Immediate (.write i p b) :=
  fun h => Bool.noConfusion h.2

theorem not_immediate_setLen (i n : ℕ) : ¬ Immediate (.setLen i n) := fun h => h.1 i n rfl

/-- What is stored when an append is stopped before its commit. -/
theorem Rep.commit_prefix (h : Rep c faulty l w) (hcod : Decodes c events)
    {rest : Prog (Resp (N := FileName)) (Except StorageError Unit × Log)}
    (hx : Exec (Step Immediate) w.disk (SegmentLog.appendCommit c producerId events l) tr d' rest) :
    ∃ w' ts j, w'.disk = d' ∧ Good c w' ∧ w'.ghost.closed = w.ghost.closed ∧
      w'.ghost.total = w.ghost.total ++ (batchOf l.nextOffset ts producerId events).take j := by
  let allowed (t : List LogEntry) : Prop :=
    ∃ ts j, t = w.ghost.total ++ (batchOf l.nextOffset ts producerId events).take j
  have hrep : Rep c (within Immediate allowed) l w := h.congr_mode Iff.rfl
  have hsafe := hrep.appendCommit (Q := fun _ _ => True) (within_undoes not_immediate_setLen allowed)
    producerId events hcod (fun ts _ j _ => ⟨ts, j, rfl⟩) (fun _ _ _ _ _ => trivial)
    fun _ _ _ _ _ _ => trivial
  have huses := (uses_appendCommit (c := c) producerId events l).exec hx
  let I (w₁ : World) : Prop :=
    Good c w₁ ∧ allowed w₁.ghost.total ∧ w₁.ghost.closed = w.ghost.closed
  have hI : ∀ w₁ o r w₂, ⟨o, r⟩ ∈ tr → I w₁ → (setting c (within Immediate allowed)).guar w₁ o r w₂ →
      I w₂ := fun w₁ o r w₂ hmem hi hguar => ⟨hi.1.move hguar.1, hguar.2.1 hi.2.1,
    (hguar.1.closed_eq (huses _ hmem)).trans hi.2.2⟩
  obtain ⟨w', rfl, ⟨hg, ⟨ts, j, htotal⟩, hclosed⟩, -⟩ := hsafe.exec (fun _ => rfl) hx hI rfl
    ⟨h.good, ⟨0, 0, by simp⟩, rfl⟩
  exact ⟨w', ts, j, rfl, hg, hclosed, htotal⟩

/-- The log once its segment is open, and how far the header has reached. -/
theorem Rep.opened (h : Rep c faulty l w) (hp : l.poisoned = false) {r : Except StorageError Unit}
    (hx : Exec (Step Immediate) w.disk (SegmentLog.ensureActive l) tr d' (.pure (r, l'))) :
    reached tr ≤ headerLen ∧ ¬ Truncates tr ∧ (r = .ok () → ∃ w' a, w'.disk = d' ∧
      Rep c faulty l' w' ∧
      l'.active = some a ∧ l'.poisoned = false ∧ l'.nextOffset = l.nextOffset ∧
      w'.ghost.total = w.ghost.total ∧ w'.ghost.closed = w.ghost.closed) := by
  have huses := (uses_ensureActive l).exec hx
  refine ⟨?_, ?_, ?_⟩
  · have hreach := traced_exec hx (reached_ensureActive not_immediate_write l) (Nat.zero_le _)
    simpa using hreach
  · rintro ⟨i, n, r, hmem⟩
    exact huses _ hmem
  · rintro rfl
    have hI : ∀ w₁ o r w₂, ⟨o, r⟩ ∈ tr → w₁.ghost.closed = w.ghost.closed →
        (setting c faulty).guar w₁ o r w₂ → w₂.ghost.closed = w.ghost.closed :=
      fun w₁ o r w₂ hmem hi hguar =>
        (hguar.1.closed_eq (huses _ hmem).storing.linking).trans hi
    have hsafe := h.ensureActive (Q := fun x w' => x.1 = .ok () → ∃ a, Rep c faulty x.2 w' ∧
      x.2.active = some a ∧ x.2.poisoned = false ∧ x.2.nextOffset = l.nextOffset ∧
      w'.ghost.total = w.ghost.total) faulty_undoes hp
      (fun a l₁ w₁ hrep hkept ha hp₁ _ => ⟨a, hrep, ha, hp₁, hkept.next, hkept.total⟩)
      fun _ err w₁ _ _ hne => nomatch hne
    obtain ⟨w', hd, hclosed, hQ⟩ := hsafe.exec (fun _ => rfl)
      (hx.imp fun _ _ _ _ hs => hs.imp fun _ hf => hf.1) hI rfl rfl
    obtain ⟨a, hrep, ha, hp', hnext, htotal⟩ := hQ rfl
    exact ⟨w', a, hd, hrep, ha, hp', hnext, htotal, hclosed⟩

/-- The first record of a batch, of which something is stored, is stored. -/
theorem eventsLen_take_le (hj : (batchOf l.nextOffset ts producerId events).take j ≠ []) :
    30 ≤ eventsLen c producerId (events.take 1) ∧
      eventsLen c producerId (events.take 1) ≤ eventsLen c producerId (events.take j) ∧
      eventsLen c producerId (events.take 1) ≤ eventsLen c producerId events := by
  rcases events with _ | ⟨e, es⟩
  · simp at hj
  rcases j with _ | j
  · simp at hj
  simp only [eventsLen, List.take_succ_cons, List.take_zero, List.map_cons, List.map_nil,
    List.sum_cons, List.sum_nil]
  omega

/-- A commit stops at its checks, while it opens the segment, or behind that. -/
theorem exec_appendCommit {step : Disk FileName → (o : Op FileName) → Resp o → Disk FileName → Prop}
    {rest : Prog (Resp (N := FileName)) (Except StorageError Unit × Log)} (hp : l.poisoned = false)
    (hx : Exec step d (SegmentLog.appendCommit c producerId events l) tr d' rest) :
    d' = d ∨ (∃ p', Exec step d (SegmentLog.ensureActive l) tr d' p') ∨
      ∃ l₁ d₁ tr₁ tr₂, tr = tr₁ ++ tr₂ ∧
        Exec step d (SegmentLog.ensureActive l) tr₁ d₁ (.pure (.ok (), l₁)) ∧
        ∀ a, l₁.active = some a → l₁.poisoned = false →
          Exec step d₁ (SegmentLog.appendCommit c producerId events l₁) tr₂ d' rest := by
  unfold SegmentLog.appendCommit at hx ⊢
  rw [Proc.bind_apply, Proc.get_apply, Prog.pure_bind] at hx
  dsimp only at hx
  rw [hp, if_neg Bool.false_ne_true] at hx
  split_ifs at hx with h₂ h₃
  · cases hx
    exact Or.inl rfl
  · cases hx
    exact Or.inl rfl
  right
  rw [Proc.bind_apply] at hx
  obtain hstop | ⟨⟨r, l₁⟩, d₁, tr₁, tr₂, rfl, hopen, hrest⟩ := hx.bind_split
  · exact Or.inl hstop
  cases r with
  | error err =>
    cases hrest
    rw [List.append_nil]
    exact Or.inl ⟨_, hopen⟩
  | ok _ =>
    refine Or.inr ⟨l₁, d₁, tr₁, tr₂, rfl, hopen, fun a ha hp₁ => ?_⟩
    rw [Proc.bind_apply, Proc.get_apply, Prog.pure_bind]
    dsimp only
    rw [hp₁, if_neg Bool.false_ne_true, if_neg h₂, if_neg h₃, Proc.bind_apply,
      ensureActive_of_active ha]
    exact hrest

theorem Rep.commitStopped (h : Rep c faulty l w) (hp : l.poisoned = false)
    (hcod : Decodes c events)
    {rest : Prog (Resp (N := FileName)) (Except StorageError Unit × Log)}
    (hx : Exec (Step Immediate) w.disk (SegmentLog.appendCommit c producerId events l) tr d' rest)
    (hclear : BetweenBatches c l producerId events tr) :
    ∃ w', w'.disk = d' ∧ Good c w' ∧ (w'.ghost.total = w.ghost.total ∨
      ∃ ts, w'.ghost.total = w.ghost.total ++ batchOf l.nextOffset ts producerId events) := by
  obtain rfl | ⟨p', hopen⟩ | ⟨l₁, d₁, tr₁, tr₂, rfl, hopen, hrest⟩ := exec_appendCommit hp hx
  · exact ⟨w, rfl, h.good, Or.inl rfl⟩
  · have hrep : Rep c (within Immediate (· = w.ghost.total)) l w := h.congr_mode Iff.rfl
    obtain ⟨w', hd, hg, hsame⟩ := h.good.stays hopen (hrep.ensureActive
      (Q := fun _ _ => True) (within_undoes not_immediate_setLen _) hp (fun _ _ _ _ _ _ _ => trivial)
      fun _ _ _ _ _ => trivial)
    exact ⟨w', hd, hg, Or.inl hsame⟩
  obtain ⟨w', ts, j, rfl, hg, hclosed, htotal⟩ := h.commit_prefix hcod hx
  refine ⟨w', rfl, hg, ?_⟩
  by_cases hj : (batchOf l.nextOffset ts producerId events).take j = []
  · left
    rw [htotal, hj, List.append_nil]
  right
  obtain ⟨hheader, huncut, hopened⟩ := h.opened hp hopen
  obtain ⟨w₁, a, rfl, hrep₁, ha, hp₁, hnext, htotal₁, hclosed₁⟩ := hopened rfl
  obtain ⟨hbase, hpos⟩ := h.batch_place hp
  obtain ⟨hbase₁, hpos₁⟩ := hrep₁.batch_place hp₁
  obtain ⟨i, t, hfind, ht, hdrop⟩ := hg.part_of_batch hbase hpos hclosed htotal hj
  -- The segment that the batch goes to is the one that is open now.
  have hnewest : w₁.ghost.newest = w.ghost.newest := by
    rw [Ghost.total_eq, w.ghost.total_eq, hclosed₁] at htotal₁
    exact List.append_cancel_left htotal₁
  have hstart : batchPos l = a.nextFilePos := by
    rw [hpos, ← hnewest, ← hpos₁]
    simp [batchPos, ha]
  have hsegment : batchBase l = a.baseOffset := by
    rw [hbase, Ghost.closedCount, ← hclosed₁, ← Ghost.closedCount, ← hbase₁]
    simp [batchBase, ha]
  obtain ⟨s, z, hh⟩ := hrep₁.holds hp₁ ha
  have hold : (w₁.disk.data a.file.ino).length = a.nextFilePos + z.length := by
    rw [hh.mem.ino, hh.atTail.data, List.length_append, ← hh.mem.filePos]
  have hshort := hh.atTail.short
  obtain ⟨ts', hlanded⟩ := traced_exec (hrest a ha hp₁) (landed_appendCommit not_immediate_write
    not_immediate_setLen ha (by omega) producerId events) ⟨0, landed_of_laid (.nil rfl
      (by simp [Truncates]) (by omega) _)⟩
  rw [hnext, List.nil_append] at hlanded
  have hino : i = a.file.ino := by
    have hdir : w'.disk.dir = w₁.disk.dir := Landed.dir (w := (w'.disk, tr₂)) hlanded
    have hfile := (hrep₁.activeAgrees ha).file
    rw [hfile.1, Disk.find, ← hdir, ← hsegment] at hfile
    exact Option.some.inj (hfind.symm.trans hfile.2)
  subst hino
  have hsize := congrArg List.length hdrop
  rw [List.length_drop, List.length_append, take_batchOf, length_recordsBytes_batchOf, hstart]
    at hsize
  obtain ⟨hthirty, hfirst, hall⟩ := eventsLen_take_le (c := c) hj
  have hfront : headerLen ≤ a.nextFilePos := by omega
  obtain ⟨-, -, hcut⟩ | ⟨m, hlaid⟩ := hlanded
  · omega
  have hlen : (w'.disk.data a.file.ino).length = max _ (a.nextFilePos + m) := hlaid.length_data
  have hreached : reached tr₂ = if m = 0 then 0 else a.nextFilePos + m := hlaid.reached
  rw [BetweenBatches, truncates_append, reached_append, hstart] at hclear
  obtain (hcut | hcut) | hbefore | hbehind := hclear
  · exact absurd hcut huncut
  · exact absurd hcut hlaid.uncut
  · split_ifs at hreached <;> omega
  · have hle := hlaid.le
    rw [length_recordsBytes_batchOf] at hle
    have hm : m = eventsLen c producerId events := by
      split_ifs at hreached <;> omega
    have hdata : w'.disk.data a.file.ino = patch (w₁.disk.data a.file.ino) a.nextFilePos
        (recordsBytes c (batchOf l.nextOffset ts' producerId events)) := by
      have hdisk := congrArg (fun d => d.data a.file.ino) hlaid.disk
      rw [hm, ← length_recordsBytes_batchOf (c := c) l.nextOffset ts', List.take_length] at hdisk
      simpa using hdisk
    rw [hdata, hstart, drop_patch] at hdrop
    have hwhole := batch_complete ht ⟨_, hdrop⟩
    exact ⟨ts, htotal.trans (by rw [hwhole])⟩

theorem Rep.stopped (h : Rep c faulty l w) (hcod : Decodes c events)
    {rest : Prog (Resp (N := FileName)) (Except StorageError ℕ × Log)}
    (hx : Exec (Step Immediate) w.disk (SegmentLog.append c producerId events l) tr d' rest)
    (hclear : BetweenBatches c l producerId events tr) :
    ∃ w', w'.disk = d' ∧ Good c w' ∧ (w'.ghost.total = w.ghost.total ∨
      ∃ ts, w'.ghost.total = w.ghost.total ++ batchOf l.nextOffset ts producerId events) := by
  cases hp : l.poisoned with
  | true =>
    obtain ⟨err, hprog⟩ := append_eq_of_poisoned (c := c) hp producerId events
    rw [hprog] at hx
    cases hx
    exact ⟨w, rfl, h.good, Or.inl rfl⟩
  | false =>
    rw [SegmentLog.append, Proc.bind_apply] at hx
    obtain ⟨p', hcommit⟩ | ⟨⟨r, l₁⟩, d₁, tr₁, tr₂, hcommit, hroll⟩ := hx.bind_inv
    · exact h.commitStopped hp hcod hcommit hclear
    have hsafe := h.appendCommit (Q := fun x w₁ => Good c w₁ ∧
        (x.1 = .ok () → Ready c faulty x.2 w₁) ∧ (w₁.ghost.total = w.ghost.total ∨
          ∃ ts, w₁.ghost.total = w.ghost.total ++ batchOf l.nextOffset ts producerId events))
      faulty_undoes producerId events hcod (fun _ _ _ _ => trivial)
      (fun ts l₁ w₁ hcom hready => ⟨hready.rep.good, fun _ => hready, Or.inr ⟨ts, hcom.total⟩⟩)
      fun err l₁ w₁ _ hrep htried => ⟨hrep.good, by simp, htried.imp Kept.total
        fun hlost => hlost.2.imp fun _ => Lost.total⟩
    obtain ⟨w₁, rfl, hg, hready, htotal⟩ := hsafe.finishes (fun _ => rfl)
      ⟨tr₁, hcommit.imp fun _ _ _ _ hs => hs.imp fun _ hf => hf.1⟩ rfl
    cases r with
    | error err =>
      cases hroll
      exact ⟨w₁, rfl, hg, htotal⟩
    | ok _ =>
      have hready' : Ready c (within Immediate (· = w₁.ghost.total)) l₁ w₁ :=
        (hready rfl).congr_mode Iff.rfl
      have hsafe' := hready'.appendRoll (Q := fun _ _ => True)
        (within_undoes not_immediate_setLen _) (fun hs => hs.elim) rfl (fun _ _ _ _ => trivial)
        fun _ _ _ _ _ _ => trivial
      obtain ⟨w', hd, hg', hsame⟩ := hg.stays hroll hsafe'
      rw [← hsame] at htotal
      exact ⟨w', hd, hg', htotal⟩

end Stopped

def unbatch (batches : List (String × List OtkEvent)) : List (String × OtkEvent) :=
  batches.flatMap fun b => b.2.map (b.1, ·)

@[simp] theorem unbatch_append (xs ys : List (String × List OtkEvent)) :
    unbatch (xs ++ ys) = unbatch xs ++ unbatch ys := List.flatMap_append

@[simp] theorem unbatch_singleton (b : String × List OtkEvent) :
    unbatch [b] = b.2.map (b.1, ·) := by
  simp [unbatch]

/-- Lives of a log directory with the batches that were handed to `append`:
the log is open, or the process has stopped. Operations may fail during an
append, writes and truncations excepted, and no stop falls inside a batch. -/
inductive Outlives (c : Codec) : List (String × List OtkEvent) → Option Log → Disk FileName → Prop
  | empty : Outlives c [] none .empty
  | opened {bs : List (String × List OtkEvent)} {d d' : Disk FileName} {config : SegmentLogConfig}
      {l : Log} : Outlives c bs none d →
      Finishes (Step NoFail) d (openDir c config) d' (.ok l) → Outlives c bs (some l) d'
  | openStopped {bs : List (String × List OtkEvent)} {d d' : Disk FileName}
      {config : SegmentLogConfig} {tr : List (Event (Resp (N := FileName)))}
      {rest : Prog (Resp (N := FileName)) (Except StorageError Log)} : Outlives c bs none d →
      Exec (Step NoFail) d (openDir c config) tr d' rest → Outlives c bs none d'
  | appended {bs : List (String × List OtkEvent)} {l l' : Log} {d d' : Disk FileName}
      {producerId : String} {events : List OtkEvent} {r : Except StorageError ℕ} :
      Outlives c bs (some l) d → Decodes c events →
      Finishes (Step Undoable) d (append c producerId events l) d' (r, l') →
      Outlives c (bs ++ [(producerId, events)]) (some l') d'
  | appendStopped {bs : List (String × List OtkEvent)} {l : Log} {d d' : Disk FileName}
      {producerId : String} {events : List OtkEvent} {tr : Trace FileName}
      {rest : Prog (Resp (N := FileName)) (Except StorageError ℕ × Log)} :
      Outlives c bs (some l) d → Decodes c events →
      Exec (Step Immediate) d (append c producerId events l) tr d' rest →
      BetweenBatches c l producerId events tr → Outlives c (bs ++ [(producerId, events)]) none d'
  | read {bs : List (String × List OtkEvent)} {l l' : Log} {d d' : Disk FileName} {start : ℕ}
      {stop : Option ℕ} {r : Except StorageError (List LogEntry)} : Outlives c bs (some l) d →
      Finishes (Step NoFail) d (readRange c start stop l) d' (r, l') → Outlives c bs (some l') d'
  | left {bs : List (String × List OtkEvent)} {l : Log} {d : Disk FileName} :
      Outlives c bs (some l) d → Outlives c bs none d

/-- The directory holds these batches, and an open log has committed the first
ones of them. -/
structure Batched (c : Codec) (stored pending : List (String × List OtkEvent)) (log : Option Log)
    (d : Disk FileName) (w : World) : Prop where
  disk : w.disk = d
  good : Good c w
  total : payloads w.ghost.total = unbatch (stored ++ pending)
  booked : ∀ l, log = some l → Booked c ⟨unbatch stored, unbatch pending⟩ l d w

theorem Booked.batched {stored pending : List (String × List OtkEvent)}
    (h : Booked c ⟨unbatch stored, unbatch pending⟩ l d w) :
    Batched c stored pending (some l) d w := by
  refine ⟨h.disk, h.rep.good, h.total.trans (unbatch_append _ _).symm, fun l' hl' => ?_⟩
  obtain rfl := Option.some.inj hl'
  exact h

theorem Booked.appended {bs stored pending : List (String × List OtkEvent)}
    (h : Booked c ⟨unbatch stored, unbatch pending⟩ l d w) (hsub : (stored ++ pending).Sublist bs)
    {producerId : String} {events : List OtkEvent} (hcod : Decodes c events)
    {r : Except StorageError ℕ}
    (hx : Finishes (Step Undoable) d (SegmentLog.append c producerId events l) d' (r, l')) :
    ∃ w' stored' pending', (stored' ++ pending').Sublist (bs ++ [(producerId, events)]) ∧
      Booked c ⟨unbatch stored', unbatch pending'⟩ l' d' w' := by
  obtain ⟨w', hb, -⟩ := h.append hcod hx
  have hmore : stored.Sublist bs := (List.sublist_append_left _ _).trans hsub
  have hnew := unbatch_singleton (producerId, events)
  by_cases hlost : l.poisoned = false ∧ l'.poisoned = true
  · refine ⟨w', stored, [(producerId, events)], hmore.append_right _, ?_⟩
    rw [Ledger.after, if_pos hlost] at hb
    rwa [hnew]
  by_cases hnext : l'.nextOffset = l.nextOffset
  · refine ⟨w', stored, pending, hsub.trans (List.sublist_append_left _ _), ?_⟩
    rwa [Ledger.after, if_neg hlost, if_pos hnext] at hb
  · have hp : l.poisoned = false := by
      cases hp : l.poisoned with
      | false => rfl
      | true =>
        obtain ⟨-, rfl, -⟩ := append_poisoned hp hx
        exact absurd rfl hnext
    have hnone : unbatch pending = [] := h.clean hp
    refine ⟨w', stored ++ [(producerId, events)], [], ?_, ?_⟩
    · rw [List.append_nil]
      exact hmore.append_right _
    · rw [Ledger.after, if_neg hlost, if_neg hnext] at hb
      rw [hnone] at hb
      rwa [unbatch_append, hnew]

theorem Outlives.batched {bs : List (String × List OtkEvent)} {log : Option Log}
    (h : Outlives c bs log d) :
    ∃ w stored pending, (stored ++ pending).Sublist bs ∧ Batched c stored pending log d w := by
  induction h with
  | empty => exact ⟨.empty, [], [], List.Sublist.refl _, rfl, good_empty, rfl, by simp⟩
  | @opened bs d d' config l _ hx ih =>
    obtain ⟨w, stored, pending, hsub, hb⟩ := ih
    rw [← hb.disk] at hx
    rcases (hb.good.reopen config).2 _ _ hx with
      ⟨-, l', w', hl, hd, hrep, hp, htotal, -⟩ | ⟨-, msg, hr⟩
    · obtain rfl := Except.ok.inj hl
      refine ⟨w', stored ++ pending, [], by rwa [List.append_nil], Booked.batched ?_⟩
      have hpay : payloads w'.ghost.total = unbatch (stored ++ pending) := by
        rw [htotal, hb.total]
      refine ⟨hd, hrep.congr_mode Iff.rfl, ?_, ?_, fun _ => rfl⟩
      · rw [hpay]
        exact (List.append_nil _).symm
      · rw [hrep.clean hp, ← hpay, length_payloads]
    · simp at hr
  | @openStopped bs d d' config tr rest _ hx ih =>
    obtain ⟨w, stored, pending, hsub, hb⟩ := ih
    rw [← hb.disk] at hx
    have hcalm : (within NoFail (· = w.ghost.total)).Calm := ⟨fun _ hf => hf, id⟩
    obtain ⟨w', hd, hg, htotal⟩ := hb.good.stays hx (Q := fun _ _ => True)
      (hb.good.openDir hcalm rfl config (fun _ _ _ _ _ _ _ _ _ => trivial) fun _ _ => trivial)
    exact ⟨w', stored, pending, hsub, hd, hg, htotal ▸ hb.total, by simp⟩
  | appended _ hcod hx ih =>
    obtain ⟨w, stored, pending, hsub, hb⟩ := ih
    obtain ⟨w', stored', pending', hsub', hb'⟩ := (hb.booked _ rfl).appended hsub hcod hx
    exact ⟨w', stored', pending', hsub', hb'.batched⟩
  | @appendStopped bs l d d' producerId events tr rest _ hcod hx hclear ih =>
    obtain ⟨w, stored, pending, hsub, hb⟩ := ih
    rw [← hb.disk] at hx
    obtain ⟨w', hd, hg, hcase⟩ := (hb.booked _ rfl).rep.stopped hcod hx hclear
    rcases hcase with hsame | ⟨ts, hmore⟩
    · exact ⟨w', stored, pending, hsub.trans (List.sublist_append_left _ _), hd, hg,
        hsame ▸ hb.total, by simp⟩
    · refine ⟨w', stored ++ pending, [(producerId, events)], hsub.append_right _, hd, hg, ?_,
        by simp⟩
      rw [hmore, payloads_append, hb.total, payloads_batchOf, unbatch_append _ [_],
        unbatch_singleton]
  | @read bs l l' d d' start stop r _ hx ih =>
    obtain ⟨w, stored, pending, hsub, hb⟩ := ih
    have hbook := hb.booked _ rfl
    rw [← hb.disk] at hx
    obtain ⟨-, hd, hrep, hkept⟩ := hbook.repCalm.ranged hx
    refine ⟨w, stored, pending, hsub, Booked.batched ⟨hd.symm, hrep.congr_mode Iff.rfl,
      hbook.total, hbook.next.trans hkept.next.symm, fun hc => hbook.clean ?_⟩⟩
    rw [← hkept.poisoned, hc]
  | left _ ih =>
    obtain ⟨w, stored, pending, hsub, hb⟩ := ih
    exact ⟨w, stored, pending, hsub, hb.disk, hb.good, hb.total, by simp⟩

/-- The log reads as whole batches, in the order in which they were handed in. -/
theorem Outlives.reads_whole {bs : List (String × List OtkEvent)} (h : Outlives c bs (some l) d) :
    ∃ stored : List (String × List OtkEvent), stored.Sublist bs ∧
      ∃ entries : List LogEntry, payloads entries = unbatch stored ∧ Numbered 0 entries ∧
        entries.length = l.nextOffset ∧ Answers c l d entries l.earliestOffset := by
  obtain ⟨w, stored, pending, hsub, hb⟩ := h.batched
  have hbook := hb.booked l rfl
  have hrep := hbook.repCalm
  refine ⟨stored, (List.sublist_append_left _ _).trans hsub, committed l w, ?_,
    hrep.good.numbered_total.take _, ?_, ?_⟩
  · rw [payloads, committed, List.map_take, ← payloads, hbook.total, ← hbook.next, List.take_left]
  · rw [committed, List.length_take, Nat.min_eq_left hbook.rep.next]
  · rw [← hb.disk]
    exact hrep.answers

namespace Queued

variable {l l' : Deferred Log}

/-- The same lives on handles that queue their writes. -/
inductive Outlives (c : Codec) :
    List (String × List OtkEvent) → Option (Deferred Log) → Disk FileName → Prop
  | empty : Outlives c [] none .empty
  | opened {bs : List (String × List OtkEvent)} {d d' : Disk FileName} {config : SegmentLogConfig}
      {l : Deferred Log} : Outlives c bs none d →
      Finishes (Step NoFail) d (openDir c config) d' (.ok l) → Outlives c bs (some l) d'
  | openStopped {bs : List (String × List OtkEvent)} {d d' : Disk FileName}
      {config : SegmentLogConfig} {tr : Trace FileName}
      {rest : Prog (Resp (N := FileName)) (Except StorageError (Deferred Log))} :
      Outlives c bs none d →
      Exec (Step NoFail) d (openDir c config) tr d' rest → Outlives c bs none d'
  | appended {bs : List (String × List OtkEvent)} {l l' : Deferred Log} {d d' : Disk FileName}
      {producerId : String} {events : List OtkEvent} {r : Except StorageError ℕ} :
      Outlives c bs (some l) d → Decodes c events → Appends c producerId events l d d' (r, l') →
      Outlives c (bs ++ [(producerId, events)]) (some l') d'
  | appendStopped {bs : List (String × List OtkEvent)} {l : Deferred Log} {d d' : Disk FileName}
      {producerId : String} {events : List OtkEvent} {tr : Trace FileName}
      {rest : Prog (Resp (N := FileName)) (Except StorageError ℕ × Deferred Log)} :
      Outlives c bs (some l) d → l.failed = none → Decodes c events →
      Exec (Step Immediate) d (append c producerId events l) tr d' rest →
      BetweenBatches c l.state producerId events tr →
      Outlives c (bs ++ [(producerId, events)]) none d'
  | read {bs : List (String × List OtkEvent)} {l l' : Deferred Log} {d d' : Disk FileName}
      {start : ℕ} {stop : Option ℕ} {r : Except StorageError (List LogEntry)} :
      Outlives c bs (some l) d →
      Finishes (Step NoFail) d (readRange c start stop l) d' (r, l') → Outlives c bs (some l') d'
  | left {bs : List (String × List OtkEvent)} {l : Deferred Log} {d : Disk FileName} :
      Outlives c bs (some l) d → Outlives c bs none d

/-- Such a life is one on plain handles. -/
theorem Outlives.plain {bs : List (String × List OtkEvent)} {log : Option (Deferred Log)}
    (h : Outlives c bs log d) : SegmentLog.Outlives c bs (log.map Deferred.state) d := by
  induction h with
  | empty => exact .empty
  | opened _ hx ih =>
    obtain ⟨r, hr, hx'⟩ := plain_openDir noFail_isWrite hx
    cases r with
    | error err => cases hr
    | ok s' =>
      obtain rfl := Except.ok.inj hr
      exact .opened ih hx'
  | openStopped _ hx ih =>
    obtain ⟨tr', rest', hx', -⟩ := (mirrors_openDir c _).exec noFail_isWrite hx
    exact .openStopped ih hx'
  | appended _ hcod hx ih =>
    obtain ⟨r', -, hx'⟩ := hx.plain
    exact .appended ih hcod hx'
  | @appendStopped bs l d d' producerId events tr rest _ hclean hcod hx hclear ih =>
    obtain ⟨s, _⟩ := l
    obtain rfl : _ = none := hclean
    obtain ⟨tr', rest', hx', -, hsame⟩ := (mirrors_append c _ _ s).exec immediate_isWrite hx
    refine .appendStopped ih hcod hx' ?_
    rwa [BetweenBatches, ← reached_congr hsame, ← truncates_congr hsame]
  | read _ hx ih => exact .read ih (plain_readRange hx)
  | left _ ih => exact .left ih

/-- The log reads as whole batches, in the order in which they were handed in. -/
theorem batches_whole {bs : List (String × List OtkEvent)} (h : Outlives c bs (some l) d) :
    ∃ stored : List (String × List OtkEvent), stored.Sublist bs ∧
      ∃ entries : List LogEntry, payloads entries = unbatch stored ∧ Numbered 0 entries ∧
        entries.length = l.state.nextOffset ∧ Answers c l d entries l.state.earliestOffset := by
  obtain ⟨stored, hsub, entries, hpay, hnum, hlen, hanswers⟩ := h.plain.reads_whole
  exact ⟨stored, hsub, entries, hpay, hnum, hlen, answers_of_plain hanswers⟩

def appendTwo (l : Deferred Log) :
    Prog (Resp (N := FileName)) (Except StorageError ℕ × Deferred Log) :=
  append sampleCodec "p" [sampleHealth, sampleHealth] l

/-- The first batch fails at its first record, the second one is stored, and the
process stops behind the records of the third one. -/
theorem batches_whole_sample :
    ∃ l d, Outlives sampleCodec (List.replicate 3 ("p", [sampleHealth, sampleHealth])) (some l) d ∧
      ∃ stored entries, stored.Sublist (List.replicate 3 ("p", [sampleHealth, sampleHealth])) ∧
        payloads entries = unbatch stored ∧ entries.length = 4 ∧
        Answers sampleCodec l d entries l.state.earliestOffset := by
  have hrun : ((simulateMay leading 0 40 (appendCommit sampleCodec "p" [sampleHealth, sampleHealth]
      sampleLog) [true] .empty).bind fun x =>
        (simulateMay syncs 0 40 (appendTwo x.2.2) [] x.1).bind fun y =>
          (simulateSteps syncs 0 6 (appendTwo y.2.2) [] y.1).bind fun z =>
            (simulate 0 (openDir sampleCodec {}) [] z.1).map fun u =>
              (x.2.1.toOption, y.2.2.failed, decide (batchPos y.2.2.state + eventsLen sampleCodec
                "p" [sampleHealth, sampleHealth] ≤ reached z.2.1),
                u.2.toOption.map fun l => l.state.nextOffset)) =
      some (none, none, true, some 4) := by
    unfold openDir openLog
    simp only [List.mergeSort_eq_insertionSort]
    decide +kernel
  obtain ⟨⟨d₁, r₁, l₁⟩, hfirst, hrun⟩ := Option.bind_eq_some_iff.mp hrun
  obtain ⟨⟨d₂, r₂, l₂⟩, hsecond, hrun⟩ := Option.bind_eq_some_iff.mp hrun
  obtain ⟨⟨d₃, tr, rest⟩, hthird, hrun⟩ := Option.bind_eq_some_iff.mp hrun
  obtain ⟨⟨d₄, r₄⟩, hopen, heq⟩ := Option.map_eq_some_iff.mp hrun
  simp only [Prod.mk.injEq] at heq
  obtain ⟨hfail, hclean, hreached, hfour⟩ := heq
  obtain ⟨l, hl, hnext⟩ := Option.map_eq_some_iff.mp hfour
  have hok : r₄ = .ok l := by
    cases r₄ with
    | error err => cases hl
    | ok l' => exact congrArg _ (Option.some.inj hl)
  cases r₁ with
  | ok _ => cases hfail
  | error err =>
    have hlife₁ : Outlives sampleCodec [_] (some l₁) d₁ :=
      .appended (.opened .empty finishes_openDir_sample) decodes_two
        (.failed ((finishes_of_simulateMay hfirst).imp fun _ _ _ _ hs =>
          hs.imp (collected_of_leading rfl)))
    have hlife₂ : Outlives sampleCodec [_, _] (some l₂) d₂ :=
      .appended hlife₁ decodes_two (appends_of_finishes
        ((finishes_of_simulateMay hsecond).imp fun _ _ _ _ hs => hs.imp immediate_of_syncs))
    have hlife₃ : Outlives sampleCodec [_, _, _] none d₃ :=
      .appendStopped hlife₂ hclean decodes_two
        ((exec_of_simulateSteps hthird).imp fun _ _ _ _ hs => hs.imp immediate_of_syncs)
        (Or.inr (Or.inr (of_decide_eq_true hreached)))
    have hlife : Outlives sampleCodec (List.replicate 3 _) (some l) d₄ :=
      .opened hlife₃ (finishes_of_simulate (by simp) (hok ▸ hopen))
    obtain ⟨stored, hsub, entries, hpay, -, hlen, hanswers⟩ := batches_whole hlife
    exact ⟨l, d₄, hlife, stored, entries, hsub, hpay, hlen.trans hnext, hanswers⟩

def wakes : Event (Resp (N := FileName)) → Bool
  | ⟨.notify, _⟩ => true
  | _ => false

/-- The process stops between the two records of a batch: opened again, the log
holds one event of the two. -/
theorem batch_torn :
    ∃ d tr rest d₁ l₁ d₂ l₂,
      Finishes (Step NoFail) .empty (openDir sampleCodec {}) .empty (.ok sampleLog) ∧
      Exec (Step NoFail) .empty (appendTwo sampleLog) tr d rest ∧
      (∀ e ∈ tr, wakes e = false) ∧
      Finishes (Step NoFail) d (openDir sampleCodec {}) d₁ (.ok l₁) ∧
      Finishes (Step NoFail) d₁ (readRange sampleCodec 0 none l₁) d₂
        (.ok [⟨0, 0, "p", sampleHealth⟩], l₂) := by
  have hrun : ((simulateSteps (fun _ => false) 0 8 (appendTwo sampleLog) [] .empty).bind fun x =>
      (simulate 0 (openDir sampleCodec {}) [] x.1).bind fun y => y.2.toOption.bind fun l =>
        (simulate 0 (readRange sampleCodec 0 none l) [] y.1).map fun z =>
          (x.2.1.all fun e => !wakes e, z.2.1)) =
      some (true, .ok [⟨0, 0, "p", sampleHealth⟩]) := by
    unfold openDir openLog
    simp only [List.mergeSort_eq_insertionSort]
    decide +kernel
  obtain ⟨⟨d, tr, rest⟩, hstop, hrun⟩ := Option.bind_eq_some_iff.mp hrun
  obtain ⟨⟨d₁, r₁⟩, hopen, hrun⟩ := Option.bind_eq_some_iff.mp hrun
  obtain ⟨l₁, hl₁, hrun⟩ := Option.bind_eq_some_iff.mp hrun
  obtain ⟨⟨d₂, r₂, l₂⟩, hread, heq⟩ := Option.map_eq_some_iff.mp hrun
  obtain ⟨hbefore, rfl⟩ := Prod.mk.inj heq
  have hok : r₁ = .ok l₁ := by
    cases r₁ with
    | error err => cases hl₁
    | ok l' => exact congrArg _ (Option.some.inj hl₁)
  refine ⟨d, tr, rest, d₁, l₁, d₂, l₂, finishes_openDir_sample, ?_, fun e he => ?_,
    finishes_of_simulate (by simp) (hok ▸ hopen), finishes_of_simulate (by simp) hread⟩
  · exact (exec_of_simulateSteps hstop).imp fun _ _ _ _ hs => hs.imp fun _ hf => nomatch hf
  · simpa using List.all_eq_true.mp hbefore e he

end Queued

end OtkCore.SegmentLog
