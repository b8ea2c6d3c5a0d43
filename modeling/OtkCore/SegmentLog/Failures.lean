import OtkCore.SegmentLog.Faithful

/-!
# Failing operations

Any operation inside an append may fail, except the `set_len` that takes a
batch back. Whatever fails, the memory of the log keeps to what is on disk, so
appends, reads and a restart go on as if the failed call had not happened, or,
if it had already committed, as if it had succeeded.
-/
namespace OtkCore.SegmentLog

open Effect FileIO Bytes

def Undoable (o : Op FileName) : Prop := ∀ i n, o ≠ .setLen i n

/-- Nor a write, whose failure the handles of the log do not report. -/
def Immediate (o : Op FileName) : Prop := Undoable o ∧ o.isWrite = false

/-- Anything but a truncation may fail, and nobody follows the files. -/
def faulty : Mode := ⟨Undoable, False, fun _ => True⟩

theorem faulty_undoes : faulty.Undoes :=
  ⟨fun i n h => h i n rfl, fun hs => hs.elim, fun hs => hs.elim⟩

/-- The events a log has committed, and those it stored but lost track of. -/
structure Ledger where
  committed : List (String × OtkEvent)
  pending : List (String × OtkEvent)

/-- The ledger after a call that took the log from `l` to `l'`: the batch is
committed when the next offset has moved, and pending when the log has become
poisoned. -/
def Ledger.after (g : Ledger) (l l' : Log) (batch : List (String × OtkEvent)) : Ledger :=
  if l.poisoned = false ∧ l'.poisoned = true then { g with pending := batch }
  else if l'.nextOffset = l.nextOffset then g
  else { g with committed := g.committed ++ batch }

/-- Lives of a log whose operations may fail during appends. -/
inductive Endures (c : Codec) : Ledger → Log → Disk FileName → Prop
  | fresh {config : SegmentLogConfig} {l : Log} {d : Disk FileName} :
      Finishes (Step NoFail) .empty (openDir c config) d (.ok l) → Endures c ⟨[], []⟩ l d
  | append {g : Ledger} {l l' : Log} {d d' : Disk FileName} {producerId : String}
      {events : List OtkEvent} {r : Except StorageError ℕ} :
      Endures c g l d → Decodes c events →
      Finishes (Step Undoable) d (append c producerId events l) d' (r, l') →
      Endures c (g.after l l' (events.map (producerId, ·))) l' d'
  | read {g : Ledger} {l l' : Log} {d d' : Disk FileName} {start : ℕ} {stop : Option ℕ}
      {r : Except StorageError (List LogEntry)} :
      Endures c g l d → Finishes (Step NoFail) d (readRange c start stop l) d' (r, l') →
      Endures c g l' d'
  | reopen {g : Ledger} {l l' : Log} {d d' : Disk FileName} {config : SegmentLogConfig} :
      Endures c g l d → Finishes (Step NoFail) d (openDir c config) d' (.ok l') →
      Endures c ⟨g.committed ++ g.pending, []⟩ l' d'

variable {c : Codec} {g : Ledger} {l l' : Log} {w : World} {d d' : Disk FileName}

def payloads (entries : List LogEntry) : List (String × OtkEvent) :=
  entries.map fun e => (e.producerId, e.event)

@[simp] theorem payloads_append (xs ys : List LogEntry) :
    payloads (xs ++ ys) = payloads xs ++ payloads ys := List.map_append

@[simp] theorem length_payloads (xs : List LogEntry) : (payloads xs).length = xs.length :=
  List.length_map _

theorem payloads_batchOf (n ts : ℕ) (producerId : String) (events : List OtkEvent) :
    payloads (batchOf n ts producerId events) = events.map (producerId, ·) := by
  have hmap := map_entriesFrom n [⟨producerId, ts, events⟩]
  rw [EventHistory.entriesFrom, EventHistory.entriesFrom, List.append_nil] at hmap
  simpa [payloads, batchOf] using hmap

/-- The log agrees with the directory, and the ledger with both. -/
structure Booked (c : Codec) (g : Ledger) (l : Log) (d : Disk FileName) (w : World) : Prop where
  disk : w.disk = d
  rep : Rep c faulty l w
  total : payloads w.ghost.total = g.committed ++ g.pending
  next : g.committed.length = l.nextOffset
  clean : l.poisoned = false → g.pending = []

theorem Booked.repCalm (h : Booked c g l d w) : Rep c calm l w := h.rep.congr_mode Iff.rfl

theorem append_eq_of_poisoned (hp : l.poisoned = true) (producerId : String)
    (events : List OtkEvent) :
    ∃ err, SegmentLog.append c producerId events l = .pure (.error err, l) := by
  unfold SegmentLog.append appendCommit
  simp only [Proc.bind_apply, Proc.get_apply, Prog.pure_bind, hp]
  exact ⟨_, rfl⟩

theorem append_poisoned (hp : l.poisoned = true) {producerId : String} {events : List OtkEvent}
    {r : Except StorageError ℕ}
    (hx : Finishes (Step Undoable) d (SegmentLog.append c producerId events l) d' (r, l')) :
    (∃ err, r = .error err) ∧ l' = l ∧ d' = d := by
  obtain ⟨err, hprog⟩ := append_eq_of_poisoned (c := c) hp producerId events
  rw [hprog] at hx
  obtain ⟨tr, hx⟩ := hx
  cases hx
  exact ⟨⟨err, rfl⟩, rfl, rfl⟩

/-- The ledger of a call that left offsets and health as they were. -/
theorem Ledger.after_same (g : Ledger) {l l' : Log} (hp : l'.poisoned = l.poisoned)
    (hn : l'.nextOffset = l.nextOffset) (batch : List (String × OtkEvent)) :
    g.after l l' batch = g := by
  rw [Ledger.after, hp, if_neg (by simp), if_pos hn]

theorem Booked.append (h : Booked c g l d w) {producerId : String} {events : List OtkEvent}
    (hcod : Decodes c events) {r : Except StorageError ℕ}
    (hx : Finishes (Step Undoable) d (SegmentLog.append c producerId events l) d' (r, l')) :
    ∃ w', Booked c (g.after l l' (events.map (producerId, ·))) l' d' w' ∧
      ∀ n, r = .ok n → n = l.nextOffset + events.length - 1 ∧
        l'.nextOffset = l.nextOffset + events.length := by
  cases hpoison : l.poisoned with
  | true =>
    obtain ⟨⟨err, rfl⟩, rfl, rfl⟩ := append_poisoned hpoison hx
    refine ⟨w, ?_, by simp⟩
    rwa [g.after_same rfl rfl]
  | false =>
    have hpending := h.clean hpoison
    have htotal := h.total
    rw [hpending, List.append_nil] at htotal
    have hsafe : Safe (setting c faulty) (SegmentLog.append c producerId events l)
        (fun x w' => Booked c (g.after l x.2 (events.map (producerId, ·))) x.2 w'.disk w' ∧
          ∀ n, x.1 = .ok n → n = l.nextOffset + events.length - 1 ∧
            x.2.nextOffset = l.nextOffset + events.length) w := by
      refine h.rep.append faulty_undoes (fun hs => hs.elim) producerId events hcod
        (fun _ _ _ _ => trivial) (fun ts l₁ w₁ l₂ w₂ hcom hroll hrep r hb hr => ?_)
        fun err l₁ w₁ hwhy hrep htried => ?_
      · have hnext : l₂.nextOffset = l.nextOffset + events.length := hroll.next.trans hcom.next
        have hclean : l₂.poisoned = false := hroll.poisoned.trans hcom.poisoned
        have hafter : g.after l l₂ (events.map (producerId, ·)) =
            ⟨g.committed ++ events.map (producerId, ·), []⟩ := by
          rw [Ledger.after, if_neg (by simp [hclean]), hnext]
          by_cases hnil : events = []
          · simp only [hnil, List.length_nil, Nat.add_zero, if_true, List.map_nil, List.append_nil]
            rw [← hpending]
          · have hpos := List.length_pos_of_ne_nil hnil
            rw [if_neg (by omega), hpending]
        rw [hafter]
        refine ⟨⟨rfl, hrep, ?_, ?_, fun _ => rfl⟩, fun n hn => ⟨hr n hn, hnext⟩⟩
        · rw [hroll.total, hcom.total, payloads_append, htotal, payloads_batchOf, List.append_nil]
        · rw [List.length_append, List.length_map, h.next, hnext]
      · refine ⟨?_, fun n hn => by simp at hn⟩
        rcases htried with hkept | ⟨-, ts, hlost⟩
        · rw [g.after_same hkept.poisoned hkept.next]
          exact ⟨rfl, hrep, hkept.total ▸ h.total, h.next.trans hkept.next.symm,
            fun _ => hpending⟩
        · rw [Ledger.after, if_pos ⟨hpoison, hlost.poisoned⟩]
          refine ⟨rfl, hrep, ?_, h.next.trans hlost.next.symm, fun hc => ?_⟩
          · rw [hlost.total, payloads_append, htotal, payloads_batchOf]
          · rw [hlost.poisoned] at hc
            simp at hc
    obtain ⟨w', rfl, hbooked, hr⟩ := hsafe.finishes (fun _ => rfl) hx h.disk
    exact ⟨w', hbooked, hr⟩

theorem Booked.reopen (h : Booked c g l d w) {config : SegmentLogConfig}
    (hx : Finishes (Step NoFail) d (openDir c config) d' (.ok l')) :
    ∃ w', Booked c ⟨g.committed ++ g.pending, []⟩ l' d' w' := by
  rw [← h.disk] at hx
  rcases (h.rep.good.reopen config).2 _ _ hx with
    ⟨-, l₁, w', hl, hd, hrep, hp, htotal, -⟩ | ⟨-, msg, hr⟩
  · obtain rfl := Except.ok.inj hl
    refine ⟨w', hd, hrep.congr_mode Iff.rfl, ?_, ?_, fun _ => rfl⟩
    · rw [htotal, h.total, List.append_nil]
    · rw [hrep.clean hp, htotal, ← h.total, length_payloads]
  · simp at hr

theorem Endures.booked (h : Endures c g l d) : ∃ w, Booked c g l d w := by
  induction h with
  | @fresh config l d hx =>
    obtain ⟨w, ht⟩ := tracks_fresh hx
    refine ⟨w, ht.disk, ht.rep.congr_mode Iff.rfl, ?_, ht.next.symm, fun _ => rfl⟩
    rw [ht.total]
    rfl
  | append _ hcod hx ih =>
    obtain ⟨w, hb⟩ := ih
    obtain ⟨w', hb', -⟩ := hb.append hcod hx
    exact ⟨w', hb'⟩
  | @read g l l' d d' start stop r _ hx ih =>
    obtain ⟨w, hb⟩ := ih
    rw [← hb.disk] at hx
    obtain ⟨-, hd, hrep, hkept⟩ := hb.repCalm.ranged hx
    exact ⟨w, hd.symm, hrep.congr_mode Iff.rfl, hb.total, hb.next.trans hkept.next.symm,
      fun hc => hb.clean (hkept.poisoned ▸ hc)⟩
  | reopen _ hx ih =>
    obtain ⟨w, hb⟩ := ih
    exact hb.reopen hx

/-- The active segment in memory, its file, and the committed entries. -/
structure ActiveAgrees (c : Codec) (d : Disk FileName) (entries : List LogEntry) (next : ℕ)
    (a : ActiveSegment) : Prop where
  file : a.path = .seg a.baseOffset ∧ d.find a.path = some a.file.ino
  count : a.baseOffset + a.positions.length = next
  records : ∀ i p, a.positions[i]? = some p → ∃ e, entries[a.baseOffset + i]? = some e ∧
    recordBytes c e <+: (d.data a.file.ino).drop p
  filePos : a.nextFilePos = headerLen + (recordsBytes c (entries.drop a.baseOffset)).length

/-- The committed entries of the newest segment are its first ones. -/
theorem Good.committed_drop (h : Good c w) {s : Segment} (ht : w.ghost.tail = some s) :
    (committed l w).drop s.base = s.entries.take (l.nextOffset - s.base) := by
  have hbase : s.base = (w.ghost.closed.flatMap Segment.entries).length := h.ok.tail_base ht
  rw [committed, Ghost.total_tail ht, List.drop_take, hbase, List.drop_left]

theorem Rep.activeAgrees {m : Mode} (h : Rep c m l w) {a : ActiveSegment} (ha : l.active = some a) :
    ActiveAgrees c w.disk (committed l w) l.nextOffset a := by
  obtain ⟨s, z, hat, hle, hmem⟩ := h.active a ha
  have hbase : a.baseOffset = s.base := hmem.base
  have hpath : a.path = .seg s.base := hmem.path
  have hino : a.file.ino = s.ino := hmem.ino
  have hdrop := h.good.committed_drop (l := l) hat.tail
  have hpositions : a.positions =
      positionsFrom c headerLen (s.entries.take (l.nextOffset - s.base)) := hmem.positions
  refine ⟨⟨hpath.trans (by rw [hbase]), ?_⟩, ?_, fun i p hp => ?_, ?_⟩
  · rw [hpath, hino]
    exact h.good.find_tail hat.tail
  · have hstop := hat.base
    have hnext := h.next
    rw [Segment.stop] at hstop
    rw [hpositions, length_positionsFrom, List.length_take, hbase]
    omega
  · rw [hpositions] at hp
    obtain ⟨e, he, rfl⟩ := getElem?_positionsFrom c hp
    refine ⟨e, ?_, ?_⟩
    · rw [hbase, ← List.getElem?_drop, hdrop, he]
    · obtain ⟨hlt, hentry⟩ := List.getElem?_eq_some_iff.mp he
      rw [List.length_take] at hlt
      have hget : s.entries[i]? = some e := by
        rw [List.getElem?_take_of_lt (by omega)] at he
        exact he
      have hsplit : s.entries = s.entries.take i ++ e :: s.entries.drop (i + 1) := by
        obtain ⟨hi, rfl⟩ := List.getElem?_eq_some_iff.mp hget
        rw [← List.drop_eq_getElem_cons hi, List.take_append_drop]
      rw [hino, hat.data, List.take_take, Nat.min_eq_left (by omega), drop_image_append c hsplit,
        recordsBytes_cons, List.append_assoc]
      exact List.prefix_append _ _
  · have hpos := hmem.filePos
    rw [hpos, Segment.length_image, hbase, hdrop]
    rfl

theorem map_baseOffset {segs : List ClosedSegment} {xs : List Segment}
    (h : List.Forall₂ (ClosedRep c) segs xs) :
    segs.map ClosedSegment.baseOffset = xs.map Segment.base := by
  induction h with
  | nil => rfl
  | cons hcs _ ih => rw [List.map_cons, List.map_cons, ih, hcs.base]

theorem Rep.mem_closed_iff {m : Mode} (h : Rep c m l w) (base : ℕ) :
    base ∈ l.closed.map ClosedSegment.baseOffset ↔
      (w.disk.find (.seg base)).isSome = true ∧ (w.disk.find (.idx base)).isSome = true := by
  rw [map_baseOffset h.closed, List.mem_map]
  constructor
  · rintro ⟨s, hs, rfl⟩
    refine ⟨?_, h.good.idx s hs⟩
    rw [h.good.find_live hs]
    rfl
  · rintro ⟨hseg, hidx⟩
    obtain ⟨i, hi⟩ := Option.isSome_iff_exists.mp hseg
    obtain ⟨s, hs, rfl, -⟩ := (h.good.seg base i).mp hi
    rcases List.mem_append.mp hs with hlive | htail
    · exact ⟨s, hlive, rfl⟩
    · rw [h.good.idx_tail (by simpa using htail)] at hidx
      simp at hidx

def Answers (c : Codec) (l : Log) (d : Disk FileName) (entries : List LogEntry)
    (earliest : Option ℕ) : Prop :=
  ∀ start stop, (∃ d' x, Finishes (Step NoFail) d (readRange c start stop l) d' x) ∧
    ∀ d' r l', Finishes (Step NoFail) d (readRange c start stop l) d' (r, l') →
      r = rangeOf entries earliest start stop

theorem Rep.answers (h : Rep c calm l w) :
    Answers c l w.disk (committed l w) l.earliestOffset := by
  intro start stop
  constructor
  · have hfree : Free NoFail (SegmentLog.readRange c start stop) := free_readRange _ _
    obtain ⟨d', x, hx, -⟩ := (hfree l).finishes w.disk
    exact ⟨d', x, hx⟩
  · intro d' r l' hx
    exact (h.ranged hx).1

/-- Whatever failed: memory and directory agree, the next append gets the next
offset, reads return the committed entries, and a log that is not poisoned
comes back with the same entries unless an index has become too large. -/
theorem failures_leave_usable (h : Endures c g l d) :
    ∃ entries : List LogEntry,
      payloads entries = g.committed ∧ Numbered 0 entries ∧ entries.length = l.nextOffset ∧
      (∀ a, l.active = some a → ActiveAgrees c d entries l.nextOffset a) ∧
      (∀ base, base ∈ l.closed.map ClosedSegment.baseOffset ↔
        (d.find (.seg base)).isSome = true ∧ (d.find (.idx base)).isSome = true) ∧
      Answers c l d entries l.earliestOffset ∧
      (∀ producerId events d' n l', Decodes c events →
        Finishes (Step Undoable) d (append c producerId events l) d' (.ok n, l') →
        n + 1 = l.nextOffset + events.length ∧ l'.nextOffset = n + 1) ∧
      (l.poisoned = false → ∀ config,
        (∃ d' r, Finishes (Step NoFail) d (openDir c config) d' r) ∧
        ∀ d' r, Finishes (Step NoFail) d (openDir c config) d' r →
          ((∃ l', r = .ok l') ↔ IndexesReadable d) ∧
          ∀ l', r = .ok l' → l'.nextOffset = l.nextOffset ∧ l'.earliestOffset = l.earliestOffset ∧
            Answers c l' d' entries l.earliestOffset) := by
  obtain ⟨w, hb⟩ := h.booked
  have hrep := hb.repCalm
  have hlen : (committed l w).length = l.nextOffset := by
    rw [committed, List.length_take, Nat.min_eq_left hb.rep.next]
  refine ⟨committed l w, ?_, hrep.good.numbered_total.take _, hlen, fun a ha => ?_, fun base => ?_,
    ?_, fun producerId events d' n l' hcod hx => ?_, fun hp config => ?_⟩
  · rw [payloads, committed, List.map_take, ← payloads, hb.total, ← hb.next, List.take_left]
  · rw [← hb.disk]
    exact hrep.activeAgrees ha
  · rw [← hb.disk]
    exact hrep.mem_closed_iff base
  · rw [← hb.disk]
    exact hrep.answers
  · obtain ⟨w', -, hok⟩ := hb.append hcod hx
    obtain ⟨hn, hnext⟩ := hok n rfl
    have hne : events ≠ [] := by
      intro hnil
      obtain ⟨err, herr⟩ := append_refused (Or.inl hnil) hx
      simp at herr
    have hpos := List.length_pos_of_ne_nil hne
    omega
  · have hopen := hrep.good.reopen config
    rw [hb.disk] at hopen
    refine ⟨hopen.1, fun d' r hx => ?_⟩
    rcases hopen.2 d' r hx with ⟨hread, l', w', rfl, rfl, hrep', hp', htotal, hevicted⟩ |
      ⟨hbig, msg, rfl⟩
    · refine ⟨by simp [hread], fun l₁ hl₁ => ?_⟩
      obtain rfl := Except.ok.inj hl₁
      have hnext : l'.nextOffset = l.nextOffset := by
        rw [hrep'.clean hp', htotal, hrep.clean hp]
      have hcommitted : committed l' w' = committed l w := by
        rw [committed, committed, hnext, htotal]
      have hearliest : l'.earliestOffset = l.earliestOffset := by
        have hsplit := hrep.committed_eq
        have hsplit' := hrep'.committed_eq
        rw [hcommitted, hsplit, hevicted] at hsplit'
        rw [hrep'.earliestOffset_eq, hrep.earliestOffset_eq, hevicted,
          List.append_cancel_left hsplit']
      refine ⟨hnext, hearliest, ?_⟩
      have hanswers := hrep'.answers
      rwa [hcommitted, hearliest] at hanswers
    · exact ⟨by simp [hbig], by simp⟩

end OtkCore.SegmentLog
