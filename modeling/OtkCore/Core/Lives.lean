import OtkCore.Core.RestartGate
import OtkCore.Core.SegmentIngest
import OtkCore.SegmentLog.Crash
import OtkCore.SegmentLog.Failures

/-!
# Lives of a node

The ingest service on its directory, from one start of the node to the next. A life
begins with opening the directory and seeding a gate from it, and the process may be
killed between any two operations on the file system; what it has written is still there
then. Here is what a start, a call and a part of either leave behind.
-/
namespace OtkCore

open Effect FileIO SegmentLog EventIngestService

/-- `seed_from_log` over the segment log; returns the number of entries scanned. -/
def SequenceGate.seedFromSegments (c : Codec) (g : SequenceGate) (log : Log) :
    Prog (Resp (N := FileName)) (Except StorageError (ℕ × SequenceGate) × Log) :=
  match log.earliestOffset with
  | none => .pure (.ok (0, g), log)
  | some earliest =>
    readRange c earliest none log >>= fun x =>
      .pure (x.1.map fun entries => (entries.length, g.seedFromLog entries), x.2)

/-- The part of starting a node that touches its directory. -/
def SegmentIngest.start (c : Codec) (logConfig : SegmentLogConfig) (config : ProcessorConfig) :
    Prog (Resp (N := FileName)) (Except StorageError SegmentIngest) :=
  openDir c logConfig >>= fun opened =>
    match opened with
    | .error e => .pure (.error e)
    | .ok log =>
      SequenceGate.new.seedFromSegments c log >>= fun x =>
        .pure (x.1.map fun seeded => .new x.2 config seeded.2)

/-- An event that was stored for a producer, with its offset. -/
abbrev Ack := ℕ × String × OtkEvent

def told (producerId : String) (batch : List OtkEvent) :
    Except StorageError AppendOutcome → List Ack
  | .ok (.appended offset) => acknowledged producerId batch (.ok offset)
  | _ => []

/-- The batch of a call: its event and the crossings derived from it. -/
abbrev SegmentIngest.batch (s : SegmentIngest) (event : OtkEvent) (crossingId : CrossingId) :
    List OtkEvent :=
  event :: deriveCrossings s.processor crossingId event

/-- Lives of a node on one directory: it serves one call after the other, or it is down.
Some operations may fail in a call, none does while the node starts. -/
inductive Lives (c : Codec) (fails : Op FileName → Prop) :
    List Ack → Option SegmentIngest → Disk FileName → Prop
  | empty : Lives c fails [] none .empty
  | starts {acks : List Ack} {d d' : Disk FileName} {logConfig : SegmentLogConfig}
      {config : ProcessorConfig} {s : SegmentIngest} :
      Lives c fails acks none d →
      Finishes (Step NoFail) d (SegmentIngest.start c logConfig config) d' (.ok s) →
      Lives c fails acks (some s) d'
  /-- The process is killed while the node starts, or the start fails. -/
  | startStopped {acks : List Ack} {d d' : Disk FileName} {logConfig : SegmentLogConfig}
      {config : ProcessorConfig} {tr : List (Event (Resp (N := FileName)))}
      {rest : Prog (Resp (N := FileName)) (Except StorageError SegmentIngest)} :
      Lives c fails acks none d →
      Exec (Step NoFail) d (SegmentIngest.start c logConfig config) tr d' rest →
      Lives c fails acks none d'
  | answers {acks : List Ack} {s s' : SegmentIngest} {d d' : Disk FileName}
      {producerId : String} {event : OtkEvent} {crossingId discardedId : CrossingId}
      {r : Except StorageError AppendOutcome} :
      Lives c fails acks (some s) d → Decodes c (s.batch event crossingId) →
      Finishes (Step fails) d (s.appendEvent c producerId event crossingId discardedId) d'
        (r, s') →
      Lives c fails (acks ++ told producerId (s.batch event crossingId) r) (some s') d'
  /-- The process is killed in the middle of a call. -/
  | callStopped {acks : List Ack} {s : SegmentIngest} {d d' : Disk FileName}
      {producerId : String} {event : OtkEvent} {crossingId discardedId : CrossingId}
      {tr : List (Event (Resp (N := FileName)))}
      {rest : Prog (Resp (N := FileName)) (Except StorageError AppendOutcome × SegmentIngest)} :
      Lives c fails acks (some s) d → Decodes c (s.batch event crossingId) →
      Exec (Step fails) d (s.appendEvent c producerId event crossingId discardedId) tr d' rest →
      Lives c fails acks none d'
  | stops {acks : List Ack} {s : SegmentIngest} {d : Disk FileName} :
      Lives c fails acks (some s) d → Lives c fails acks none d

section Stopped

variable {c : Codec} {m : Mode} {w w' : World} {d' : Disk FileName}

theorem evictedCount_le_of_move (hg : Good c w) {o : Op FileName} (h : Move c o w w') :
    evictedCount w ≤ evictedCount w' := by
  cases h with
  | stay => exact le_refl _
  | scratchOpen hx hfind => exact le_refl _
  | scratch o hx hfind hlen => exact le_refl _
  | close ht hne hdata hfind hidx =>
    simp only [evictedCount, evictedEntries, List.take_append_of_le_length hg.ok.dropped, le_refl]
  | mark ht hfind hdata => exact le_refl _
  | drop ht hs hmark =>
    rw [evictedCount, evictedEntries, evictedCount, evictedEntries, List.take_add_one,
      List.flatMap_append, List.length_append]
    exact Nat.le_add_right _ _
  | dropIndex hs => exact le_refl _
  | create ht hts => exact le_refl _
  | write o ht => exact le_refl _

/-- Wherever a safe program is stopped, the directory is good and holds what is allowed. -/
theorem SegmentLog.Good.leaves {α : Type} {p rest : Prog (Resp (N := FileName)) α}
    {tr : List (Event (Resp (N := FileName)))} (hg : Good c w) (hallowed : m.allowed w.ghost.total)
    (hx : Exec (Step m.fails) w.disk p tr d' rest) {Q : α → World → Prop}
    (hs : Safe (setting c m) p Q w) :
    ∃ w', w'.disk = d' ∧ Good c w' ∧ m.allowed w'.ghost.total ∧
      evictedCount w ≤ evictedCount w' ∧ Safe (setting c m) rest Q w' := by
  have hkeep : ∀ w₁ o r w₂,
      (Good c w₁ ∧ m.allowed w₁.ghost.total ∧ evictedCount w ≤ evictedCount w₁) →
      (setting c m).guar w₁ o r w₂ →
      Good c w₂ ∧ m.allowed w₂.ghost.total ∧ evictedCount w ≤ evictedCount w₂ := by
    rintro w₁ o r w₂ ⟨hgood, hold, hle⟩ ⟨hmove, hnext, -⟩
    exact ⟨hgood.move hmove, hnext hold, hle.trans (evictedCount_le_of_move hgood hmove)⟩
  obtain ⟨w', hd, ⟨hgood, hnow, hle⟩, hrest⟩ := hs.exec (fun _ => rfl) hx
    (fun w₁ o r w₂ _ => hkeep w₁ o r w₂) rfl ⟨hg, hallowed, le_refl _⟩
  exact ⟨w', hd, hgood, hnow, hle, hrest⟩

end Stopped

/-- The gate has seen every detection among the entries. -/
def SequenceGate.Marks (g : SequenceGate) (entries : List LogEntry) : Prop :=
  ∀ e ∈ entries, ∀ det, e.event = .detection det →
    g.Covers (e.producerId, det.detectorId) det.sequenceNumber

def leftEntries (w : World) : List LogEntry := w.ghost.total.drop (evictedCount w)

theorem SegmentLog.Numbered.filter_drop {entries : List LogEntry} (h : Numbered 0 entries) (k : ℕ) :
    (entries.filter fun e => k ≤ e.offset && (none : Option ℕ).all (e.offset < ·)) =
      entries.drop k := by
  have hoffset : ∀ i (hi : i < entries.length), (entries[i]).offset = i := by
    intro i hi
    rw [h i _ (List.getElem?_eq_getElem hi), Nat.zero_add]
  conv_lhs => rw [← List.take_append_drop k entries, List.filter_append]
  have hfront : (entries.take k).filter
      (fun e => k ≤ e.offset && (none : Option ℕ).all (e.offset < ·)) = [] := by
    apply List.filter_eq_nil_iff.mpr
    intro e he
    obtain ⟨i, hi, rfl⟩ := List.getElem_of_mem he
    rw [List.length_take] at hi
    rw [List.getElem_take, hoffset i (by omega)]
    simp
    omega
  have hback : (entries.drop k).filter
      (fun e => k ≤ e.offset && (none : Option ℕ).all (e.offset < ·)) = entries.drop k := by
    apply List.filter_eq_self.mpr
    intro e he
    obtain ⟨i, hi, rfl⟩ := List.getElem_of_mem he
    rw [List.length_drop] at hi
    rw [List.getElem_drop, hoffset (k + i) (by omega)]
    simp
  rw [hfront, hback, List.nil_append]

section Seeding

variable {c : Codec} {m : Mode} {l : Log} {w : World}

theorem SegmentLog.Rep.retained_eq_left (h : Rep c m l w) (hp : l.poisoned = false) :
    retainedEntries l w = leftEntries w := by
  have hsplit := h.committed_eq
  rw [committed, h.clean hp, List.take_length] at hsplit
  rw [leftEntries, hsplit, evictedCount, List.drop_left]

theorem SegmentLog.Rep.safe_seed (h : Rep c m l w) (hm : m.Calm) (hp : l.poisoned = false)
    (g : SequenceGate)
    {Q : Except StorageError (ℕ × SequenceGate) × Log → World → Prop}
    (hQ : ∀ n l', Rep c m l' w → Kept l w l' w →
      Q (.ok (n, g.seedFromLog (leftEntries w)), l') w) :
    Safe (setting c m) (g.seedFromSegments c l) Q w := by
  have hearliest := h.earliestOffset_eq
  rw [h.retained_eq_left hp] at hearliest
  unfold SequenceGate.seedFromSegments
  by_cases hnil : leftEntries w = []
  · rw [if_pos hnil] at hearliest
    rw [hearliest]
    have hdone := hQ 0 l h (.refl l w)
    rwa [hnil] at hdone
  · rw [if_neg hnil] at hearliest
    have hcommitted : committed l w = w.ghost.total := by
      rw [committed, h.clean hp, List.take_length]
    have hsome : ¬ w.ghost.total.length ≤ (evictedEntries w).length := by
      intro hle
      exact hnil (List.drop_eq_nil_of_le hle)
    have hrange : rangeOf (committed l w) l.earliestOffset (evictedEntries w).length none =
        .ok (leftEntries w) := by
      rw [rangeOf, hcommitted, hearliest, if_neg (by simpa using hsome), if_neg (by simp),
        h.good.numbered_total.filter_drop]
      rfl
    rw [hearliest]
    apply Safe.bind
    apply h.readRange hm
    intro l' hrep hkept
    rw [hrange]
    exact hQ _ l' hrep hkept

/-- A start gives a service whose gate has seen every entry that is left, or an index is
too large to be read. -/
theorem SegmentLog.Good.safe_start (h : Good c w) (hm : m.Calm) (hU : m.allowed w.ghost.total)
    (logConfig : SegmentLogConfig) (config : ProcessorConfig)
    {Q : Except StorageError SegmentIngest → World → Prop}
    (hok : IndexesFit w → ∀ s w', Rep c m s.log w' → s.log.poisoned = false →
      w'.ghost.total = w.ghost.total → evictedCount w' = evictedCount w →
      s.gate.Marks (leftEntries w') → Q (.ok s) w')
    (hbig : ¬ IndexesFit w → ∀ msg, Q (.error (.corrupted msg)) w) :
    Safe (setting c m) (SegmentIngest.start c logConfig config) Q w := by
  unfold SegmentIngest.start
  apply Safe.bind
  apply h.openDir hm hU logConfig
  · intro hfit l w' hrep _ hp htotal hclosed hdropped
    apply Safe.bind
    apply hrep.safe_seed hm hp
    intro n l' hrep' hkept
    apply hok hfit _ w' hrep' (hkept.poisoned.trans hp) htotal
    · rw [evictedCount, evictedCount, evictedEntries, evictedEntries, hclosed, hdropped]
    · intro e he det hev
      exact SequenceGate.new.covers_seedFromLog he hev
  · exact hbig

theorem SegmentLog.Good.afterStart (h : Good c w) {logConfig : SegmentLogConfig}
    {config : ProcessorConfig} {d' : Disk FileName} {s : SegmentIngest}
    (hx : Finishes (Step NoFail) w.disk (SegmentIngest.start c logConfig config) d' (.ok s)) :
    ∃ w', w'.disk = d' ∧ Rep c calm s.log w' ∧ s.log.poisoned = false ∧
      w'.ghost.total = w.ghost.total ∧ evictedCount w' = evictedCount w ∧
      s.gate.Marks (leftEntries w') := by
  have hsafe : Safe (setting c calm) (SegmentIngest.start c logConfig config)
      (fun r w' => ∀ s, r = .ok s → Rep c calm s.log w' ∧ s.log.poisoned = false ∧
        w'.ghost.total = w.ghost.total ∧ evictedCount w' = evictedCount w ∧
        s.gate.Marks (leftEntries w')) w := by
    apply h.safe_start calm_calm trivial
    · intro _ s₁ w' hrep hp htotal hevicted hmarks s₂ heq
      obtain rfl := Except.ok.inj heq
      exact ⟨hrep, hp, htotal, hevicted, hmarks⟩
    · intro _ msg s₂ heq
      cases heq
  obtain ⟨w', hd, hdone⟩ := finishes_calm hx rfl hsafe
  exact ⟨w', hd, hdone s rfl⟩

theorem SegmentLog.Good.afterStartStopped (h : Good c w) {logConfig : SegmentLogConfig}
    {config : ProcessorConfig} {d' : Disk FileName} {tr : List (Event (Resp (N := FileName)))}
    {rest : Prog (Resp (N := FileName)) (Except StorageError SegmentIngest)}
    (hx : Exec (Step NoFail) w.disk (SegmentIngest.start c logConfig config) tr d' rest) :
    ∃ w', w'.disk = d' ∧ Good c w' ∧ w'.ghost.total = w.ghost.total ∧
      evictedCount w ≤ evictedCount w' := by
  have hsafe : Safe (setting c ⟨NoFail, False, (· = w.ghost.total)⟩)
      (SegmentIngest.start c logConfig config) (fun _ _ => True) w := by
    apply h.safe_start ⟨fun _ hf => hf, id⟩ rfl
    · exact fun _ _ _ _ _ _ _ _ => trivial
    · exact fun _ _ => trivial
  obtain ⟨w', hd, hgood, htotal, hle, -⟩ := h.leaves rfl hx hsafe
  exact ⟨w', hd, hgood, htotal, hle⟩

end Seeding

/-- What a call may leave in the log: a part of its batch when the gate lets it through. -/
def Adds (s : SegmentIngest) (producerId : String) (event : OtkEvent) (crossingId : CrossingId)
    (entries now : List LogEntry) : Prop :=
  now = entries ∨ (gateVerdict s.gate producerId event).isSome = true ∧ ∃ ts j,
    now = entries ++ (batchOf entries.length ts producerId (s.batch event crossingId)).take j

def calling (fails : Op FileName → Prop) (s : SegmentIngest) (producerId : String)
    (event : OtkEvent) (crossingId : CrossingId) (entries : List LogEntry) : Mode :=
  ⟨fails, False, Adds s producerId event crossingId entries⟩

theorem mem_batchOf {n ts : ℕ} {producerId : String} {batch : List OtkEvent} {e : LogEntry}
    (h : e ∈ batchOf n ts producerId batch) : e.producerId = producerId ∧ e.event ∈ batch := by
  obtain ⟨i, hi, rfl⟩ := List.mem_mapIdx.mp h
  exact ⟨rfl, List.getElem_mem hi⟩

theorem notMem_deriveCrossings (p : CrossingProcessor) (crossingId : CrossingId)
    (event : OtkEvent) (det : Detection) :
    .detection det ∉ deriveCrossings p crossingId event := by
  intro hmem
  cases event with
  | detection det' =>
    obtain ⟨crossing, -, heq⟩ := List.mem_map.mp hmem
    cases heq
  | _ => cases hmem

theorem detection_of_mem_batchOf {n ts : ℕ} {producerId : String} {s : SegmentIngest}
    {event : OtkEvent} {crossingId : CrossingId} {e : LogEntry} {det : Detection}
    (he : e ∈ batchOf n ts producerId (s.batch event crossingId))
    (hdet : e.event = .detection det) :
    event = .detection det ∧ e.producerId = producerId ∧ e.offset = n := by
  obtain ⟨i, hi, rfl⟩ := List.mem_mapIdx.mp he
  cases i with
  | zero => exact ⟨hdet, rfl, rfl⟩
  | succ i =>
    have hlt : i < (deriveCrossings s.processor crossingId event).length :=
      Nat.lt_of_succ_lt_succ hi
    have hmem := List.getElem_mem hlt
    have htail : (deriveCrossings s.processor crossingId event)[i] = .detection det := hdet
    rw [htail] at hmem
    exact absurd hmem (notMem_deriveCrossings _ _ _ det)

theorem appendEvent_refused {c : Codec} {s : SegmentIngest} {producerId : String}
    {event : OtkEvent} {crossingId discardedId : CrossingId}
    (hverdict : ¬ (gateVerdict s.gate producerId event).isSome = true) :
    s.appendEvent c producerId event crossingId discardedId =
      .pure (.ok .droppedDuplicate,
        { s with metrics := s.metrics ++ duplicateMetrics producerId event }) := by
  have hnone := Option.not_isSome_iff_eq_none.mp hverdict
  unfold SegmentIngest.appendEvent
  rw [hnone]

structure Unanswered (fails : Op FileName → Prop) (s : SegmentIngest) (w : World)
    (x : Except StorageError AppendOutcome × SegmentIngest) (w' : World) : Prop where
  silent : ∀ n, x.1 ≠ .ok (.appended n)
  gate : x.2.gate = s.gate
  next : s.log.nextOffset ≤ x.2.log.nextOffset
  same : (∀ o, ¬ fails o) →
    w'.ghost.total = w.ghost.total ∧ x.2.log.poisoned = s.log.poisoned

/-- A call that was answered with an offset: its batch is stored, and the gate knows. -/
structure StoredFor (s : SegmentIngest) (w : World) (producerId : String) (batch : List OtkEvent)
    (x : Except StorageError AppendOutcome × SegmentIngest) (w' : World) (ts : ℕ) : Prop where
  answer : x.1 = .ok (.appended (w.ghost.total.length + batch.length - 1))
  total : w'.ghost.total =
    w.ghost.total ++ batchOf w.ghost.total.length ts producerId batch
  next : x.2.log.nextOffset = w.ghost.total.length + batch.length
  clean : x.2.log.poisoned = false
  gate : x.2.gate = commitGate s.gate producerId batch

def CallEnds (c : Codec) (fails : Op FileName → Prop) (s : SegmentIngest) (w : World)
    (producerId : String) (batch : List OtkEvent)
    (x : Except StorageError AppendOutcome × SegmentIngest) (w' : World) : Prop :=
  Rep c faulty x.2.log w' ∧
    (Unanswered fails s w x w' ∨ ∃ ts, StoredFor s w producerId batch x w' ts)

section Call

variable {c : Codec} {fails : Op FileName → Prop} {s : SegmentIngest} {w : World}
  {producerId : String} {event : OtkEvent} {crossingId discardedId : CrossingId}

theorem calling_undoes (hfails : ∀ o, fails o → Undoable o) (entries : List LogEntry) :
    (calling fails s producerId event crossingId entries).Undoes :=
  ⟨fun i n h => hfails _ h i n rfl, fun hs => hs.elim, fun hs => hs.elim⟩

theorem SegmentLog.Rep.safe_appendEvent (h : Rep c faulty s.log w)
    (hfails : ∀ o, fails o → Undoable o) (hcod : Decodes c (s.batch event crossingId)) :
    Safe (setting c (calling fails s producerId event crossingId w.ghost.total))
      (s.appendEvent c producerId event crossingId discardedId)
      (CallEnds c fails s w producerId (s.batch event crossingId)) w := by
  by_cases hverdict : (gateVerdict s.gate producerId event).isSome = true
  swap
  · rw [appendEvent_refused hverdict]
    refine ⟨h, .inl ⟨?_, rfl, le_refl _, fun _ => ⟨rfl, rfl⟩⟩⟩
    intro n heq
    cases heq
  obtain ⟨pendingGap, hgate⟩ := Option.isSome_iff_exists.mp hverdict
  unfold SegmentIngest.appendEvent
  rw [hgate]
  dsimp only
  apply Safe.bind
  cases hpoison : s.log.poisoned with
  | true =>
    obtain ⟨err, hprog⟩ := append_eq_of_poisoned (c := c) hpoison producerId
      (s.batch event crossingId)
    rw [hprog]
    refine ⟨h, .inl ⟨?_, rfl, le_refl _, fun _ => ⟨rfl, rfl⟩⟩⟩
    intro n heq
    cases heq
  | false =>
    have hnext := h.clean hpoison
    have hrep : Rep c (calling fails s producerId event crossingId w.ghost.total) s.log w :=
      h.congr_mode Iff.rfl
    apply hrep.append (calling_undoes hfails _) (fun hs => hs.elim) producerId _ hcod
    · intro ts _ j _
      rw [hnext]
      exact .inr ⟨hverdict, ts, j, rfl⟩
    · intro ts l₁ w₁ l' w' hcom hroll hrep r hblamed hr
      have hnow : l'.nextOffset = s.log.nextOffset + (s.batch event crossingId).length :=
        hroll.next.trans hcom.next
      have hfaulty : Rep c faulty l' w' := hrep.congr_mode Iff.rfl
      cases r with
      | error err =>
        refine ⟨hfaulty, .inl ⟨?_, rfl, hnow ▸ Nat.le_add_right _ _, ?_⟩⟩
        · intro n heq
          cases heq
        · intro hnone
          obtain ⟨o, ho⟩ := hblamed err rfl
          exact absurd ho (hnone o)
      | ok n =>
        refine ⟨hfaulty, .inr ⟨ts, ?_, ?_, ?_, hroll.poisoned.trans hcom.poisoned, rfl⟩⟩
        · rw [← hnext, ← hr n rfl]
          rfl
        · rw [hroll.total, hcom.total, hnext]
        · exact hnow.trans (by rw [hnext])
    · intro err l' w' _ hrep htried
      refine ⟨hrep.congr_mode Iff.rfl, .inl ⟨?_, rfl, ?_, ?_⟩⟩
      · intro n heq
        cases heq
      · rcases htried with hkept | ⟨-, ts, hlost⟩
        · exact hkept.next.ge
        · exact hlost.next.ge
      · intro hnone
        rcases htried with hkept | ⟨⟨o, ho⟩, -⟩
        · exact ⟨hkept.total, hkept.poisoned⟩
        · exact absurd ho (hnone o)

/-- Wherever a call is stopped, it has left a part of its batch at most. -/
theorem SegmentLog.Rep.call (h : Rep c faulty s.log w) (hfails : ∀ o, fails o → Undoable o)
    (hcod : Decodes c (s.batch event crossingId)) {d' : Disk FileName}
    {tr : List (Event (Resp (N := FileName)))}
    {rest : Prog (Resp (N := FileName)) (Except StorageError AppendOutcome × SegmentIngest)}
    (hx : Exec (Step fails) w.disk (s.appendEvent c producerId event crossingId discardedId) tr d'
      rest) :
    ∃ w', w'.disk = d' ∧ Good c w' ∧
      Adds s producerId event crossingId w.ghost.total w'.ghost.total ∧
      evictedCount w ≤ evictedCount w' ∧
      Safe (setting c (calling fails s producerId event crossingId w.ghost.total)) rest
        (CallEnds c fails s w producerId (s.batch event crossingId)) w' :=
  h.good.leaves (Or.inl rfl) hx (h.safe_appendEvent hfails hcod)

end Call

end OtkCore
