import OtkCore.Core.Lives
import OtkCore.SegmentLog.Exhaustion

/-!
# Stored once

What a producer was told outlives every life of the node: it reads back, and the gate of
each later life keeps it from being stored once more. When no operation fails, this holds
of every detection in the log, also of those whose call was never answered.
-/
namespace OtkCore

open Effect FileIO SegmentLog EventIngestService

/-- Behind an acknowledged detection that is left there is none of its key with its number
or a smaller one. -/
def Unrepeated (acks : List Ack) (evicted : ℕ) (entries : List LogEntry) : Prop :=
  ∀ offset producerId det, (offset, producerId, OtkEvent.detection det) ∈ acks →
    evicted ≤ offset → ∀ e ∈ entries, offset < e.offset → e.producerId = producerId →
      ∀ det', e.event = .detection det' → det'.detectorId = det.detectorId →
        det.sequenceNumber < det'.sequenceNumber

/-- The gate has a mark for every acknowledged detection that is left. -/
def KeepsOff (g : SequenceGate) (acks : List Ack) (evicted : ℕ) : Prop :=
  ∀ offset producerId det, (offset, producerId, OtkEvent.detection det) ∈ acks →
    evicted ≤ offset → g.Covers (producerId, det.detectorId) det.sequenceNumber

def Recorded (acks : List Ack) (entries : List LogEntry) : Prop :=
  ∀ x ∈ acks, ∃ ts, entries[x.1]? = some ⟨x.1, ts, x.2.1, x.2.2⟩

section Acknowledged

variable {acks : List Ack} {k k' : ℕ} {entries now : List LogEntry} {g : SequenceGate}
  {s : SegmentIngest} {producerId : String} {event : OtkEvent} {crossingId : CrossingId}

theorem Unrepeated.mono (h : Unrepeated acks k entries) (hle : k ≤ k') :
    Unrepeated acks k' entries :=
  fun offset producerId det hx hleft => h offset producerId det hx (hle.trans hleft)

theorem KeepsOff.mono (h : KeepsOff g acks k) (hle : k ≤ k') : KeepsOff g acks k' :=
  fun offset producerId det hx hleft => h offset producerId det hx (hle.trans hleft)

theorem Recorded.adds (h : Recorded acks entries)
    (hadds : Adds s producerId event crossingId entries now) : Recorded acks now := by
  rcases hadds with rfl | ⟨-, ts, j, rfl⟩
  · exact h
  · intro x hx
    obtain ⟨ts, hts⟩ := h x hx
    exact ⟨ts, getElem?_of_prefix (List.prefix_append _ _) hts⟩

/-- A gate that has seen what is left keeps off what was acknowledged. -/
theorem Recorded.keepsOff (h : Recorded acks entries) (hmarks : g.Marks (entries.drop k)) :
    KeepsOff g acks k := by
  intro offset producerId det hx hleft
  obtain ⟨ts, hts⟩ := h _ hx
  have hmem : (⟨offset, ts, producerId, .detection det⟩ : LogEntry) ∈ entries.drop k := by
    apply List.mem_of_getElem? (i := offset - k)
    rw [List.getElem?_drop, Nat.add_sub_cancel' hleft]
    exact hts
  exact hmarks _ hmem det rfl

/-- A detection that the gate lets through comes behind everything it covers. -/
theorem lt_of_covers {key : GateKey} {seq : UInt64} {det : Detection} (hcovers : g.Covers key seq)
    (hverdict : (gateVerdict g producerId event).isSome = true) (hevent : event = .detection det)
    (hkey : (producerId, det.detectorId) = key) : seq < det.sequenceNumber := by
  have hnot := (gateVerdict_isSome g producerId event).mp hverdict det hevent
  by_contra hge
  obtain ⟨hw, hlookup, hle⟩ := hcovers
  apply hnot
  refine ⟨hw, ?_, UInt64.le_trans (UInt64.not_lt.mp hge) hle⟩
  rw [hkey]
  exact hlookup

theorem Unrepeated.adds (h : Unrepeated acks k entries) (hkeeps : KeepsOff s.gate acks k)
    (hadds : Adds s producerId event crossingId entries now) : Unrepeated acks k now := by
  rcases hadds with rfl | ⟨hverdict, ts, j, rfl⟩
  · exact h
  · intro offset producerId' det hx hleft e he hlater hproducer det' hdet' hdetector
    rcases List.mem_append.mp he with hold | hnew
    · exact h offset producerId' det hx hleft e hold hlater hproducer det' hdet' hdetector
    · obtain ⟨hevent, hself, -⟩ := detection_of_mem_batchOf (List.mem_of_mem_take hnew) hdet'
      apply lt_of_covers (hkeeps offset producerId' det hx hleft) hverdict hevent
      rw [hdetector, ← hself, hproducer]

theorem KeepsOff.commit (h : KeepsOff g acks k) (producerId : String) (batch : List OtkEvent) :
    KeepsOff (commitGate g producerId batch) acks k := by
  intro offset producerId' det hx hleft
  exact IngestSystem.Covers.commitGate (h offset producerId' det hx hleft) _ _

/-- The only detection that a call can acknowledge is its event. -/
theorem told_detection {n : ℕ} {x : Ack} {det : Detection}
    (hx : x ∈ told producerId (s.batch event crossingId)
      (.ok (.appended (n + (s.batch event crossingId).length - 1))))
    (hdet : x.2.2 = .detection det) :
    x = (n, producerId, .detection det) ∧ event = .detection det := by
  obtain ⟨i, hi, rfl⟩ := List.mem_mapIdx.mp hx
  have hoffset : n + (s.batch event crossingId).length - 1 + 1 -
      (s.batch event crossingId).length + i = n + i := by
    rw [List.length_cons]
    omega
  have hentry : (⟨n + i, 0, producerId, (s.batch event crossingId)[i]⟩ : LogEntry) ∈
      batchOf n 0 producerId (s.batch event crossingId) := List.mem_mapIdx.mpr ⟨i, hi, rfl⟩
  obtain ⟨hevent, -, hself⟩ := detection_of_mem_batchOf hentry hdet
  have hself : n + i = n := hself
  have hdet : (s.batch event crossingId)[i] = .detection det := hdet
  rw [hoffset, hself, hdet]
  exact ⟨rfl, hevent⟩

theorem told_of_silent {batch : List OtkEvent} {r : Except StorageError AppendOutcome}
    (h : ∀ n, r ≠ .ok (.appended n)) : told producerId batch r = [] := by
  cases r with
  | error err => rfl
  | ok outcome =>
    cases outcome with
    | appended n => exact absurd rfl (h n)
    | droppedDuplicate => rfl

end Acknowledged

/-- The directory, the service on it and what was acknowledged go together. -/
structure Upheld (c : Codec) (acks : List Ack) (service : Option SegmentIngest)
    (d : Disk FileName) (w : World) : Prop where
  disk : w.disk = d
  good : Good c w
  recorded : Recorded acks w.ghost.total
  unrepeated : Unrepeated acks (evictedCount w) w.ghost.total
  rep : ∀ s, service = some s → Rep c faulty s.log w
  keepsOff : ∀ s, service = some s → KeepsOff s.gate acks (evictedCount w)
  before : ∀ s, service = some s → ∀ x ∈ acks, x.1 < s.log.nextOffset

section Upheld

variable {c : Codec} {fails : Op FileName → Prop} {acks : List Ack}
  {service : Option SegmentIngest} {s s' : SegmentIngest} {d d' : Disk FileName} {w w' : World}
  {producerId : String} {event : OtkEvent} {crossingId discardedId : CrossingId}

theorem Upheld.down (hdisk : w.disk = d) (hgood : Good c w)
    (hrecorded : Recorded acks w.ghost.total)
    (hunrepeated : Unrepeated acks (evictedCount w) w.ghost.total) : Upheld c acks none d w :=
  ⟨hdisk, hgood, hrecorded, hunrepeated, nofun, nofun, nofun⟩

theorem Upheld.up (h : Upheld c acks none d w) (hrep : Rep c faulty s.log w)
    (hkeeps : KeepsOff s.gate acks (evictedCount w))
    (hbefore : ∀ x ∈ acks, x.1 < s.log.nextOffset) : Upheld c acks (some s) d w := by
  refine ⟨h.disk, h.good, h.recorded, h.unrepeated, ?_, ?_, ?_⟩
  · intro s₁ heq
    obtain rfl := Option.some.inj heq
    exact hrep
  · intro s₁ heq
    obtain rfl := Option.some.inj heq
    exact hkeeps
  · intro s₁ heq
    obtain rfl := Option.some.inj heq
    exact hbefore

theorem Upheld.starts (h : Upheld c acks none d w) {logConfig : SegmentLogConfig}
    {config : ProcessorConfig}
    (hx : Finishes (Step NoFail) d (SegmentIngest.start c logConfig config) d' (.ok s)) :
    ∃ w', Upheld c acks (some s) d' w' := by
  rw [← h.disk] at hx
  obtain ⟨w', hd, hrep, hp, htotal, hevicted, hmarks⟩ := h.good.afterStart hx
  have hrecorded : Recorded acks w'.ghost.total := by
    rw [htotal]
    exact h.recorded
  have hdown : Upheld c acks none d' w' := by
    apply Upheld.down hd hrep.good hrecorded
    rw [htotal, hevicted]
    exact h.unrepeated
  refine ⟨w', hdown.up (hrep.congr_mode Iff.rfl) (hrecorded.keepsOff hmarks) ?_⟩
  intro x hmem
  obtain ⟨ts, hts⟩ := hrecorded x hmem
  rw [hrep.clean hp]
  exact (List.getElem?_eq_some_iff.mp hts).1

theorem Upheld.startStopped (h : Upheld c acks none d w) {logConfig : SegmentLogConfig}
    {config : ProcessorConfig} {tr : List (Event (Resp (N := FileName)))}
    {rest : Prog (Resp (N := FileName)) (Except StorageError SegmentIngest)}
    (hx : Exec (Step NoFail) d (SegmentIngest.start c logConfig config) tr d' rest) :
    ∃ w', Upheld c acks none d' w' := by
  rw [← h.disk] at hx
  obtain ⟨w', hd, hgood, htotal, hle⟩ := h.good.afterStartStopped hx
  refine ⟨w', .down hd hgood ?_ ?_⟩
  · rw [htotal]
    exact h.recorded
  · rw [htotal]
    exact h.unrepeated.mono hle

theorem Upheld.adds (h : Upheld c acks (some s) d w) (hd : w'.disk = d') (hgood : Good c w')
    (hadds : Adds s producerId event crossingId w.ghost.total w'.ghost.total)
    (hle : evictedCount w ≤ evictedCount w') : Upheld c acks none d' w' := by
  apply Upheld.down hd hgood (h.recorded.adds hadds)
  exact (h.unrepeated.mono hle).adds ((h.keepsOff s rfl).mono hle) hadds

/-- The events of a batch that was stored are acknowledged from then on. -/
theorem Upheld.stored (h : Upheld c acks none d' w') (hold : Upheld c acks (some s) d w)
    (hrep : Rep c faulty s'.log w') {r : Except StorageError AppendOutcome} {ts : ℕ}
    (hle : evictedCount w ≤ evictedCount w')
    (hstored : StoredFor s w producerId (s.batch event crossingId) (r, s') w' ts) :
    Upheld c (acks ++ told producerId (s.batch event crossingId) r) (some s') d' w' := by
  obtain ⟨rfl, htotal, hnext, -, hgate⟩ := hstored
  have hnext : s'.log.nextOffset = w.ghost.total.length + (s.batch event crossingId).length := hnext
  have hgate : s'.gate = commitGate s.gate producerId (s.batch event crossingId) := hgate
  have hnew := acknowledged_in w.ghost.total ts producerId
    (List.cons_ne_nil event (deriveCrossings s.processor crossingId event))
  have hdown : Upheld c (acks ++ told producerId (s.batch event crossingId)
      (.ok (.appended (w.ghost.total.length + (s.batch event crossingId).length - 1)))) none d'
      w' := by
    apply Upheld.down h.disk h.good
    · intro x hx
      rcases List.mem_append.mp hx with hwas | hnow
      · exact h.recorded x hwas
      · rw [htotal]
        exact hnew.acked x hnow
    · intro offset producerId' det hx hleft e he hlater hproducer det' hdet' hdetector
      rcases List.mem_append.mp hx with hwas | hnow
      · exact h.unrepeated offset producerId' det hwas hleft e he hlater hproducer det' hdet'
          hdetector
      · -- The acknowledged detection is the last one in the log.
        obtain ⟨hself, -⟩ := told_detection hnow rfl
        obtain ⟨rfl, -⟩ := Prod.mk.inj hself
        rw [htotal] at he
        rcases List.mem_append.mp he with hwas | hbatch
        · obtain ⟨i, hi⟩ := List.mem_iff_getElem?.mp hwas
          have hnum := hold.good.numbered_total i e hi
          have hlt := (List.getElem?_eq_some_iff.mp hi).1
          omega
        · obtain ⟨-, -, hoffset⟩ := detection_of_mem_batchOf hbatch hdet'
          omega
  apply hdown.up hrep
  · rw [hgate]
    intro offset producerId' det hx hleft
    rcases List.mem_append.mp hx with hwas | hnow
    · exact (hold.keepsOff s rfl).commit producerId _ offset producerId' det hwas
        (hle.trans hleft)
    · obtain ⟨hself, rfl⟩ := told_detection hnow rfl
      have hproducer : producerId' = producerId := congrArg (fun x => x.2.1) hself
      rw [hproducer]
      exact s.gate.covers_commit_self producerId det
  · intro x hx
    rw [hnext]
    rcases List.mem_append.mp hx with hwas | hnow
    · have hlt := hold.before s rfl x hwas
      have hbound := (hold.rep s rfl).next
      omega
    · obtain ⟨ts', hts'⟩ := hnew.acked x hnow
      have hlt := (List.getElem?_eq_some_iff.mp hts').1
      simpa using hlt

theorem Upheld.answers (h : Upheld c acks (some s) d w) (hfails : ∀ o, fails o → Undoable o)
    (hcod : Decodes c (s.batch event crossingId)) {r : Except StorageError AppendOutcome}
    (hx : Finishes (Step fails) d (s.appendEvent c producerId event crossingId discardedId) d'
      (r, s')) :
    ∃ w', Upheld c (acks ++ told producerId (s.batch event crossingId) r) (some s') d' w' := by
  rw [← h.disk] at hx
  obtain ⟨tr, hx⟩ := hx
  obtain ⟨w', hd, hgood, hadds, hle, hrep, hends⟩ := (h.rep s rfl).call hfails hcod hx
  have hdown := h.adds hd hgood hadds hle
  rcases hends with hnone | ⟨ts, hstored⟩
  · have hgate : s'.gate = s.gate := hnone.gate
    rw [told_of_silent hnone.silent, List.append_nil]
    refine ⟨w', hdown.up hrep ?_ ?_⟩
    · rw [hgate]
      exact (h.keepsOff s rfl).mono hle
    · intro x hmem
      exact (h.before s rfl x hmem).trans_le hnone.next
  · exact ⟨w', hdown.stored h hrep hle hstored⟩

theorem Upheld.callStopped (h : Upheld c acks (some s) d w) (hfails : ∀ o, fails o → Undoable o)
    (hcod : Decodes c (s.batch event crossingId)) {tr : List (Event (Resp (N := FileName)))}
    {rest : Prog (Resp (N := FileName)) (Except StorageError AppendOutcome × SegmentIngest)}
    (hx : Exec (Step fails) d (s.appendEvent c producerId event crossingId discardedId) tr d'
      rest) :
    ∃ w', Upheld c acks none d' w' := by
  rw [← h.disk] at hx
  obtain ⟨w', hd, hgood, hadds, hle, -⟩ := (h.rep s rfl).call hfails hcod hx
  exact ⟨w', h.adds hd hgood hadds hle⟩

/-- Whatever a node has been through, its directory, its gate and what it acknowledged go
together. -/
theorem Lives.upheld (h : Lives c fails acks service d) (hfails : ∀ o, fails o → Undoable o) :
    ∃ w, Upheld c acks service d w := by
  induction h with
  | empty =>
    refine ⟨.empty, .down rfl good_empty ?_ ?_⟩
    · intro x hx
      cases hx
    · intro offset producerId det hx
      cases hx
  | starts _ hx ih =>
    obtain ⟨w, hw⟩ := ih
    exact hw.starts hx
  | startStopped _ hx ih =>
    obtain ⟨w, hw⟩ := ih
    exact hw.startStopped hx
  | answers _ hcod hx ih =>
    obtain ⟨w, hw⟩ := ih
    exact hw.answers hfails hcod hx
  | callStopped _ hcod hx ih =>
    obtain ⟨w, hw⟩ := ih
    exact hw.callStopped hfails hcod hx
  | stops _ ih =>
    obtain ⟨w, hw⟩ := ih
    exact ⟨w, .down hw.disk hw.good hw.recorded hw.unrepeated⟩

end Upheld

/-- Two detections of one key come with rising numbers. -/
def Precedes (e e' : LogEntry) : Prop :=
  e'.producerId = e.producerId → ∀ det, e.event = .detection det →
    ∀ det', e'.event = .detection det' → det'.detectorId = det.detectorId →
      det.sequenceNumber < det'.sequenceNumber

def InSequence (entries : List LogEntry) : Prop := entries.Pairwise Precedes

section Sequences

variable {k : ℕ} {entries fresh : List LogEntry} {g : SequenceGate} {s : SegmentIngest}
  {w w' : World} {n ts j : ℕ} {producerId : String} {event : OtkEvent} {crossingId : CrossingId}

theorem SequenceGate.Marks.mono {xs ys : List LogEntry} (h : g.Marks ys) (hsub : xs ⊆ ys) :
    g.Marks xs :=
  fun e he => h e (hsub he)

theorem SequenceGate.Marks.commit (h : g.Marks entries) :
    (commitGate g producerId (s.batch event crossingId)).Marks
      (entries ++ batchOf n ts producerId (s.batch event crossingId)) := by
  intro e he det hdet
  rcases List.mem_append.mp he with hold | hnew
  · exact IngestSystem.Covers.commitGate (h e hold det hdet) _ _
  · obtain ⟨rfl, hself, -⟩ := detection_of_mem_batchOf hnew hdet
    rw [hself]
    exact g.covers_commit_self producerId det

theorem inSequence_batchOf : InSequence (batchOf n ts producerId (s.batch event crossingId)) := by
  -- Behind its head a batch has no detection.
  have hnone : ∀ e ∈ batchOf (n + 1) ts producerId (deriveCrossings s.processor crossingId event),
      ∀ det, e.event ≠ .detection det := by
    intro e he det hdet
    obtain ⟨-, hmem⟩ := mem_batchOf he
    rw [hdet] at hmem
    exact notMem_deriveCrossings _ _ _ det hmem
  rw [SegmentIngest.batch, batchOf_cons]
  apply List.pairwise_cons.mpr
  constructor
  · intro e' he' _ det _ det' hdet'
    exact absurd hdet' (hnone e' he' det')
  · apply List.pairwise_of_forall_mem_list
    intro e _ e' he' _ det _ det' hdet'
    exact absurd hdet' (hnone e' he' det')

theorem InSequence.append (h : InSequence entries) (hmarks : s.gate.Marks entries)
    (hverdict : (gateVerdict s.gate producerId event).isSome = true) :
    InSequence (entries ++ (batchOf n ts producerId (s.batch event crossingId)).take j) := by
  apply List.pairwise_append.mpr
  refine ⟨h, inSequence_batchOf.sublist (List.take_sublist j _), ?_⟩
  intro e he e' he' hproducer det hdet det' hdet' hdetector
  obtain ⟨hevent, hself, -⟩ := detection_of_mem_batchOf (List.mem_of_mem_take he') hdet'
  apply lt_of_covers (hmarks e he det hdet) hverdict hevent
  rw [hdetector, ← hself, hproducer]

theorem leftEntries_sublist (htotal : w'.ghost.total = w.ghost.total ++ fresh)
    (hle : evictedCount w ≤ evictedCount w') :
    (leftEntries w').Sublist (leftEntries w ++ fresh) := by
  rw [leftEntries, leftEntries, htotal, List.drop_append]
  exact (List.drop_sublist_drop_left _ hle).append (List.drop_sublist _ _)

theorem leftEntries_sublist_same (htotal : w'.ghost.total = w.ghost.total)
    (hle : evictedCount w ≤ evictedCount w') : (leftEntries w').Sublist (leftEntries w) := by
  rw [leftEntries, leftEntries, htotal]
  exact List.drop_sublist_drop_left _ hle

theorem InSequence.adds (h : InSequence (leftEntries w)) (hmarks : s.gate.Marks (leftEntries w))
    (hadds : Adds s producerId event crossingId w.ghost.total w'.ghost.total)
    (hle : evictedCount w ≤ evictedCount w') : InSequence (leftEntries w') := by
  rcases hadds with hsame | ⟨hverdict, ts, j, htotal⟩
  · exact h.sublist (leftEntries_sublist_same hsame hle)
  · exact (h.append hmarks hverdict).sublist (leftEntries_sublist htotal hle)

end Sequences

/-- The numbers in what is left rise for each key, and the gate of a service knows them. -/
structure Unbroken (c : Codec) (service : Option SegmentIngest) (d : Disk FileName) (w : World) :
    Prop where
  disk : w.disk = d
  good : Good c w
  sequence : InSequence (leftEntries w)
  rep : ∀ s, service = some s → Rep c calm s.log w
  clean : ∀ s, service = some s → s.log.poisoned = false
  marks : ∀ s, service = some s → s.gate.Marks (leftEntries w)

section Unbroken

variable {c : Codec} {acks : List Ack} {service : Option SegmentIngest} {s s' : SegmentIngest}
  {d d' : Disk FileName} {w w' : World} {producerId : String} {event : OtkEvent}
  {crossingId discardedId : CrossingId}

theorem Unbroken.down (hdisk : w.disk = d) (hgood : Good c w)
    (hsequence : InSequence (leftEntries w)) : Unbroken c none d w :=
  ⟨hdisk, hgood, hsequence, nofun, nofun, nofun⟩

theorem Unbroken.up (hdisk : w.disk = d) (hsequence : InSequence (leftEntries w))
    (hrep : Rep c calm s.log w) (hp : s.log.poisoned = false)
    (hmarks : s.gate.Marks (leftEntries w)) : Unbroken c (some s) d w := by
  refine ⟨hdisk, hrep.good, hsequence, ?_, ?_, ?_⟩
  · intro s₁ heq
    obtain rfl := Option.some.inj heq
    exact hrep
  · intro s₁ heq
    obtain rfl := Option.some.inj heq
    exact hp
  · intro s₁ heq
    obtain rfl := Option.some.inj heq
    exact hmarks

theorem Unbroken.starts (h : Unbroken c none d w) {logConfig : SegmentLogConfig}
    {config : ProcessorConfig}
    (hx : Finishes (Step NoFail) d (SegmentIngest.start c logConfig config) d' (.ok s)) :
    ∃ w', Unbroken c (some s) d' w' := by
  rw [← h.disk] at hx
  obtain ⟨w', hd, hrep, hp, htotal, hevicted, hmarks⟩ := h.good.afterStart hx
  refine ⟨w', .up hd ?_ hrep hp hmarks⟩
  have hleft : leftEntries w' = leftEntries w := by
    rw [leftEntries, leftEntries, htotal, hevicted]
  rw [hleft]
  exact h.sequence

theorem Unbroken.startStopped (h : Unbroken c none d w) {logConfig : SegmentLogConfig}
    {config : ProcessorConfig} {tr : List (Event (Resp (N := FileName)))}
    {rest : Prog (Resp (N := FileName)) (Except StorageError SegmentIngest)}
    (hx : Exec (Step NoFail) d (SegmentIngest.start c logConfig config) tr d' rest) :
    ∃ w', Unbroken c none d' w' := by
  rw [← h.disk] at hx
  obtain ⟨w', hd, hgood, htotal, hle⟩ := h.good.afterStartStopped hx
  exact ⟨w', .down hd hgood (h.sequence.sublist (leftEntries_sublist_same htotal hle))⟩

theorem noFail_undoable (o : Op FileName) (h : NoFail o) : Undoable o := h.elim

theorem Unbroken.answers (h : Unbroken c (some s) d w) (hcod : Decodes c (s.batch event crossingId))
    {r : Except StorageError AppendOutcome}
    (hx : Finishes (Step NoFail) d (s.appendEvent c producerId event crossingId discardedId) d'
      (r, s')) :
    ∃ w', Unbroken c (some s') d' w' := by
  rw [← h.disk] at hx
  obtain ⟨tr, hx⟩ := hx
  have hfaulty : Rep c faulty s.log w := (h.rep s rfl).congr_mode Iff.rfl
  obtain ⟨w', hd, -, hadds, hle, hrep, hends⟩ := hfaulty.call noFail_undoable hcod hx
  have hsequence := h.sequence.adds (h.marks s rfl) hadds hle
  have hcalm : Rep c calm s'.log w' := hrep.congr_mode Iff.rfl
  rcases hends with hnone | ⟨ts, hstored⟩
  · obtain ⟨hsame, hp⟩ := hnone.same fun _ hf => hf
    have hgate : s'.gate = s.gate := hnone.gate
    refine ⟨w', .up hd hsequence hcalm (hp.trans (h.clean s rfl)) ?_⟩
    rw [hgate]
    exact (h.marks s rfl).mono (leftEntries_sublist_same hsame hle).subset
  · have hgate : s'.gate = commitGate s.gate producerId (s.batch event crossingId) := hstored.gate
    refine ⟨w', .up hd hsequence hcalm hstored.clean ?_⟩
    rw [hgate]
    exact (h.marks s rfl).commit.mono (leftEntries_sublist hstored.total hle).subset

theorem Unbroken.callStopped (h : Unbroken c (some s) d w)
    (hcod : Decodes c (s.batch event crossingId)) {tr : List (Event (Resp (N := FileName)))}
    {rest : Prog (Resp (N := FileName)) (Except StorageError AppendOutcome × SegmentIngest)}
    (hx : Exec (Step NoFail) d (s.appendEvent c producerId event crossingId discardedId) tr d'
      rest) :
    ∃ w', Unbroken c none d' w' := by
  rw [← h.disk] at hx
  have hfaulty : Rep c faulty s.log w := (h.rep s rfl).congr_mode Iff.rfl
  obtain ⟨w', hd, hgood, hadds, hle, -⟩ := hfaulty.call noFail_undoable hcod hx
  exact ⟨w', .down hd hgood (h.sequence.adds (h.marks s rfl) hadds hle)⟩

/-- When no operation fails, the sequences of the log are unbroken. -/
theorem Lives.unbroken (h : Lives c NoFail acks service d) : ∃ w, Unbroken c service d w := by
  induction h with
  | empty => exact ⟨.empty, .down rfl good_empty .nil⟩
  | starts _ hx ih =>
    obtain ⟨w, hw⟩ := ih
    exact hw.starts hx
  | startStopped _ hx ih =>
    obtain ⟨w, hw⟩ := ih
    exact hw.startStopped hx
  | answers _ hcod hx ih =>
    obtain ⟨w, hw⟩ := ih
    exact hw.answers hcod hx
  | callStopped _ hcod hx ih =>
    obtain ⟨w, hw⟩ := ih
    exact hw.callStopped hcod hx
  | stops _ ih =>
    obtain ⟨w, hw⟩ := ih
    exact ⟨w, .down hw.disk hw.good hw.sequence⟩

end Unbroken

/-- The detection and those of its key with smaller numbers are refused. -/
def Refuses (c : Codec) (s : SegmentIngest) (producerId : String) (det : Detection) : Prop :=
  ∀ again : Detection, again.detectorId = det.detectorId →
    again.sequenceNumber ≤ det.sequenceNumber → ∀ crossingId discardedId, ∃ metrics,
      s.appendEvent c producerId (.detection again) crossingId discardedId =
        .pure (.ok .droppedDuplicate, { s with metrics := metrics })

/-- A detection that is stored at the offset and will not be stored again. -/
structure StoredOnce (c : Codec) (s : SegmentIngest) (d : Disk FileName) (offset : ℕ)
    (producerId : String) (det : Detection) : Prop where
  refused : Refuses c s producerId det
  unrepeated : ∀ start stop entries d' l',
    Finishes (Step NoFail) d (readRange c start stop s.log) d' (.ok entries, l') →
      ∀ e ∈ entries, offset < e.offset → e.producerId = producerId →
        ∀ det', e.event = .detection det' → det'.detectorId = det.detectorId →
          det.sequenceNumber < det'.sequenceNumber

section Relying

variable {c : Codec} {l : Log} {acks : List Ack} {service : Option SegmentIngest}
  {s : SegmentIngest} {d : Disk FileName} {w : World} {offset : ℕ} {producerId : String}
  {det : Detection}

theorem flows_start (logConfig : SegmentLogConfig) (config : ProcessorConfig) :
    Flows NoFail (SegmentIngest.start c logConfig config) fun _ => True := by
  unfold SegmentIngest.start
  apply Flows.bind
  apply (flows_openDir logConfig).mono
  intro opened _
  cases opened with
  | error e => exact trivial
  | ok log =>
    dsimp only
    apply Flows.bind
    unfold SequenceGate.seedFromSegments
    cases log.earliestOffset with
    | none => exact trivial
    | some earliest =>
      dsimp only
      have hfree : Free NoFail (SegmentLog.readRange c earliest none) := free_readRange _ _
      apply Flows.bind
      apply (hfree log).mono
      intro x _
      exact trivial

/-- A start comes to its end, with a service unless an index is too large. -/
theorem SegmentLog.Good.started (h : Good c w) (logConfig : SegmentLogConfig)
    (config : ProcessorConfig) :
    (∃ d' r, Finishes (Step NoFail) w.disk (SegmentIngest.start c logConfig config) d' r) ∧
      ∀ d' r, Finishes (Step NoFail) w.disk (SegmentIngest.start c logConfig config) d' r →
        ((∃ s, r = .ok s) ↔ IndexesReadable w.disk) := by
  constructor
  · obtain ⟨d', r, hx, -⟩ := (flows_start (c := c) logConfig config).finishes w.disk
    exact ⟨d', r, hx⟩
  · intro d' r hx
    rw [← h.indexesFit_iff]
    have hsafe : Safe (setting c calm) (SegmentIngest.start c logConfig config)
        (fun r _ => (∃ s, r = .ok s) ↔ IndexesFit w) w := by
      apply h.safe_start calm_calm trivial
      · intro hfit s _ _ _ _ _ _
        exact ⟨fun _ => hfit, fun _ => ⟨s, rfl⟩⟩
      · intro hbig msg
        constructor
        · rintro ⟨s, hs⟩
          cases hs
        · intro hfit
          exact absurd hfit hbig
    obtain ⟨_, -, hdone⟩ := finishes_calm hx rfl hsafe
    exact hdone

/-- What is committed and left reads back, whether or not the log still takes appends. -/
theorem SegmentLog.Rep.committedReadsBack (h : Rep c calm l w) {e : LogEntry}
    (he : w.ghost.total[e.offset]? = some e) (hlt : e.offset < l.nextOffset)
    (hleft : evictedCount w ≤ e.offset) : ReadsBack c l w.disk e := by
  have hfree : Free NoFail (SegmentLog.readRange c e.offset (some (e.offset + 1))) :=
    free_readRange _ _
  obtain ⟨d', x, hx, -⟩ := (hfree l).finishes w.disk
  refine ⟨⟨d', x, hx⟩, ?_⟩
  intro d' r l' hx
  obtain ⟨rfl, -⟩ := h.ranged hx
  have hnum : Numbered 0 (committed l w) := h.good.numbered_total.take _
  have hlen : (committed l w).length = l.nextOffset := by
    rw [committed, List.length_take]
    exact Nat.min_eq_left h.next
  have he : (committed l w)[e.offset]? = some e := by
    rw [committed, List.getElem?_take_of_lt hlt]
    exact he
  have hne : retainedEntries l w ≠ [] := by
    intro hnil
    have hsplit := congrArg List.length h.committed_eq
    rw [hnil, List.append_nil, hlen] at hsplit
    rw [evictedCount] at hleft
    omega
  have hone : (committed l w).filter (InRange e.offset (e.offset + 1)) = [e] := by
    rw [hnum.filter_inRange, Nat.sub_zero, Nat.sub_zero, List.drop_take, Nat.add_sub_cancel_left,
      List.take_one, List.head?_drop, he]
    rfl
  have hnot : ¬ ((some (e.offset + 1)).any (· ≤ e.offset) = true ∨
      (committed l w).length ≤ e.offset) := by
    rw [hlen]
    simpa using hlt
  have hleft : (evictedEntries w).length ≤ e.offset := hleft
  rw [rangeOf, h.earliestOffset_eq, if_neg hne, if_neg hnot, if_neg (by simpa using hleft)]
  exact congrArg Except.ok hone

theorem refuses_of_covers (h : s.gate.Covers (producerId, det.detectorId) det.sequenceNumber) :
    Refuses c s producerId det := by
  intro again hdetector hle crossingId discardedId
  obtain ⟨hw, hlookup, hmark⟩ := h
  refine ⟨_, appendEvent_refused ?_⟩
  rw [gateVerdict_isSome]
  intro hnew
  apply hnew again rfl
  refine ⟨hw, ?_, UInt64.le_trans hle hmark⟩
  rw [hdetector]
  exact hlookup

theorem Upheld.storedOnce (h : Upheld c acks (some s) d w)
    (hmem : (offset, producerId, OtkEvent.detection det) ∈ acks) (hleft : evictedCount w ≤ offset) :
    StoredOnce c s d offset producerId det := by
  have hcalm : Rep c calm s.log w := (h.rep s rfl).congr_mode Iff.rfl
  constructor
  · exact refuses_of_covers (h.keepsOff s rfl offset producerId det hmem hleft)
  · intro start stop entries d' l' hx e he
    rw [← h.disk] at hx
    obtain ⟨hr, -⟩ := hcalm.ranged hx
    have hin := returned_in (h.good.numbered_total.take s.log.nextOffset) s.log.earliestOffset start
      stop e
    rw [committed] at hr
    rw [← hr] at hin
    exact h.unrepeated offset producerId det hmem hleft e
      (List.mem_of_mem_take (List.mem_of_getElem? (hin he)))

/-- A range read returns entries that are left, in their order. -/
theorem SegmentLog.Rep.ranged_left (h : Rep c calm l w) (hp : l.poisoned = false) {start : ℕ}
    {stop : Option ℕ} {entries : List LogEntry} {d' : Disk FileName} {l' : Log}
    (hx : Finishes (Step NoFail) w.disk (SegmentLog.readRange c start stop l) d'
      (.ok entries, l')) :
    entries.Sublist (leftEntries w) := by
  obtain ⟨hr, -⟩ := h.ranged hx
  have hnum : Numbered 0 (committed l w) := h.good.numbered_total.take _
  rw [rangeOf] at hr
  split_ifs at hr with hout hexpired
  · obtain rfl := Except.ok.inj hr
    exact List.nil_sublist _
  · obtain rfl := Except.ok.inj hr
    have hne : retainedEntries l w ≠ [] := by
      intro hnil
      apply hexpired
      rw [h.earliestOffset_eq, if_pos hnil]
      rfl
    have hstart : (evictedEntries w).length ≤ start := by
      rw [h.earliestOffset_eq, if_neg hne] at hexpired
      simpa using hexpired
    -- What has been evicted lies before the range.
    have hfront : (evictedEntries w).filter
        (fun e => start ≤ e.offset && stop.all (e.offset < ·)) = [] := by
      apply List.filter_eq_nil_iff.mpr
      intro e he
      obtain ⟨i, hi⟩ := List.mem_iff_getElem?.mp he
      have hlt := (List.getElem?_eq_some_iff.mp hi).1
      have hentry : (committed l w)[i]? = some e := by
        rw [h.committed_eq, List.getElem?_append_left hlt]
        exact hi
      have hoffset := hnum i e hentry
      have hbelow : ¬ start ≤ e.offset := by omega
      simp [hbelow]
    rw [h.committed_eq, List.filter_append, hfront, List.nil_append, ← h.retained_eq_left hp]
    exact List.filter_sublist

/-- Wherever the node was killed before, and whichever operations failed in calls, writes
and truncations excepted: the next start succeeds unless an index is too large to be read;
each event that was ever acknowledged reads back while its segment is left; and a detection
among them is refused when it comes again, and behind it no entry has its key with its
number or a smaller one. -/
theorem acknowledged_survive (h : Lives c Immediate acks service d) :
    (service = none → ∀ logConfig config,
      (∃ d' r, Finishes (Step NoFail) d (SegmentIngest.start c logConfig config) d' r) ∧
        ∀ d' r, Finishes (Step NoFail) d (SegmentIngest.start c logConfig config) d' r →
          ((∃ s, r = .ok s) ↔ IndexesReadable d)) ∧
    ∀ s, service = some s → ∀ offset producerId event, (offset, producerId, event) ∈ acks →
      offset < s.log.nextOffset ∧
        (Retained d offset →
          (∃ ts, ReadsBack c s.log d ⟨offset, ts, producerId, event⟩) ∧
          ∀ det, event = .detection det → StoredOnce c s d offset producerId det) := by
  obtain ⟨w, hw⟩ := h.upheld fun _ ho => ho.1
  constructor
  · intro _ logConfig config
    rw [← hw.disk]
    exact hw.good.started logConfig config
  · intro s hs offset producerId event hmem
    subst hs
    have hcalm : Rep c calm s.log w := (hw.rep s rfl).congr_mode Iff.rfl
    have hlt := hw.before s rfl _ hmem
    obtain ⟨ts, hts⟩ := hw.recorded _ hmem
    refine ⟨hlt, ?_⟩
    intro hretained
    have hleft : evictedCount w ≤ offset := by
      rw [← hw.disk] at hretained
      exact (hw.good.retained_iff (List.getElem?_eq_some_iff.mp hts).1).mp hretained
    constructor
    · rw [← hw.disk]
      exact ⟨ts, hcalm.committedReadsBack hts hlt hleft⟩
    · intro det hdet
      subst hdet
      exact hw.storedOnce hmem hleft

def firstDetection : OtkEvent := .detection (loopDetection "d1" 0 1)

def detectionCodec : Codec :=
  { encode := OtkEvent.cbor
    decode := fun bytes =>
      if bytes = firstDetection.cbor then .ok firstDetection else .error "unexpected bytes"
    crc32 := crc32
    utf8Error := fun _ => "" }

/-- Starting, storing a detection, starting again and reading. -/
theorem simulate_lives :
    ((simulate 0 (SegmentIngest.start detectionCodec {} {}) [] .empty).bind fun x =>
      x.2.toOption.bind fun s =>
        (simulate 0 (s.appendEvent detectionCodec "p" firstDetection ⟨"c"⟩ ⟨"x"⟩) [] x.1).bind
          fun y => (simulate 0 (SegmentIngest.start detectionCodec {} {}) [] y.1).bind fun z =>
            z.2.toOption.bind fun s' =>
              (simulate 0 (readRange detectionCodec 0 none s'.log) [] z.1).map fun r =>
                (decide (deriveCrossings s.processor ⟨"c"⟩ firstDetection = []), y.2.1,
                  (z.1.find (.seg 0)).isSome, r.2.1)) =
      some (true, .ok (.appended 0), true, .ok [⟨0, 0, "p", firstDetection⟩]) := by
  unfold SegmentIngest.start openDir openLog
  simp only [List.mergeSort_eq_insertionSort]
  decide +kernel

/-- A detection was acknowledged, and the node was started again. -/
theorem lives_sample (fails : Op FileName → Prop) : ∃ s d d' l',
    Lives detectionCodec fails [(0, "p", firstDetection)] (some s) d ∧ Retained d 0 ∧
      Finishes (Step NoFail) d (readRange detectionCodec 0 none s.log) d'
        (.ok [⟨0, 0, "p", firstDetection⟩], l') := by
  obtain ⟨⟨d₀, r₀⟩, hstart, hrest⟩ := Option.bind_eq_some_iff.mp simulate_lives
  obtain ⟨s₀, hs₀, hrest⟩ := Option.bind_eq_some_iff.mp hrest
  obtain ⟨⟨d₁, r₁, s₁⟩, hcall, hrest⟩ := Option.bind_eq_some_iff.mp hrest
  obtain ⟨⟨d₂, r₂⟩, hagain, hrest⟩ := Option.bind_eq_some_iff.mp hrest
  obtain ⟨s₂, hs₂, hrest⟩ := Option.bind_eq_some_iff.mp hrest
  obtain ⟨⟨d₃, r₃, l₃⟩, hread, hrest⟩ := Option.map_eq_some_iff.mp hrest
  obtain ⟨hderive, hrest⟩ := Prod.mk.inj hrest
  obtain ⟨hanswer, hrest⟩ := Prod.mk.inj hrest
  obtain ⟨hseg, hentries⟩ := Prod.mk.inj hrest
  obtain rfl := eq_ok_of_toOption hs₀
  obtain rfl := eq_ok_of_toOption hs₂
  obtain rfl : r₁ = .ok (.appended 0) := hanswer
  obtain rfl : r₃ = .ok [⟨0, 0, "p", firstDetection⟩] := hentries
  have hbatch : s₀.batch firstDetection ⟨"c"⟩ = [firstDetection] :=
    congrArg (List.cons firstDetection) (of_decide_eq_true hderive)
  have hcod : Decodes detectionCodec (s₀.batch firstDetection ⟨"c"⟩) := by
    rw [hbatch]
    intro event hevent
    obtain rfl := List.mem_singleton.mp hevent
    simp [detectionCodec]
  have hanswered : Lives detectionCodec fails ([] ++ told "p" (s₀.batch firstDetection ⟨"c"⟩)
      (.ok (.appended 0))) (some s₁) d₁ :=
    .answers (.starts .empty (finishes_of_simulate (by simp) hstart)) hcod
      (finishes_of_simulate (by simp) hcall)
  rw [hbatch] at hanswered
  obtain ⟨i, hi⟩ := Option.isSome_iff_exists.mp hseg
  exact ⟨s₂, d₂, d₃, l₃, .starts (.stops hanswered) (finishes_of_simulate (by simp) hagain),
    ⟨0, i, hi, le_rfl⟩, finishes_of_simulate (by simp) hread⟩

/-- It reads back, and a replay is refused. -/
theorem acknowledged_survive_replayed :
    ∃ s d, Lives detectionCodec Immediate [(0, "p", firstDetection)] (some s) d ∧
      (∃ ts, ReadsBack detectionCodec s.log d ⟨0, ts, "p", firstDetection⟩) ∧
      StoredOnce detectionCodec s d 0 "p" (loopDetection "d1" 0 1) := by
  obtain ⟨s, d, -, -, hlives, hleft, -⟩ := lives_sample Immediate
  obtain ⟨-, hrely⟩ := (acknowledged_survive hlives).2 s rfl 0 "p" firstDetection (by simp)
  obtain ⟨hback, honce⟩ := hrely hleft
  exact ⟨s, d, hlives, hback, honce _ rfl⟩

end Relying

end OtkCore
