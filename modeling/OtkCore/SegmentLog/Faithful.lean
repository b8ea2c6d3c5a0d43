import OtkCore.SegmentLog.History

/-!
# Faithful histories

What a caller can rely on after any calls: the accepted events are numbered
from zero in the order they came, the segments cover the retained offsets
without a gap, and range reads return exactly what was appended. A log can be
opened again as long as none of its indexes is above the size `read_index`
accepts.
-/
namespace OtkCore.SegmentLog

open Effect FileIO Bytes

/-- Half-open ranges that cover `[start, stop)` one after the other. -/
def Covers : ℕ → List (ℕ × ℕ) → ℕ → Prop
  | start, [], stop => start = stop
  | start, (a, b) :: rest, stop => a = start ∧ a ≤ b ∧ Covers b rest stop

theorem Covers.append {start mid stop : ℕ} {xs ys : List (ℕ × ℕ)} (hx : Covers start xs mid)
    (hy : Covers mid ys stop) : Covers start (xs ++ ys) stop := by
  induction xs generalizing start with
  | nil => exact hx ▸ hy
  | cons x xs ih => exact ⟨hx.1, hx.2.1, ih hx.2.2⟩

/-- The offsets of the closed segments and of the active one. -/
def Log.ranges (l : Log) : List (ℕ × ℕ) :=
  l.closed.map (fun cs => (cs.baseOffset, cs.lastOffset + 1)) ++
    (l.active.map fun a => (a.baseOffset, a.baseOffset + a.positions.length)).toList

/-- Every linked index is small enough to be read back. -/
def IndexesReadable (d : Disk FileName) : Prop :=
  ∀ base i, (d.find (.seg base)).isSome = true → d.find (.idx base) = some i →
    (d.data i).length ≤ maxIndexBytes

section Shape

variable {c : Codec} {m m' : Mode} {l : Log} {w : World}

/-- Only whether readers follow matters to the representation. -/
theorem Rep.congr_mode (h : Rep c m l w) (hs : m'.strict ↔ m.strict) : Rep c m' l w := by
  refine ⟨h.good, h.closed, h.next, h.clean, fun ha => ⟨(h.idle ha).1, fun s ht => ?_⟩, fun a ha => ?_⟩
  · rw [hs]
    exact (h.idle ha).2 s ht
  · obtain ⟨s, z, hat, hrest⟩ := h.active a ha
    exact ⟨s, z, ⟨hat.good, hat.tail, hat.data, hat.short, fun hst => hat.strict (hs.mp hst)⟩, hrest⟩

theorem Chained.covers {n : ℕ} {segs : List ClosedSegment} {xs : List Segment} (h : Chained n xs)
    (hrep : List.Forall₂ (ClosedRep c) segs xs) :
    Covers n (segs.map fun cs => (cs.baseOffset, cs.lastOffset + 1))
      (n + (xs.flatMap Segment.entries).length) := by
  induction hrep generalizing n with
  | nil => rfl
  | @cons cs s segs xs hcs _ ih =>
    have hstop : s.stop = n + s.entries.length := by rw [Segment.stop, h.1]
    refine ⟨hcs.base.trans h.1, ?_, ?_⟩
    · rw [hcs.base, hcs.last, Segment.stop]
      exact Nat.le_add_right _ _
    · have hrest := ih h.2
      rw [List.flatMap_cons, List.length_append, ← Nat.add_assoc, ← hstop]
      rwa [hcs.last]

theorem Rep.covers (h : Rep c m l w) :
    Covers (evictedEntries w).length l.ranges l.nextOffset := by
  have hchain := h.good.chained_linked
  rw [chained_append] at hchain
  refine (hchain.1.covers h.closed).append ?_
  cases ha : l.active with
  | none =>
    obtain ⟨hnext, hidle⟩ := h.idle ha
    have hcommitted := h.committed_eq
    have htotal : committed l w = w.ghost.total := by
      rw [committed, hnext, List.take_length]
    have hactive : activeEntries l w = [] := by
      cases ht : w.ghost.tail with
      | none => simp [activeEntries, ht]
      | some s => simp [activeEntries, ht, (hidle s ht).1]
    rw [htotal, retainedEntries, hactive, List.append_nil] at hcommitted
    change _ = l.nextOffset
    rw [hnext, hcommitted, List.length_append]
  | some a =>
    obtain ⟨s, z, hat, hle, hmem⟩ := h.active a ha
    rw [hat.tail] at hchain
    have hbase := hchain.2.1
    have hstop := hat.base
    have hnext := h.next
    have hcount : a.positions.length = l.nextOffset - s.base := by
      rw [hmem.positions, Segment.length_positions]
      simp only [Segment.cut, List.length_take]
      rw [Segment.stop] at hstop
      omega
    have hab : a.baseOffset = s.base := hmem.base
    refine ⟨hab.trans hbase, Nat.le_add_right _ _, ?_⟩
    change _ = l.nextOffset
    omega

theorem Good.indexesFit_iff (h : Good c w) : IndexesFit w ↔ IndexesReadable w.disk := by
  constructor
  · intro hfit base i hseg hidx
    obtain ⟨j, hj⟩ := Option.isSome_iff_exists.mp hseg
    obtain ⟨t, ht, rfl, -⟩ := (h.seg base j).mp hj
    obtain ⟨s, hs, hbase, hdata⟩ := h.idxData _ i hidx
    rcases List.mem_append.mp ht with hlive | htail
    · obtain rfl := h.ok.closed_inj hs (Ghost.mem_live hlive) hbase
      rw [hdata, length_indexBytes, Segment.length_positions]
      exact hfit s hlive
    · rw [h.idx_tail (by simpa using htail)] at hidx
      simp at hidx
  · intro hread s hs
    obtain ⟨i, hi⟩ := Option.isSome_iff_exists.mp (h.idx s hs)
    obtain ⟨t, ht, hbase, hdata⟩ := h.idxData _ i hi
    obtain rfl := h.ok.closed_inj ht (Ghost.mem_live hs) hbase
    have hlen := hread t.base i (by rw [h.find_live hs]; rfl) hi
    rwa [hdata, length_indexBytes, Segment.length_positions] at hlen

/-- Opening a directory again: it gives a log of the same entries, or an index
is too large to be read. -/
theorem Good.reopen (h : Good c w) (config : SegmentLogConfig) :
    (∃ d r, Finishes (Step NoFail) w.disk (SegmentLog.openDir c config) d r) ∧
      ∀ d r, Finishes (Step NoFail) w.disk (SegmentLog.openDir c config) d r →
        (IndexesReadable w.disk ∧ ∃ l w', r = .ok l ∧ w'.disk = d ∧ Rep c calm l w' ∧
            l.poisoned = false ∧ w'.ghost.total = w.ghost.total ∧
            evictedEntries w' = evictedEntries w) ∨
          ¬ IndexesReadable w.disk ∧ ∃ msg, r = .error (.corrupted msg) := by
  constructor
  · obtain ⟨d, r, hx, -⟩ := (flows_openDir (c := c) config).finishes w.disk
    exact ⟨d, r, hx⟩
  · intro d r hx
    rw [← h.indexesFit_iff]
    obtain ⟨w', hd, hQ⟩ := finishes_calm hx rfl (h.openDir calm_calm trivial config
      (Q := fun r w' => (IndexesFit w ∧ ∃ l, r = .ok l ∧ Rep c calm l w' ∧ l.poisoned = false ∧
          w'.ghost.total = w.ghost.total ∧ evictedEntries w' = evictedEntries w) ∨
        ¬ IndexesFit w ∧ ∃ msg, r = .error (.corrupted msg))
      (fun hfit l w₁ hrep _ hp htotal hclosed hdropped => Or.inl ⟨hfit, l, rfl, hrep, hp, htotal, by
        rw [evictedEntries, evictedEntries, hclosed, hdropped]⟩)
      fun hbig msg => Or.inr ⟨hbig, msg, rfl⟩)
    rcases hQ with ⟨hfit, l, hr, hrest⟩ | hbig
    · exact Or.inl ⟨hfit, l, w', hr, hd, hrest⟩
    · exact Or.inr hbig

end Shape

/-- The events of the successful appends with their producers. -/
def acceptedEvents (calls : List Call) : List (String × OtkEvent) :=
  (calls.filterMap Call.accepted).flatMap fun b => b.2.map fun event => (b.1, event)

theorem map_entriesFrom (n : ℕ) (bs : List Batch) :
    (EventHistory.entriesFrom n bs).map (fun e => (e.producerId, e.event)) =
      (bs.map fun b => (b.producerId, b.events)).flatMap
        fun b => b.2.map fun event => (b.1, event) := by
  induction bs generalizing n with
  | nil => rfl
  | cons b bs ih =>
    rw [EventHistory.entriesFrom, List.map_append, ih, List.map_cons, List.flatMap_cons]
    congr 1
    rw [EventHistory.batchEntries, List.mapIdx_eq_zipIdx_map, List.map_map]
    conv_rhs => rw [← List.zipIdx_map_fst 0 b.events, List.map_map]
    rfl

section Histories

variable {c : Codec} {l : Log} {d : Disk FileName} {calls : List Call}

theorem map_entries {h : EventHistory}
    (hacc : h.batches.map (fun b => (b.producerId, b.events)) = calls.filterMap Call.accepted) :
    h.entries.map (fun e => (e.producerId, e.event)) = acceptedEvents calls := by
  rw [EventHistory.entries, map_entriesFrom, hacc, acceptedEvents]

theorem Runs.acknowledged (hruns : Runs c calls l d) (hcod : ∀ x ∈ calls, Decodes c x.events)
    {before after : List Call} {producerId : String} {events : List OtkEvent} {n : ℕ}
    (hcalls : calls = before ++ .append producerId events (.ok n) :: after) :
    n + 1 = (acceptedEvents (before ++ [.append producerId events (.ok n)])).length := by
  induction hruns generalizing after with
  | fresh => simp at hcalls
  | @call calls l l' d d' x hruns hcall ih =>
    have hcod' : ∀ y ∈ calls, Decodes c y.events := fun y hy => hcod y (List.mem_append_left _ hy)
    rcases List.eq_nil_or_concat after with rfl | ⟨after', y, rfl⟩
    · obtain ⟨rfl, hx⟩ := List.append_inj' hcalls rfl
      obtain rfl := List.singleton_inj.mp hx
      obtain ⟨h, w, ht, hacc⟩ := hruns.tracks hcod'
      have hdec : Decodes c events := hcod (.append producerId events (.ok n)) (by simp)
      have hmap := congrArg List.length (map_entries hacc)
      rw [List.length_map] at hmap
      have hnew : (acceptedEvents (calls ++ [.append producerId events (.ok n)])).length =
          (acceptedEvents calls).length + events.length := by
        simp [acceptedEvents, Call.accepted]
      cases hcall with
      | append hx =>
        have hne : events ≠ [] := by
          intro hnil
          obtain ⟨err, herr⟩ := append_refused (Or.inl hnil) hx
          simp at herr
        have hpos := List.length_pos_of_ne_nil hne
        obtain ⟨ts, w', hr, -⟩ | ⟨err, w', hr, -⟩ := ht.append hdec hx
        · have hn := Except.ok.inj hr
          omega
        · simp at hr
    · rw [List.concat_eq_append, ← List.cons_append, ← List.append_assoc] at hcalls
      exact ih hcod' (List.append_inj_left' hcalls rfl)

/-- After any calls that started from an empty directory: the accepted events
are numbered in order, the segments cover the retained offsets, range reads
return what was appended, and the log can be opened again unless an index has
become too large. -/
theorem history_faithful (hruns : Runs c calls l d) (hcod : ∀ x ∈ calls, Decodes c x.events) :
    ∃ (entries : List LogEntry) (earliest : ℕ),
      entries.map (fun e => (e.producerId, e.event)) = acceptedEvents calls ∧
      (∀ i (e : LogEntry), entries[i]? = some e → e.offset = i) ∧
      (∀ before producerId events n after,
        calls = before ++ .append producerId events (.ok n) :: after →
        n + 1 = (acceptedEvents (before ++ [.append producerId events (.ok n)])).length) ∧
      l.nextOffset = entries.length ∧
      Covers earliest l.ranges l.nextOffset ∧
      l.earliestOffset = (if earliest = l.nextOffset then none else some earliest) ∧
      (∀ start (stop : Option ℕ), stop.all (start < ·) = true →
        (∃ d' x, Finishes (Step NoFail) d (readRange c start stop l) d' x) ∧
        ∀ d' r l', Finishes (Step NoFail) d (readRange c start stop l) d' (r, l') →
          r = if earliest ≤ start ∨ l.nextOffset ≤ start
            then .ok (entries.filter fun e => start ≤ e.offset && stop.all (e.offset < ·))
            else .error (.retentionExpired start l.earliestOffset)) ∧
      ∀ config,
        (∃ d' r, Finishes (Step NoFail) d (openDir c config) d' r) ∧
        ∀ d' r, Finishes (Step NoFail) d (openDir c config) d' r →
          ((∃ l', r = .ok l') ↔ IndexesReadable d) := by
  obtain ⟨h, w, ht, hacc⟩ := hruns.tracks hcod
  have hnum := ht.numbered
  have hcovers := ht.rep.covers
  have hearliest := ht.earliestOffset_eq
  rw [← ht.next] at hearliest
  refine ⟨h.entries, evictedCount w, map_entries hacc, fun i e he => ?_,
    fun before producerId events n after hcalls => hruns.acknowledged hcod hcalls, ht.next, hcovers,
    hearliest, fun start stop hstop => ⟨?_, fun d' r l' hx => ?_⟩, fun config => ?_⟩
  · simpa using hnum i e he
  · have hfree : Free NoFail (readRange c start stop) := free_readRange start stop
    obtain ⟨d', x, hx, -⟩ := (hfree l).finishes d
    exact ⟨d', x, hx⟩
  · obtain ⟨rfl, -, -⟩ := ht.readRange hx
    have hany : stop.any (· ≤ start) = false := by
      cases stop with
      | none => rfl
      | some n => simpa using hstop
    rw [rangeOf, hany, hearliest, ← ht.next]
    by_cases hend : l.nextOffset ≤ start
    · have hnil : h.entries.filter (fun e => start ≤ e.offset && stop.all (e.offset < ·)) = [] := by
        rw [List.filter_eq_nil_iff]
        intro e he
        obtain ⟨i, hi, rfl⟩ := List.getElem_of_mem he
        have hoff := hnum i _ (List.getElem?_eq_getElem hi)
        rw [ht.next] at hend
        simp only [Bool.and_eq_true, decide_eq_true_eq, not_and]
        omega
      rw [if_pos (Or.inr hend), if_pos (Or.inr hend), hnil]
    · rw [if_neg (by simp [hend])]
      by_cases hall : evictedCount w = l.nextOffset
      · rw [if_pos hall, if_pos (by rfl), if_neg (by omega)]
      · simp only [if_neg hall, Option.all_some, decide_eq_true_eq]
        by_cases hlt : start < evictedCount w
        · rw [if_pos hlt, if_neg (by omega)]
        · rw [if_neg hlt, if_pos (Or.inl (by omega))]
  · have hopen := ht.rep.good.reopen config
    rw [ht.disk] at hopen
    refine ⟨hopen.1, fun d' r hx => ?_⟩
    rcases hopen.2 d' r hx with ⟨hread, l', -, rfl, -⟩ | ⟨hbig, msg, rfl⟩
    · simp [hread]
    · simp [hbig]

end Histories

theorem Runs.reopen {c : Codec} {l : Log} {d : Disk FileName} {calls : List Call}
    (hruns : Runs c calls l d) (hcod : ∀ x ∈ calls, Decodes c x.events)
    (hsmall : ∀ i < d.next, (d.data i).length ≤ maxIndexBytes) (config : SegmentLogConfig) :
    ∃ l' d', Runs c (calls ++ [.reopen config]) l' d' := by
  obtain ⟨h, w, ht, -⟩ := hruns.tracks hcod
  have hopen := ht.rep.good.reopen config
  have hread : IndexesReadable w.disk := by
    intro base i _ hi
    have hlt := ht.rep.good.tidy.bound _ _ hi
    rw [ht.disk] at hlt ⊢
    exact hsmall i hlt
  rw [ht.disk] at hopen hread
  obtain ⟨⟨d', r, hx⟩, hall⟩ := hopen
  rcases hall d' r hx with ⟨-, l', -, rfl, -⟩ | ⟨hbig, -⟩
  · exact ⟨l', d', hruns.call (.reopen hx)⟩
  · exact absurd hread hbig

/-- Three appends close three segments; the third evicts the first two events. -/
def evictingCalls : List Call :=
  [.append "p" [sampleHealth, sampleHealth] (.ok 1), .append "q" [sampleHealth] (.ok 2),
    .readRange 1 (some 3) (.ok [⟨1, 0, "p", sampleHealth⟩, ⟨2, 0, "q", sampleHealth⟩]),
    .append "r" [sampleHealth] (.ok 3), .readRange 1 none (.error (.retentionExpired 1 (some 2)))]

theorem replay_evictingCalls :
    (replayCalls sampleCodec 0 evictingCalls (evicting, .empty)).map (fun x =>
      (x.1.earliestOffset, (List.range x.2.next).all fun i => (x.2.data i).length ≤ 256)) =
        some (some 2, true) := by
  decide +kernel

theorem history_faithful_sample :
    ∃ l d, Runs sampleCodec (evictingCalls ++ [.reopen {}]) l d ∧ l.nextOffset = 4 ∧
      ∃ earliest, Covers earliest l.ranges 4 := by
  obtain ⟨⟨l, d⟩, hreplay, hx⟩ := Option.map_eq_some_iff.mp replay_evictingCalls
  have hsmall := (Prod.mk.inj hx).2
  rw [List.all_eq_true] at hsmall
  obtain ⟨l', d', hruns⟩ := (runs_evicting.replay hreplay).reopen (decodes_calls (by decide))
    (fun i hi => (of_decide_eq_true (hsmall i (List.mem_range.mpr hi))).trans (by decide)) {}
  obtain ⟨entries, earliest, hmap, -, -, hnext, hcovers, -⟩ := history_faithful hruns
    (decodes_calls (by decide))
  have hlen := congrArg List.length hmap
  rw [List.length_map] at hlen
  have hfour : l'.nextOffset = 4 := hnext.trans (hlen.trans rfl)
  rw [hfour] at hcovers
  exact ⟨l', d', hruns, hfour, earliest, hcovers⟩

/-- One event more than the largest readable index has entries. -/
def oversizedBatch : List OtkEvent := List.replicate (2 ^ 25 + 1) sampleHealth

theorem mem_oversizedBatch {ev : OtkEvent} (h : ev ∈ oversizedBatch) : ev = sampleHealth :=
  (List.mem_replicate.mp h).2

theorem length_oversizedBatch : oversizedBatch.length = 2 ^ 25 + 1 := List.length_replicate

theorem decodes_oversized : Decodes sampleCodec oversizedBatch := fun ev hev => by
  rw [mem_oversizedBatch hev]
  exact decodes_sample _ (by simp)

/-- An empty log that closes a segment after every append. -/
def ageless : Log := ⟨{ maxSegmentAgeSecs := 0 }, [], none, 0, false⟩

theorem roomy_oversized : Roomy sampleCodec "p" oversizedBatch ageless := by
  have hlen : eventsLen sampleCodec "p" oversizedBatch = (2 ^ 25 + 1) * (31 + healthBytes.length) := by
    rw [eventsLen, oversizedBatch, List.map_replicate, List.sum_replicate_nat]
    rfl
  constructor
  · rw [hlen]
    decide
  · rw [length_oversizedBatch]
    decide

theorem not_refused_oversized (h : Refused sampleCodec 0 "p" oversizedBatch) : False := by
  rcases h with hnil | ⟨hname | hlong | ⟨ev, hev, hbig⟩⟩ | hcount
  · have hlen := congrArg List.length hnil
    rw [length_oversizedBatch] at hlen
    simp at hlen
  · simp at hname
  · exact absurd hlong (by decide)
  · rw [mem_oversizedBatch hev] at hbig
    exact absurd hbig (by decide)
  · rw [length_oversizedBatch] at hcount
    exact absurd hcount (by decide)

theorem finishes_oversized :
    ∃ l d, Finishes (Step NoFail) .empty (append sampleCodec "p" oversizedBatch ageless) d
      (.ok (2 ^ 25), l) ∧ ¬ IndexesReadable d := by
  obtain ⟨d, ⟨r, l⟩, hx, hcloses⟩ := (flows_append roomy_oversized).finishes .empty
  obtain ⟨w₀, ht₀⟩ := tracks_fresh (c := sampleCodec) (finishes_openDir_empty ageless.config)
  obtain ⟨ts, w, hr, ht⟩ | ⟨err, w, -, href, -⟩ := ht₀.append decodes_oversized hx
  · have hlast : r = .ok (2 ^ 25) := by
      rw [hr, length_oversizedBatch]
      rfl
    subst hlast
    refine ⟨l, d, hx, ?_⟩
    obtain ⟨cs, hcs, hclosed⟩ := hcloses rfl rfl _ rfl
    have hrep := ht.rep.closed
    rw [show l.closed = [cs] from hclosed] at hrep
    obtain ⟨s, xs, hs, -, hlive⟩ := List.forall₂_cons_left_iff.mp hrep
    rw [← ht.disk, ← ht.rep.good.indexesFit_iff]
    intro hfit
    have hbound := hfit s (by rw [hlive]; exact List.mem_cons_self)
    rw [hs.positions, Segment.length_positions] at hcs
    rw [hcs, length_oversizedBatch] at hbound
    exact absurd hbound (by decide)
  · exact (not_refused_oversized href).elim

/-- A log whose every file is intact is not opened again. -/
theorem history_not_reopened :
    ∃ l d, Runs sampleCodec [.append "p" oversizedBatch (.ok (2 ^ 25))] l d ∧
      ∀ config d' r, Finishes (Step NoFail) d (openDir sampleCodec config) d' r →
        ∃ msg, r = .error (.corrupted msg) := by
  obtain ⟨l, d, hx, hbig⟩ := finishes_oversized
  have hruns : Runs sampleCodec [.append "p" oversizedBatch (.ok (2 ^ 25))] l d :=
    .call (.fresh (finishes_openDir_empty _)) (.append hx)
  obtain ⟨h, w, ht, -⟩ := hruns.tracks (by simpa [Call.events] using decodes_oversized)
  refine ⟨l, d, hruns, fun config d' r hx => ?_⟩
  have hopen := ht.rep.good.reopen config
  rw [ht.disk] at hopen
  rcases hopen.2 d' r hx with ⟨hread, -⟩ | ⟨-, hmsg⟩
  · exact absurd hread hbig
  · exact hmsg

end OtkCore.SegmentLog
