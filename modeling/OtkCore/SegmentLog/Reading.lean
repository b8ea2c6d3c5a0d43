import OtkCore.SegmentLog.Opening

/-!
# Range reads

`read_range` returns the committed entries of the range, or says which offset
is the earliest one that is left.
-/
namespace OtkCore.SegmentLog

open Effect FileIO Bytes

variable {c : Codec} {m : Mode}

/-- An offset in `[start, stop)`. -/
def InRange (start stop : ℕ) (e : LogEntry) : Bool := start ≤ e.offset && e.offset < stop

/-- In a numbered list a range of offsets is a piece of the list. -/
theorem Numbered.filter_inRange {base start stop : ℕ} {es : List LogEntry} (h : Numbered base es) :
    es.filter (InRange start stop) = (es.take (stop - base)).drop (start - base) := by
  induction es generalizing base with
  | nil => simp
  | cons e es ih =>
    obtain ⟨he, hes⟩ := numbered_cons.mp h
    have ih := ih hes
    rw [List.filter_cons, ih]
    by_cases hstop : stop ≤ base
    · have h₁ : InRange start stop e = false := by
        simp [InRange, he]
        omega
      rw [h₁, show stop - base = 0 by omega, show stop - (base + 1) = 0 by omega]
      simp
    · rw [show stop - base = (stop - (base + 1)) + 1 by omega, List.take_succ_cons]
      by_cases hstart : start ≤ base
      · have h₁ : InRange start stop e = true := by
          simp [InRange, he]
          omega
        rw [h₁, show start - base = 0 by omega, show start - (base + 1) = 0 by omega]
        simp
      · have h₁ : InRange start stop e = false := by
          simp [InRange, he]
          omega
        rw [h₁, show start - base = (start - (base + 1)) + 1 by omega, List.drop_succ_cons]
        simp

/-- The entries whose positions `positionsOf` selects. -/
theorem positionsOf_positions {s : Segment} (start stop : ℕ) (hnum : Numbered s.base s.entries) :
    ∃ es fs gs, s.entries = es ++ fs ++ gs ∧ fs = s.entries.filter (InRange start stop) ∧
      (fs ≠ [] → s.base + es.length = max start s.base) ∧
      positionsOf s.base (max start s.base) (min stop s.stop) (s.positions c) =
        positionsFrom c (headerLen + (recordsBytes c es).length) fs := by
  refine ⟨s.entries.take (start - s.base),
    (s.entries.drop (start - s.base)).take (min stop s.stop - max start s.base),
    (s.entries.drop (start - s.base)).drop (min stop s.stop - max start s.base), ?_, ?_, ?_, ?_⟩
  · rw [List.append_assoc, List.take_append_drop, List.take_append_drop]
  · rw [hnum.filter_inRange, List.drop_take, List.take_eq_take_iff, List.length_drop, Segment.stop]
    omega
  · intro hne
    have hlen := List.length_pos_of_ne_nil hne
    simp only [List.length_take, List.length_drop] at hlen ⊢
    omega
  · rw [positionsOf, Segment.positions, show max start s.base - s.base = start - s.base by omega,
      drop_positionsFrom, take_positionsFrom]

section Records

variable {w : World} {s : Segment} {t : List UInt8} {ino : ℕ}

theorem safe_readRecords (hm : m.Calm) (hv : s.Valid c) (hd : w.disk.data ino = s.image c ++ t)
    {Q : Except StorageError (List LogEntry) × File → World → Prop} (fs es gs : List LogEntry)
    (hes : s.entries = es ++ fs ++ gs) (hQ : ∀ p, Q (.ok fs, ⟨ino, p⟩) w) (p : ℕ) :
    Safe (setting c m) (readRecords c (s.base + es.length)
      (positionsFrom c (headerLen + (recordsBytes c es).length) fs) ⟨ino, p⟩) Q w := by
  induction fs generalizing es p Q with
  | nil => exact hQ p
  | cons e fs ih =>
    have he : EntryOk c e := hv.entryOk e (by simp [hes])
    have hoff : e.offset = s.base + es.length := hv.numbered es.length e (by simp [hes])
    have hes' : s.entries = es ++ (e :: fs ++ gs) := by simp [hes]
    rw [positionsFrom, readRecords]
    refine Safe.bindP (safe_readRecord hm (r := .ok e) (n := payloadLen c e + 8) ?_ ?_)
    · rw [hd, drop_image_append c hes', List.cons_append, recordsBytes_cons, List.append_assoc]
      exact parse_recordBytes c he _ _
    dsimp only
    rw [if_neg (by simp [hoff])]
    have hnext := @ih (fun x w' => Q (x.1.map (e :: ·), x.2) w') (es ++ [e]) (by simp [hes]) hQ
      (headerLen + (recordsBytes c es).length + (payloadLen c e + 8))
    rw [List.length_append, List.length_singleton, ← Nat.add_assoc, recordsBytes_append,
      List.length_append, recordsBytes_cons, recordsBytes_nil, List.append_nil,
      ← Nat.add_assoc] at hnext
    refine Safe.bindP (hnext.mono ?_)
    rintro ⟨r, f⟩ w' hx
    cases r with
    | ok entries => exact hx
    | error err => exact hx

end Records

theorem filter_inRange_eq_nil {base start stop : ℕ} {es : List LogEntry} (hnum : Numbered base es)
    (h : stop ≤ base ∨ base + es.length ≤ start ∨ es = []) : es.filter (InRange start stop) = [] := by
  rw [hnum.filter_inRange, List.drop_eq_nil_iff, List.length_take]
  rcases h with h | h | rfl
  · omega
  · omega
  · simp

section Range

variable {l : Log} {w : World}

theorem Good.numbered_live (h : Good c w) {s : Segment} (hs : s ∈ w.ghost.live) :
    Numbered s.base s.entries :=
  h.ok.numbered s (by simp [Ghost.segments, Ghost.mem_live hs])

theorem Good.validLive (h : Good c w) {s : Segment} (hs : s ∈ w.ghost.live) : s.Valid c := by
  have hm : s ∈ w.ghost.segments := by simp [Ghost.segments, Ghost.mem_live hs]
  have hstop := h.ok.chained.stop_le_total hm
  have hcount := h.ok.count
  rw [Ghost.total] at hcount
  rw [Segment.stop] at hstop
  exact ⟨h.ok.created s hm, h.ok.entryOk s hm, h.ok.numbered s hm, by omega⟩

theorem safe_readSegment (hm : m.Calm) {s : Segment} {t : List UInt8} {ino : ℕ} (hv : s.Valid c)
    (hd : w.disk.data ino = s.image c ++ t) (start stop : ℕ)
    {Q : Except StorageError (List LogEntry) × File → World → Prop}
    (hQ : ∀ p, Q (.ok (s.entries.filter (InRange start stop)), ⟨ino, p⟩) w) (p : ℕ) :
    Safe (setting c m) (readRecords c (max start s.base)
      (positionsOf s.base (max start s.base) (min stop s.stop) (s.positions c)) ⟨ino, p⟩) Q w := by
  obtain ⟨es, fs, gs, hes, hfs, hfirst, hpos⟩ :=
    positionsOf_positions (c := c) start stop hv.numbered
  rw [← hfs] at hQ
  rw [hpos]
  by_cases hnil : fs = []
  · subst hnil
    exact hQ p
  · rw [← hfirst hnil]
    exact safe_readRecords hm hv hd fs es gs hes hQ p

theorem Good.readClosed (h : Good c w) (hm : m.Calm) (start stop : ℕ) {segs : List ClosedSegment}
    {xs : List Segment} (hrep : List.Forall₂ (ClosedRep c) segs xs)
    (hlive : ∀ s ∈ xs, s ∈ w.ghost.live) (hpair : xs.Pairwise fun a b => a.stop ≤ b.base)
    {Q : Except StorageError (List LogEntry) × Log → World → Prop}
    (hQ : Q (.ok ((xs.flatMap Segment.entries).filter (InRange start stop)), l) w) :
    Safe (setting c m) (SegmentLog.readClosed c start stop segs l) Q w := by
  induction hrep generalizing Q with
  | nil => exact hQ
  | @cons cs s segs xs hcs _ ih =>
    have hs := hlive s List.mem_cons_self
    have hnum := h.numbered_live hs
    have hlive' : ∀ t ∈ xs, t ∈ w.ghost.live := fun t ht => hlive t (List.mem_cons_of_mem _ ht)
    obtain ⟨hfirst, hpair'⟩ := List.pairwise_cons.mp hpair
    rw [SegmentLog.readClosed]
    have hlast := hcs.last
    rw [List.flatMap_cons, List.filter_append] at hQ
    by_cases hskip : cs.lastOffset < start
    · rw [if_pos hskip]
      rw [filter_inRange_eq_nil hnum (Or.inr (Or.inl (by rw [Segment.stop] at hlast; omega))),
        List.nil_append] at hQ
      exact ih hlive' hpair' hQ
    · rw [if_neg hskip]
      by_cases hend : cs.baseOffset ≥ stop
      · rw [if_pos hend]
        rw [hcs.base] at hend
        -- The segments after this one begin later still.
        have hrest : (xs.flatMap Segment.entries).filter (InRange start stop) = [] := by
          rw [List.filter_flatMap, List.flatMap_eq_nil_iff]
          intro t ht
          refine filter_inRange_eq_nil (h.numbered_live (hlive' t ht)) (Or.inl ?_)
          have hle := hfirst t ht
          rw [Segment.stop] at hle
          omega
        rw [filter_inRange_eq_nil hnum (Or.inl hend), hrest] at hQ
        exact hQ
      · rw [if_neg hend]
        dsimp only
        refine Safe.bindP (Safe.mapError (Safe.liftE (safe_openRead hm (fun i hi => ?_)
          fun hnone => ?_)))
        · rw [hcs.path, h.find_live hs] at hi
          obtain rfl := Option.some.inj hi
          rw [hcs.base, hcs.positions, hlast]
          have hdata := (h.closedData s (Ghost.mem_live hs)).2
          refine Safe.bindP (Safe.on (safe_readSegment hm (h.validLive hs) hdata start stop
            (fun p => ?_) 0))
          refine Safe.bindP (ih hlive' hpair' ?_)
          exact hQ
        · rw [hcs.path, h.find_live hs] at hnone
          cases hnone

def committed (l : Log) (w : World) : List LogEntry := w.ghost.total.take l.nextOffset

def activeEntries (l : Log) (w : World) : List LogEntry :=
  (w.ghost.tail.map fun s => s.entries.take (l.nextOffset - s.base)).getD []

theorem Rep.setFile (h : Rep c m l w) {f : File} (hf : ∀ a, l.active = some a → f.ino = a.file.ino) :
    Rep c m (l.setFile f) w := by
  refine ⟨h.good, h.closed, h.next, h.clean, fun hn => h.idle (by simpa [Log.setFile] using hn), ?_⟩
  intro b hb
  obtain ⟨a, ha, rfl⟩ := Option.map_eq_some_iff.mp hb
  obtain ⟨s, z, hat, hle, hact⟩ := h.active a ha
  exact ⟨s, z, hat, hle, hact.setFile ((hf a ha).trans hact.ino)⟩

theorem Rep.readActive (h : Rep c m l w) (hm : m.Calm) (start stop : ℕ)
    {Q : Except StorageError (List LogEntry) × Log → World → Prop}
    (hQ : ∀ l', Rep c m l' w → Kept l w l' w →
      Q (.ok ((activeEntries l w).filter (InRange start stop)), l') w) :
    Safe (setting c m) (SegmentLog.readActive c start stop l) Q w := by
  unfold SegmentLog.readActive
  refine Safe.getP ?_
  have hsame := hQ l h (.refl l w)
  cases ha : l.active with
  | none =>
    have hnil : activeEntries l w = [] := by
      unfold activeEntries
      cases ht : w.ghost.tail with
      | none => rfl
      | some s => simp [((h.idle ha).2 s ht).1]
    rw [hnil] at hsame
    exact hsame
  | some a =>
    obtain ⟨s, z, hat, hle, hact⟩ := h.active a ha
    have hent : activeEntries l w = (s.cut (l.nextOffset - s.base)).entries := by
      simp [activeEntries, hat.tail, Segment.cut]
    have hv := hat.valid.cut (l.nextOffset - s.base)
    have hd : w.disk.data a.file.ino = (s.cut (l.nextOffset - s.base)).image c ++
        (recordsBytes c (s.entries.drop (l.nextOffset - s.base)) ++ z) := by
      rw [hact.ino, Segment.cut_ino, hat.data, ← List.append_assoc, ← Segment.image_eq_cut]
    rw [hent] at hQ hsame
    generalize s.cut (l.nextOffset - s.base) = s' at *
    dsimp only
    have hstop : a.baseOffset + a.positions.length = s'.stop := by
      rw [hact.base, hact.positions, Segment.length_positions, Segment.stop]
    rw [hstop, hact.base, hact.positions]
    split_ifs with hcond
    · refine safe_onActive ha (safe_readSegment hm hv hd start stop (fun p => ?_) a.file.pos)
      exact hQ _ (h.setFile fun b hb => by rw [Option.some.inj (ha.symm.trans hb)])
        ⟨rfl, rfl, rfl, rfl, rfl, rfl⟩
    · rw [filter_inRange_eq_nil hv.numbered] at hsame
      · exact hsame
      · rw [Segment.stop] at hcond
        by_contra hno
        simp only [not_or, not_le] at hno
        refine hcond ⟨hno.1, fun h0 => hno.2.2 ?_, hno.2.1⟩
        exact List.length_eq_zero_iff.mp (by simpa using congrArg List.length h0)

def evictedEntries (w : World) : List LogEntry :=
  (w.ghost.closed.take w.ghost.dropped).flatMap Segment.entries

/-- The committed entries whose segment is still there. -/
def retainedEntries (l : Log) (w : World) : List LogEntry :=
  w.ghost.live.flatMap Segment.entries ++ activeEntries l w

theorem evicted_append_live (w : World) :
    evictedEntries w ++ w.ghost.live.flatMap Segment.entries =
      w.ghost.closed.flatMap Segment.entries := by
  rw [evictedEntries, Ghost.live, ← List.flatMap_append, List.take_append_drop]

theorem Chained.numbered {n : ℕ} {xs : List Segment} (h : Chained n xs)
    (hnum : ∀ s ∈ xs, Numbered s.base s.entries) : Numbered n (xs.flatMap Segment.entries) := by
  induction xs generalizing n with
  | nil => exact numbered_nil n
  | cons s xs ih =>
    obtain ⟨rfl, hrest⟩ := h
    rw [List.flatMap_cons, numbered_append]
    exact ⟨hnum s List.mem_cons_self, ih hrest fun t ht => hnum t (List.mem_cons_of_mem _ ht)⟩

theorem Good.numbered_total (h : Good c w) : Numbered 0 w.ghost.total :=
  h.ok.chained.numbered h.ok.numbered

theorem Rep.tail_base_le (h : Rep c m l w) {s : Segment} (ht : w.ghost.tail = some s) :
    s.base ≤ l.nextOffset := by
  cases ha : l.active with
  | none =>
    rw [(h.idle ha).1, h.good.ok.tail_base ht, Ghost.total_tail ht, List.length_append]
    exact Nat.le_add_right _ _
  | some a =>
    obtain ⟨t, z, hat, hle, -⟩ := h.active a ha
    obtain rfl := Option.some.inj (ht.symm.trans hat.tail)
    exact hle

theorem Rep.committed_eq (h : Rep c m l w) :
    committed l w = evictedEntries w ++ retainedEntries l w := by
  rw [retainedEntries, ← List.append_assoc, evicted_append_live, committed, activeEntries]
  cases ht : w.ghost.tail with
  | none =>
    have ha : l.active = none := by
      cases ha : l.active with
      | none => rfl
      | some a =>
        obtain ⟨s, z, hat, -⟩ := h.active a ha
        have := ht.symm.trans hat.tail
        cases this
    rw [(h.idle ha).1, List.take_length]
    simp [Ghost.total_eq, ht]
  | some s =>
    have hle := h.tail_base_le ht
    have hbase := h.good.ok.tail_base ht
    rw [Ghost.closedCount] at hbase
    rw [Ghost.total_tail ht, List.take_append, List.take_of_length_le (by omega), ← hbase]
    rfl

theorem Good.base_of_live (h : Good c w) {s : Segment} {xs : List Segment}
    (hl : w.ghost.live = s :: xs) : s.base = (evictedEntries w).length := by
  have hc := h.ok.chained
  rw [Ghost.segments, ← List.take_append_drop w.ghost.dropped w.ghost.closed, List.append_assoc,
    chained_append] at hc
  have hchain := hc.2
  rw [show w.ghost.closed.drop w.ghost.dropped = s :: xs from hl] at hchain
  simpa [evictedEntries] using hchain.1

theorem Rep.earliestOffset_eq (h : Rep c m l w) :
    l.earliestOffset = if retainedEntries l w = [] then none else some (evictedEntries w).length := by
  unfold Log.earliestOffset
  cases hc : l.closed with
  | cons first rest =>
    have hclosed := h.closed
    rw [hc] at hclosed
    generalize hl : w.ghost.live = xs at hclosed
    cases hclosed with
    | @cons _ s _ xs hf _ =>
      have hne : retainedEntries l w ≠ [] := by
        have hs := h.good.ok.nonempty s (Ghost.mem_live (by rw [hl]; simp))
        simp [retainedEntries, hl, hs]
      rw [if_neg hne]
      dsimp only
      rw [hf.base, h.good.base_of_live hl]
  | nil =>
    have hlive : w.ghost.live = [] := by
      have hclosed := h.closed
      rw [hc] at hclosed
      exact List.forall₂_nil_left_iff.mp hclosed
    have hevicted : evictedEntries w = w.ghost.closed.flatMap Segment.entries := by
      rw [← evicted_append_live, hlive]
      simp
    cases ha : l.active with
    | none =>
      have hnil : retainedEntries l w = [] := by
        rw [retainedEntries, hlive]
        unfold activeEntries
        cases ht : w.ghost.tail with
        | none => rfl
        | some s => simp [((h.idle ha).2 s ht).1]
      simp [hnil]
    | some a =>
      obtain ⟨s, z, hat, hle, hact⟩ := h.active a ha
      have hret : retainedEntries l w = s.entries.take (l.nextOffset - s.base) := by
        simp [retainedEntries, hlive, activeEntries, hat.tail]
      have hpos : a.positions = [] ↔ retainedEntries l w = [] := by
        rw [hret, hact.positions, ← List.length_eq_zero_iff, ← List.length_eq_zero_iff,
          Segment.length_positions]
        rfl
      have hbase := h.good.ok.tail_base hat.tail
      rw [Ghost.closedCount, ← hevicted] at hbase
      rw [Option.bind_some, hact.base]
      simp only [hpos, Segment.cut, hbase]

/-- The answer to a range read, given the committed entries and the earliest
offset that is left. -/
def rangeOf (entries : List LogEntry) (earliest : Option ℕ) (start : ℕ) (stop : Option ℕ) :
    Except StorageError (List LogEntry) :=
  if stop.any (· ≤ start) ∨ entries.length ≤ start then .ok []
  else if earliest.all (start < ·) then .error (.retentionExpired start earliest)
  else .ok (entries.filter fun e => start ≤ e.offset && stop.all (e.offset < ·))

/-- `read_range`. -/
theorem Rep.readRange (h : Rep c m l w) (hm : m.Calm) (start : ℕ) (stop : Option ℕ)
    {Q : Except StorageError (List LogEntry) × Log → World → Prop}
    (hQ : ∀ l', Rep c m l' w → Kept l w l' w →
      Q (rangeOf (committed l w) l.earliestOffset start stop, l') w) :
    Safe (setting c m) (SegmentLog.readRange c start stop l) Q w := by
  have hlen : (committed l w).length = l.nextOffset := by
    rw [committed, List.length_take]
    exact Nat.min_eq_left h.next
  have hsame := hQ l h (.refl l w)
  unfold rangeOf at hsame hQ
  rw [hlen] at hsame hQ
  unfold SegmentLog.readRange
  refine Safe.getP ?_
  by_cases hempty : stop.any (· ≤ start) = true
  · rw [if_pos hempty]
    rw [if_pos (Or.inl hempty)] at hsame
    exact hsame
  rw [if_neg hempty]
  by_cases hbeyond : start ≥ l.nextOffset
  · rw [if_pos hbeyond]
    rw [if_pos (Or.inr hbeyond)] at hsame
    exact hsame
  rw [if_neg hbeyond]
  rw [if_neg (by simp [hempty, hbeyond])] at hsame hQ
  have hfull : l.isFullyEvicted = true ↔ l.earliestOffset = none := by
    have hpos : 0 < l.nextOffset := by omega
    unfold Log.isFullyEvicted Log.earliestOffset
    cases l.closed with
    | cons => simp
    | nil => cases ha : l.active <;> simp [hpos]
  by_cases hnone : l.earliestOffset = none
  · rw [if_pos (hfull.mpr hnone)]
    rw [hnone] at hsame
    exact hsame
  rw [if_neg (fun hf => hnone (hfull.mp hf))]
  obtain ⟨e, he⟩ := Option.ne_none_iff_exists'.mp hnone
  rw [he] at hsame hQ ⊢
  by_cases hlt : start < e
  · rw [if_pos (by simpa using hlt)]
    rw [if_pos (by simpa using hlt)] at hsame
    exact hsame
  rw [if_neg (by simpa using hlt)]
  rw [if_neg (by simpa using hlt)] at hQ
  have hev : (evictedEntries w).length = e := by
    have := h.earliestOffset_eq
    rw [he] at this
    split_ifs at this
    exact (Option.some.inj this).symm
  have hnum : Numbered 0 (committed l w) := h.good.numbered_total.take _
  have hfilter : (committed l w).filter (fun x => start ≤ x.offset && stop.all (x.offset < ·)) =
      (w.ghost.live.flatMap Segment.entries).filter (InRange start (stop.getD (2 ^ 64 - 1))) ++
        (activeEntries l w).filter (InRange start (stop.getD (2 ^ 64 - 1))) := by
    have hcongr : (committed l w).filter (fun x => start ≤ x.offset && stop.all (x.offset < ·)) =
        (committed l w).filter (InRange start (stop.getD (2 ^ 64 - 1))) := by
      refine List.filter_congr fun x hx => ?_
      obtain ⟨i, hi, rfl⟩ := List.getElem_of_mem hx
      have hoff := hnum i _ (List.getElem?_eq_getElem hi)
      have hcount := h.good.ok.count
      have hnext := h.next
      cases stop with
      | some n => rfl
      | none =>
        simp only [InRange, Option.all_none, Option.getD_none, Bool.and_true]
        rw [decide_eq_true (p := _ < _) (by omega), Bool.and_true]
    rw [hcongr, h.committed_eq, List.filter_append, retainedEntries, List.filter_append]
    have hnum' : Numbered 0 (evictedEntries w) := by
      rw [h.committed_eq, numbered_append] at hnum
      exact hnum.1
    rw [filter_inRange_eq_nil hnum' (Or.inr (Or.inl (by omega))), List.nil_append]
  rw [hfilter] at hQ
  have hp := h.good.ok.chained.stop_le
  rw [Ghost.segments, List.pairwise_append] at hp
  refine Safe.bindP (h.good.readClosed hm start _ h.closed (fun s hs => hs)
    (hp.1.sublist (List.drop_sublist _ _)) ?_)
  refine Safe.bindP (h.readActive hm start _ fun l' hrep hk => ?_)
  exact hQ l' hrep hk

end Range

end OtkCore.SegmentLog
