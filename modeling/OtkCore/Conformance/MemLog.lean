import OtkCore.SegmentLog.History

/-!
# The reference log

The in-memory log of the conformance suite, and how far the segment log agrees
with it on bounds and on what has expired, when both receive the same appends
and the reference log is told of every eviction.
-/
namespace OtkCore.Conformance

open Effect FileIO SegmentLog

/-- Offsets below `earliestRetained` have been evicted. -/
structure MemLog where
  entries : List LogEntry
  earliestRetained : Option ℕ
  deriving DecidableEq

/-- The boundary, unless it lies behind the last entry. -/
def earliestAvailableOffset (earliest entriesLen : ℕ) : Option ℕ :=
  if earliest < entriesLen then some earliest else none

namespace MemLog

def new : MemLog := ⟨[], none⟩

def evictBelow (m : MemLog) (boundary : ℕ) : MemLog :=
  { m with earliestRetained := some (min boundary m.entries.length) }

/-- `times` are the clock's answers, one for each event. -/
def append (m : MemLog) (producerId : String) (events : List OtkEvent) (times : ℕ → ℕ) :
    Except StorageError ℕ × MemLog :=
  if events = [] then (.error (.invalidInput "events slice must not be empty"), m)
  else if producerId = "" then (.error (.invalidInput "producer_id must not be empty"), m)
  else
    let start := m.entries.length
    (.ok (start + events.length - 1),
      { m with entries := m.entries ++
          events.mapIdx fun i ev => ⟨start + i, times i, producerId, ev⟩ })

def readRange (m : MemLog) (start : ℕ) (stop : Option ℕ) :
    Except StorageError (List LogEntry) :=
  match m.earliestRetained.filter (start < ·) with
  | some earliest =>
    .error (.retentionExpired start (earliestAvailableOffset earliest m.entries.length))
  | none =>
    if start ≥ m.entries.length then .ok []
    else
      let last := min (stop.getD m.entries.length) m.entries.length
      if last ≤ start then .ok [] else .ok ((m.entries.take last).drop start)

def latestOffset (m : MemLog) : Option ℕ :=
  if m.entries = [] then none
  else
    match m.earliestRetained with
    | some earliest =>
      if earliestAvailableOffset earliest m.entries.length = none then none
      else some (m.entries.length - 1)
    | none => some (m.entries.length - 1)

def earliestOffset (m : MemLog) : Option ℕ :=
  if m.entries = [] then none
  else
    match m.earliestRetained with
    | some earliest => earliestAvailableOffset earliest m.entries.length
    | none => some 0

def subscribe (m : MemLog) (start : ℕ) : Except StorageError ℕ :=
  match m.earliestRetained.filter (start < ·) with
  | some earliest =>
    .error (.retentionExpired start (earliestAvailableOffset earliest m.entries.length))
  | none => .ok start

end MemLog

def oldestBase (d : Disk FileName) : Option ℕ :=
  (d.dir.keys.filterMap FileName.segBase?).min?

/-- The first offset that has not been evicted, seen from the directory. -/
def boundary (l : Log) (d : Disk FileName) : ℕ := (oldestBase d).getD l.nextOffset

/-- A batch within the limits that the reference log does not have. -/
structure WithinLimits (c : Codec) (n : ℕ) (producerId : String) (events : List OtkEvent) :
    Prop where
  producer : (producerIdBytes producerId).length ≤ maxProducerIdBytes
  size : ∀ ev ∈ events, (c.encode ev).length ≤ maxEventCbor
  offsets : n + events.length < 2 ^ 64

/-- Both logs receive the same appends; when segments were deleted, the
reference log is told the first offset that is left. -/
inductive Paired (c : Codec) : Log → Disk FileName → MemLog → Prop
  | fresh {config : SegmentLogConfig} {l : Log} {d : Disk FileName} :
      Finishes (Step NoFail) .empty (openDir c config) d (.ok l) → Paired c l d .new
  | append {l l' : Log} {d d' : Disk FileName} {m : MemLog} {producerId : String}
      {events : List OtkEvent} {times : ℕ → ℕ} {r : Except StorageError ℕ} :
      Paired c l d m → WithinLimits c l.nextOffset producerId events → Decodes c events →
      Finishes (Step NoFail) d (SegmentLog.append c producerId events l) d' (r, l') →
      Paired c l' d' (if boundary l' d' = boundary l d then (m.append producerId events times).2
        else (m.append producerId events times).2.evictBelow (boundary l' d'))

section Agreement

variable {c : Codec} {l l' : Log} {d d' : Disk FileName} {h : EventHistory} {w : World}

theorem mem_bases_iff (hg : Good c w) (base : ℕ) :
    base ∈ w.disk.dir.keys.filterMap FileName.segBase? ↔
      ∃ s ∈ w.ghost.live ++ w.ghost.tail.toList, s.base = base := by
  have hname : ∀ x : FileName, x.segBase? = some base ↔ x = .seg base := by
    intro x
    cases x <;> simp [FileName.segBase?]
  rw [List.mem_filterMap]
  simp only [hname, exists_eq_right, Disk.mem_keys, Option.isSome_iff_exists, hg.seg]
  constructor
  · rintro ⟨_, s, hs, hb, -⟩
    exact ⟨s, hs, hb⟩
  · rintro ⟨s, hs, hb⟩
    exact ⟨s.ino, s, hs, hb, rfl⟩

theorem boundary_eq (ht : Tracks c l d h w) : boundary l d = evictedCount w := by
  have hg := ht.rep.good
  have hchain := hg.chained_linked
  rw [boundary, oldestBase, ← ht.disk]
  cases hl : w.ghost.live ++ w.ghost.tail.toList with
  | nil =>
    have hnone : w.disk.dir.keys.filterMap FileName.segBase? = [] := by
      rw [List.eq_nil_iff_forall_not_mem]
      intro base hbase
      simpa [hl] using (mem_bases_iff hg base).mp hbase
    rw [hnone, List.min?_nil, Option.getD_none, ht.next, ← ht.total, total_of_linked_nil hl]
    rfl
  | cons s rest =>
    rw [hl] at hchain
    have hmin : (w.disk.dir.keys.filterMap FileName.segBase?).min? = some s.base := by
      rw [List.min?_eq_some_iff]
      refine ⟨(mem_bases_iff hg _).mpr ⟨s, by simp [hl], rfl⟩, fun base hbase => ?_⟩
      obtain ⟨t, htm, rfl⟩ := (mem_bases_iff hg _).mp hbase
      rw [hl] at htm
      rw [hchain.1]
      exact hchain.le_base htm
    rw [hmin, Option.getD_some]
    exact hchain.1

/-- The positions in memory are those of the whole newest segment. -/
theorem active_stop (ht : Tracks c l d h w) {a : ActiveSegment} (ha : l.active = some a) :
    ∃ s, w.ghost.tail = some s ∧ a.baseOffset = s.base ∧ a.positions.length = s.entries.length ∧
      s.base + s.entries.length = h.entries.length := by
  obtain ⟨s, z, hat, hle, hact⟩ := ht.rep.active a ha
  have hstop : s.base + s.entries.length = h.entries.length := by
    rw [← ht.total, ← hat.base, Segment.stop]
  refine ⟨s, hat.tail, hact.base, ?_, hstop⟩
  rw [hact.positions, Segment.length_positions, Segment.cut, List.length_take, ht.next]
  omega

/-- Without positions in memory there are no entries in the newest segment. -/
theorem total_of_inactive (ht : Tracks c l d h w)
    (hf : l.active.filter (fun a => a.positions ≠ []) = none) :
    h.entries = w.ghost.closed.flatMap Segment.entries := by
  have htail : ∀ s, w.ghost.tail = some s → s.entries = [] := by
    intro s hs
    cases ha : l.active with
    | none => exact ((ht.rep.idle ha).2 s hs).1
    | some a =>
      obtain ⟨t, htt, -, hlen, -⟩ := active_stop ht ha
      obtain rfl := Option.some.inj (hs.symm.trans htt)
      have hnil : a.positions = [] := by simpa [ha] using hf
      rw [hnil] at hlen
      exact List.length_eq_zero_iff.mp hlen.symm
  rw [← ht.total, Ghost.total_eq]
  cases hs : w.ghost.tail with
  | none => simp
  | some s => simp [htail s hs]

theorem getLast?_of_forall₂ {α β : Type} {R : α → β → Prop} {xs : List α} {ys : List β}
    (hall : List.Forall₂ R xs ys) {x : α} (hx : xs.getLast? = some x) :
    ∃ y, ys.getLast? = some y ∧ R x y := by
  induction hall with
  | nil => simp at hx
  | @cons a b as bs hab hrest ih =>
    cases hrest with
    | nil =>
      obtain rfl : a = x := by simpa using hx
      exact ⟨b, rfl, hab⟩
    | cons _ _ => exact ih (by simpa using hx)

theorem latestOffset_eq (ht : Tracks c l d h w) :
    l.latestOffset = if h.entries = [] then none else some (h.entries.length - 1) := by
  unfold Log.latestOffset
  cases hf : l.active.filter fun a => a.positions ≠ [] with
  | some a =>
    obtain ⟨ha, hne⟩ := Option.filter_eq_some_iff.mp hf
    obtain ⟨s, -, hbase, hlen, hstop⟩ := active_stop ht ha
    have hpos : 0 < a.positions.length := List.length_pos_of_ne_nil (by simpa using hne)
    have hnz : h.entries ≠ [] := List.ne_nil_of_length_pos (by omega)
    dsimp only
    rw [if_neg hnz, hbase, hlen, hstop]
  | none =>
    have htotal := total_of_inactive ht hf
    cases hb : l.closed.getLast? with
    | some back =>
      obtain ⟨s, hs, hrep⟩ : ∃ s, w.ghost.live.getLast? = some s ∧ ClosedRep c back s :=
        getLast?_of_forall₂ ht.rep.closed hb
      have hlive : w.ghost.live ≠ [] := by
        intro hnil
        simp [hnil] at hs
      have hchain := ht.rep.good.ok.chained
      rw [Ghost.segments, chained_append] at hchain
      rw [Ghost.live_getLast? hlive] at hs
      have hstop := hchain.1.stop_getLast? hs
      have hlast := hrep.last
      rw [hstop, Nat.zero_add, ← htotal] at hlast
      have hnz : h.entries ≠ [] := List.ne_nil_of_length_pos (by omega)
      rw [if_neg hnz]
      simp only [Option.some.injEq]
      omega
    | none =>
      simp only [ht.next, gt_iff_lt, List.length_pos_iff]
      by_cases hnil : h.entries = []
      · simp [hnil]
      · simp [hnil]

theorem isFullyEvicted_iff (ht : Tracks c l d h w) :
    l.isFullyEvicted = true ↔ h.entries ≠ [] ∧ evictedCount w = h.entries.length := by
  have hearliest := ht.earliestOffset_eq
  have hfull : l.isFullyEvicted = true ↔ 0 < l.nextOffset ∧ l.earliestOffset = none := by
    unfold Log.isFullyEvicted Log.earliestOffset
    cases l.closed with
    | cons first rest => simp
    | nil => cases l.active <;> simp [and_comm]
  rw [hfull, hearliest, ht.next, List.length_pos_iff]
  by_cases hall : evictedCount w = h.entries.length <;> simp [hall]

/-- Both logs hold as many entries, and the same number is evicted. -/
structure Agree (c : Codec) (l : Log) (d : Disk FileName) (m : MemLog) (h : EventHistory)
    (w : World) : Prop where
  tracks : Tracks c l d h w
  length : m.entries.length = h.entries.length
  evicted : m.earliestRetained.getD 0 = evictedCount w

/-- The reference log after an append that the segment log accepts. -/
theorem MemLog.append_length {m : MemLog} {producerId : String} {events : List OtkEvent}
    (hevents : events ≠ []) (hproducer : producerId ≠ "") (times : ℕ → ℕ) :
    (m.append producerId events times).2.entries.length = m.entries.length + events.length ∧
      (m.append producerId events times).2.earliestRetained = m.earliestRetained := by
  simp [MemLog.append, hevents, hproducer]

/-- Both logs accept a batch within the limits or both refuse it. -/
theorem Agree.append {m : MemLog} (hag : Agree c l d m h w) {producerId : String}
    {events : List OtkEvent} (hlimits : WithinLimits c l.nextOffset producerId events)
    (hcod : Decodes c events) {r : Except StorageError ℕ}
    (hx : Finishes (Step NoFail) d (SegmentLog.append c producerId events l) d' (r, l'))
    (times : ℕ → ℕ) :
    ∃ h' w', Tracks c l' d' h' w' ∧
      (m.append producerId events times).2.entries.length = h'.entries.length ∧
      (m.append producerId events times).2.earliestRetained = m.earliestRetained := by
  obtain ⟨ts, w', rfl, ht'⟩ | ⟨err, w', rfl, href, ht'⟩ := hag.tracks.append hcod hx
  · have hgood : ¬ (events = [] ∨ producerId = "") := by
      intro hbad
      obtain ⟨err, herr⟩ := append_refused hbad hx
      cases herr
    rw [not_or] at hgood
    obtain ⟨hlen, hret⟩ := MemLog.append_length (m := m) hgood.1 hgood.2 times
    refine ⟨_, w', ht', ?_, hret⟩
    rw [hlen, hag.length, EventHistory.entries_snoc, List.length_append,
      EventHistory.length_batchEntries]
  · have hbad : events = [] ∨ producerId = "" := by
      rw [← hag.tracks.next] at href
      rcases href with hnil | (hname | hlong | ⟨ev, hev, hbig⟩) | hover
      · exact Or.inl hnil
      · exact Or.inr hname
      · exact absurd hlimits.producer (by omega)
      · exact absurd (hlimits.size ev hev) (by omega)
      · exact absurd hlimits.offsets (by omega)
    have hsame : (m.append producerId events times).2 = m := by
      unfold MemLog.append
      split_ifs with h₁ h₂
      · rfl
      · rfl
      · exact absurd hbad (not_or.mpr ⟨h₁, h₂⟩)
    exact ⟨h, w', ht', by rw [hsame, hag.length], by rw [hsame]⟩

theorem Paired.agree {m : MemLog} (hp : Paired c l d m) : ∃ h w, Agree c l d m h w := by
  induction hp with
  | fresh hx =>
    obtain ⟨w, ht⟩ := tracks_fresh hx
    refine ⟨.empty, w, ht, rfl, ?_⟩
    have hle := ht.evictedCount_le
    exact (Nat.le_zero.mp hle).symm
  | @append l l' d d' m producerId events times r _ hlimits hcod hx ih =>
    obtain ⟨h, w, hag⟩ := ih
    obtain ⟨h', w', ht', hlen, hret⟩ := hag.append hlimits hcod hx times
    have hold := boundary_eq hag.tracks
    have hnew := boundary_eq ht'
    refine ⟨h', w', ?_⟩
    split_ifs with hsame
    · refine ⟨ht', hlen, ?_⟩
      rw [hret, hag.evicted, ← hold, ← hnew, hsame]
    · refine ⟨ht', hlen, ?_⟩
      have hle := ht'.evictedCount_le
      simp only [MemLog.evictBelow, Option.getD_some, hlen, hnew]
      omega

/-- What the reference log says, in terms of the number of evicted entries. -/
theorem Agree.expired {m : MemLog} (hag : Agree c l d m h w) (start : ℕ) :
    (m.earliestRetained.filter (start < ·)) =
      if start < evictedCount w then some (evictedCount w) else none := by
  have hev := hag.evicted
  cases hm : m.earliestRetained with
  | none =>
    rw [hm, Option.getD_none] at hev
    simp [← hev]
  | some e =>
    rw [hm, Option.getD_some] at hev
    simp [← hev, Option.filter]

theorem Agree.available {m : MemLog} (hag : Agree c l d m h w) :
    earliestAvailableOffset (evictedCount w) m.entries.length = l.earliestOffset := by
  have hle := hag.tracks.evictedCount_le
  rw [hag.tracks.earliestOffset_eq, earliestAvailableOffset, hag.length]
  split_ifs <;> first | rfl | omega

/-- Whether a call succeeds, and with which error it does not. -/
def verdict {α : Type} (r : Except StorageError α) : Except StorageError Unit := r.map fun _ => ()

theorem MemLog.readRange_verdict (m : MemLog) (start : ℕ) (stop : Option ℕ) :
    verdict (m.readRange start stop) =
      match m.earliestRetained.filter (start < ·) with
      | some earliest =>
        .error (.retentionExpired start (earliestAvailableOffset earliest m.entries.length))
      | none => .ok () := by
  unfold MemLog.readRange
  cases m.earliestRetained.filter (start < ·) with
  | some earliest => rfl
  | none =>
    dsimp only
    split_ifs <;> rfl

theorem Agree.earliestOffset {m : MemLog} (hag : Agree c l d m h w) :
    l.earliestOffset = m.earliestOffset := by
  have hav := hag.available
  have hev := hag.evicted
  have hlen := hag.length
  unfold MemLog.earliestOffset
  by_cases hnil : m.entries = []
  · rw [if_pos hnil, ← hav, earliestAvailableOffset, hnil]
    simp
  · rw [if_neg hnil]
    have hpos := List.length_pos_iff.mpr hnil
    cases hm : m.earliestRetained with
    | none =>
      rw [hm, Option.getD_none] at hev
      rw [← hav, ← hev, earliestAvailableOffset, if_pos hpos]
    | some e =>
      rw [hm, Option.getD_some] at hev
      rw [← hav, ← hev]

theorem Agree.latestOffset_iff {m : MemLog} (hag : Agree c l d m h w) :
    l.latestOffset = m.latestOffset ↔ l.isFullyEvicted = false := by
  have hfull := isFullyEvicted_iff hag.tracks
  have hle := hag.tracks.evictedCount_le
  have hnil : m.entries = [] ↔ h.entries = [] := by
    rw [← List.length_eq_zero_iff, ← List.length_eq_zero_iff, hag.length]
  have hmem : m.latestOffset =
      if h.entries = [] ∨ evictedCount w = h.entries.length then none
      else some (h.entries.length - 1) := by
    have hev := hag.evicted
    unfold MemLog.latestOffset
    rw [hag.length]
    by_cases h₁ : h.entries = []
    · rw [if_pos (hnil.mpr h₁), if_pos (Or.inl h₁)]
    rw [if_neg (mt hnil.mp h₁)]
    have hpos := List.length_pos_iff.mpr h₁
    cases hm : m.earliestRetained with
    | none =>
      rw [hm, Option.getD_none] at hev
      rw [if_neg (not_or.mpr ⟨h₁, by omega⟩)]
    | some e =>
      rw [hm, Option.getD_some] at hev
      have hcond : earliestAvailableOffset e h.entries.length = none ↔
          (h.entries = [] ∨ evictedCount w = h.entries.length) := by
        rw [earliestAvailableOffset, hev, or_iff_right h₁]
        split_ifs with hlt
        · exact iff_of_false (by simp) hlt.ne
        · exact iff_of_true rfl (by omega)
      simp only [hcond]
  rw [latestOffset_eq hag.tracks, hmem, ← Bool.not_eq_true, hfull]
  by_cases h₁ : h.entries = [] <;> by_cases h₂ : evictedCount w = h.entries.length <;> simp [h₁, h₂]

theorem Agree.subscribe {m : MemLog} (hag : Agree c l d m h w) (start : ℕ) :
    verdict (l.subscribe start) = verdict (m.subscribe start) := by
  have hle := hag.tracks.evictedCount_le
  have hnext := hag.tracks.next
  have hmem : verdict (m.subscribe start) =
      if start < evictedCount w then .error (.retentionExpired start l.earliestOffset)
      else .ok () := by
    unfold MemLog.subscribe
    rw [hag.expired]
    split_ifs with hlt
    · dsimp only
      rw [hag.available]
      rfl
    · rfl
  have hearliest := hag.tracks.earliestOffset_eq
  rw [hmem]
  unfold Log.subscribe
  by_cases hbeyond : start ≥ l.nextOffset
  · rw [if_pos hbeyond, if_neg (by omega)]
    rfl
  rw [if_neg hbeyond]
  by_cases hfull : l.isFullyEvicted = true
  · obtain ⟨-, hall⟩ := (isFullyEvicted_iff hag.tracks).mp hfull
    rw [if_pos hfull, if_pos (by omega), hearliest, if_pos hall]
    rfl
  · have hsome : evictedCount w ≠ h.entries.length := by
      intro hall
      refine hfull ((isFullyEvicted_iff hag.tracks).mpr ⟨?_, hall⟩)
      exact List.ne_nil_of_length_pos (by omega)
    rw [if_neg hfull, hearliest, if_neg hsome]
    by_cases hlt : start < evictedCount w
    · rw [if_pos hlt, if_pos (by simpa using hlt)]
      rfl
    · rw [if_neg hlt, if_neg (by simpa using hlt)]
      rfl

theorem Agree.readRange_iff {m : MemLog} (hag : Agree c l d m h w) (start : ℕ)
    (stop : Option ℕ) {r : Except StorageError (List LogEntry)}
    (hx : Finishes (Step NoFail) d (SegmentLog.readRange c start stop l) d' (r, l')) :
    verdict r = verdict (m.readRange start stop) ↔
      ¬ (stop.any (· ≤ start) = true ∧ start < l.nextOffset ∧ ¬ Retained d start) := by
  have hle := hag.tracks.evictedCount_le
  have hnext := hag.tracks.next
  have hearliest := hag.tracks.earliestOffset_eq
  have hmem : verdict (m.readRange start stop) =
      if start < evictedCount w then .error (.retentionExpired start l.earliestOffset)
      else .ok () := by
    rw [MemLog.readRange_verdict, hag.expired]
    split_ifs with hlt
    · dsimp only
      rw [hag.available]
    · rfl
  have hgone : start < l.nextOffset ∧ ¬ Retained d start ↔ start < evictedCount w := by
    constructor
    · rintro ⟨hlt, hno⟩
      rw [hag.tracks.retained_iff (by omega)] at hno
      omega
    · intro hlt
      refine ⟨by omega, ?_⟩
      rw [hag.tracks.retained_iff (by omega)]
      omega
  obtain ⟨rfl, -, -⟩ := hag.tracks.readRange hx
  rw [hmem, hgone]
  unfold rangeOf
  by_cases hempty : stop.any (· ≤ start) = true
  · rw [if_pos (Or.inl hempty)]
    by_cases hlt : start < evictedCount w
    · simp [hlt, hempty, verdict, Except.map]
    · simp [hlt, verdict, Except.map]
  · refine iff_of_true ?_ fun hboth => hempty hboth.1
    by_cases hbeyond : h.entries.length ≤ start
    · rw [if_pos (Or.inr hbeyond), if_neg (by omega)]
      rfl
    rw [if_neg (not_or.mpr ⟨hempty, hbeyond⟩), hearliest]
    by_cases hall : evictedCount w = h.entries.length
    · rw [if_pos hall, if_pos (by simp), if_pos (by omega)]
      rfl
    · rw [if_neg hall]
      by_cases hlt : start < evictedCount w
      · rw [if_pos hlt, if_pos (by simpa using hlt)]
        rfl
      · rw [if_neg hlt, if_neg (by simpa using hlt)]
        rfl

/-- In every pair of runs the two logs agree on the earliest offset and on every
subscription. They agree on the latest offset exactly while the segment log is
not fully evicted, and on a range exactly when it is not an empty one that
begins at an evicted offset. -/
theorem segmentLog_agrees_iff {m : MemLog} (hp : Paired c l d m) :
    l.earliestOffset = m.earliestOffset ∧
      (l.latestOffset = m.latestOffset ↔ l.isFullyEvicted = false) ∧
      (∀ start, verdict (l.subscribe start) = verdict (m.subscribe start)) ∧
      ∀ start stop,
        (∃ d' x, Finishes (Step NoFail) d (SegmentLog.readRange c start stop l) d' x) ∧
        ∀ d' r l', Finishes (Step NoFail) d (SegmentLog.readRange c start stop l) d' (r, l') →
          (verdict r = verdict (m.readRange start stop) ↔
            ¬ (stop.any (· ≤ start) = true ∧ start < l.nextOffset ∧ ¬ Retained d start)) := by
  obtain ⟨h, w, hag⟩ := hp.agree
  refine ⟨hag.earliestOffset, hag.latestOffset_iff, hag.subscribe, fun start stop => ⟨?_, ?_⟩⟩
  · have hfree : Free NoFail (SegmentLog.readRange c start stop) := free_readRange start stop
    obtain ⟨d', x, hx, -⟩ := (hfree l).finishes d
    exact ⟨d', x, hx⟩
  · intro d' r l' hx
    exact hag.readRange_iff start stop hx

end Agreement

/-- Every append fills a segment, and nothing is kept. -/
def nothingKept : SegmentLogConfig := { maxSegmentBytes := 1, retention := .sizeBased 0 }

theorem paired_evicted :
    ∃ d, Paired sampleCodec ⟨nothingKept, [], none, 1, false⟩ d
      ⟨[⟨0, 0, "p", sampleHealth⟩], some 1⟩ := by
  have hrun : (simulate 0 (SegmentLog.append sampleCodec "p" [sampleHealth]
      ⟨nothingKept, [], none, 0, false⟩) [] .empty).map (fun x => (x.2, boundary x.2.2 x.1)) =
        some ((.ok 0, ⟨nothingKept, [], none, 1, false⟩), 1) := by
    decide +kernel
  obtain ⟨⟨d, x⟩, hsim, hx⟩ := Option.map_eq_some_iff.mp hrun
  obtain ⟨rfl, hb⟩ := Prod.mk.inj hx
  have hlimits : WithinLimits sampleCodec 0 "p" [sampleHealth] :=
    ⟨by decide, by decide, by decide⟩
  have hstart : Paired sampleCodec ⟨nothingKept, [], none, 0, false⟩ .empty .new :=
    .fresh (finishes_openDir_empty nothingKept)
  have hpair := @Paired.append _ _ _ _ _ _ _ _ (fun _ => 0) _ hstart hlimits decodes_sample
    (finishes_of_simulate (by simp) hsim)
  have hold : boundary ⟨nothingKept, [], none, 0, false⟩ .empty = 0 := rfl
  rw [hb, hold] at hpair
  exact ⟨d, hpair⟩

theorem segmentLog_agrees_sample :
    ∃ l d m, Paired sampleCodec l d m ∧ l.earliestOffset = m.earliestOffset ∧
      ∀ start, verdict (l.subscribe start) = verdict (m.subscribe start) := by
  obtain ⟨d, hp⟩ := paired_evicted
  obtain ⟨hearliest, -, hsub, -⟩ := segmentLog_agrees_iff hp
  exact ⟨_, d, _, hp, hearliest, hsub⟩

/-- On a fully evicted log the segment log still reports a latest offset, and it
answers an empty range at an evicted offset. -/
theorem segmentLog_disagrees_when_evicted :
    ∃ l d m, Paired sampleCodec l d m ∧ l.latestOffset = some 0 ∧ m.latestOffset = none ∧
      Finishes (Step NoFail) d (SegmentLog.readRange sampleCodec 0 (some 0) l) d (.ok [], l) ∧
      m.readRange 0 (some 0) = .error (.retentionExpired 0 none) := by
  obtain ⟨d, hp⟩ := paired_evicted
  exact ⟨_, d, _, hp, rfl, rfl, ⟨[], .refl _ _⟩, rfl⟩

end OtkCore.Conformance
