import OtkCore.SegmentLog.Appending

/-!
# Rolling and retention

What follows a commit: the sentinel, the index, the watermark and the deletion
of old segments. None of it changes the stored entries; wherever it fails, the
log in memory still agrees with the directory.
-/
namespace OtkCore.SegmentLog

open Effect FileIO Bytes

variable {c : Codec} {m : Mode}

/-- Configuration, committed count and stored entries are the same, segments
may have been closed or deleted. -/
structure Rolled (l : Log) (w : World) (l' : Log) (w' : World) : Prop where
  config : l'.config = l.config
  next : l'.nextOffset = l.nextOffset
  poisoned : l'.poisoned = l.poisoned
  total : w'.ghost.total = w.ghost.total

theorem Rolled.refl (l : Log) (w : World) : Rolled l w l w := ⟨rfl, rfl, rfl, rfl⟩

theorem Rolled.trans {l₁ l₂ l₃ : Log} {w₁ w₂ w₃ : World} (h : Rolled l₁ w₁ l₂ w₂)
    (h' : Rolled l₂ w₂ l₃ w₃) : Rolled l₁ w₁ l₃ w₃ :=
  ⟨h'.config.trans h.config, h'.next.trans h.next, h'.poisoned.trans h.poisoned,
    h'.total.trans h.total⟩

structure Scratched (c : Codec) (w w' : World) : Prop where
  good : Good c w'
  ghost : w'.ghost = w.ghost
  same : ∀ y i, y.isTmp = false → w.disk.find y = some i →
    w'.disk.find y = some i ∧ w'.disk.data i = w.disk.data i

section Scratch

variable {w : World}

theorem Good.scratched (h : Good c w) : Scratched c w w := ⟨h, rfl, fun _ _ _ hi => ⟨hi, rfl⟩⟩

theorem Scratched.trans {w₁ w₂ : World} (h : Scratched c w w₁) (h' : Scratched c w₁ w₂) :
    Scratched c w w₂ := by
  refine ⟨h'.good, h'.ghost.trans h.ghost, fun y i hy hi => ?_⟩
  obtain ⟨h₁, hd₁⟩ := h.same y i hy hi
  obtain ⟨h₂, hd₂⟩ := h'.same y i hy h₁
  exact ⟨h₂, hd₂.trans hd₁⟩

theorem Scratched.tailData {w₁ : World} (h : Scratched c w w₁) (hg : Good c w) {s : Segment}
    (ht : w.ghost.tail = some s) : w₁.disk.data s.ino = w.disk.data s.ino :=
  (h.same (.seg s.base) s.ino rfl (hg.find_tail ht)).2

theorem Scratched.guar {w₁ : World} (hg : Good c w) (h : Scratched c w w₁) {o : Op FileName}
    {r : Resp o} (hm : Move c o w w₁) : (setting c m).guar w o r w₁ :=
  guar_of_ghost hm h.ghost fun _ hs => h.tailData hg hs

theorem Good.scratched_setData (h : Good c w) {x : FileName} {i : ℕ} {bytes : List UInt8}
    (hx : x.isTmp = true) (hi : w.disk.find x = some i) (hb : bytes.length ≤ maxFileLen) :
    Scratched c w ⟨w.disk.setData i bytes, w.ghost⟩ := by
  refine ⟨h.scratch hx hi hb, rfl, fun y j hy hj => ⟨hj, ?_⟩⟩
  rw [Disk.data_setData, if_neg]
  rintro rfl
  rw [h.tidy.inj _ _ _ hi hj] at hx
  simp [hx] at hy

theorem Good.scratched_create (h : Good c w) {x : FileName} (hx : x.isTmp = true) :
    Scratched c w ⟨w.disk.create x, w.ghost⟩ := by
  refine ⟨h.scratchOpen hx, rfl, fun y j hy hj => ⟨?_, ?_⟩⟩
  · rw [Disk.find_create, if_neg, hj]
    rintro rfl
    simp [hx] at hy
  · have := h.tidy.bound _ _ hj
    rw [Disk.data_create, if_neg (by omega)]

/-- A file written under a temporary name and renamed into place. -/
theorem safe_replace {σ : Type} {st : σ} (hg : Good c w) {x y : FileName} (hx : x.isTmp = true)
    (bytes : List UInt8) {Q : Except StorageError Unit × σ → World → Prop}
    (hok : ∀ w₁ i, Scratched c w w₁ → w₁.disk.find x = some i → w₁.disk.data i = bytes →
      ∃ w₂, w₂.disk = w₁.disk.rename x y i ∧ (setting c m).guar w₁ (.rename x y) (.ok ()) w₂ ∧
        Q (.ok (), st) w₂)
    (herr : (∃ o, m.fails o) → ∀ err w₁, Scratched c w w₁ → Q (.error err, st) w₁) :
    Safe (setting c m) ((do
      let ino ← call (Prog.op (Op.openWrite x true))
      let (_, tmp) ← (onFile (File.writeAll _ bytes)).on ⟨ino, 0⟩
      let _ ← (onFile (File.sync _)).on tmp
      call (Prog.op (Op.rename x y))
      let _ ← Proc.lift (Prog.op Op.syncDir) : Io σ Unit) st) Q w := by
  -- The rest, once the temporary file is there and empty.
  have hrest : ∀ w₁ i, Scratched c w w₁ → w₁.disk.find x = some i → w₁.disk.data i = [] →
      Safe (setting c m) ((do
        let (_, tmp) ← (onFile (File.writeAll _ bytes)).on ⟨i, 0⟩
        let _ ← (onFile (File.sync _)).on tmp
        call (Prog.op (Op.rename x y))
        let _ ← Proc.lift (Prog.op Op.syncDir) : Io σ Unit) st) Q w₁ := by
    intro w₁ i h₁ hi hd
    refine Safe.bindP (Safe.on (Safe.mapError (quiet_setting.writeAll (P := fun j w' =>
      Scratched c w w' ∧ w'.disk.find x = some i ∧ w'.disk.data i = bytes.take j) ?_ ?_ ?_ ?_)))
    · rintro j k w' ⟨hs, hf, hd'⟩ hk hjk hmax
      have htake : (bytes.take j).length = 0 + j := by
        simp only [List.length_take]
        omega
      have hlen : (bytes.take (j + k)).length ≤ maxFileLen := by
        simp only [List.length_take]
        omega
      have hs' := hs.good.scratched_setData hx hf hlen
      refine ⟨⟨w'.disk.setData i (bytes.take (j + k)), w'.ghost⟩, ?_,
        hs'.guar hs.good (.scratch _ hx hf hlen), hs.trans hs', hf, by simp⟩
      change _ = w'.disk.setData i (patch (w'.disk.data i) _ _)
      rw [hd', ← htake, patch_append, ← List.take_add]
      rfl
    · rintro w' ⟨hs, hf, hd'⟩
      rw [List.take_length] at hd'
      refine Safe.bindP (Safe.on (Safe.mapError (safe_sync ?_ fun hfl => herr ⟨_, hfl⟩ _ _ hs)))
      refine Safe.bindP (Safe.mapError (Safe.liftE (quiet_setting.op fun r d' hst => ?_)))
      obtain hst | ⟨hfl, rfl, rfl⟩ := hst
      · simp only [setting, hf] at hst
        obtain ⟨rfl, rfl⟩ := hst
        obtain ⟨w₂, hv, hguar, hQ⟩ := hok w' i hs hf hd'
        exact ⟨w₂, hv, hguar, Safe.bindP (safe_syncDir fun r => hQ)⟩
      · exact ⟨w', rfl, quiet_setting.stay _ _ _, herr ⟨_, hfl⟩ _ _ hs⟩
    · rintro j w' ⟨hs, -, -⟩ - hfl k
      exact herr ⟨_, hfl⟩ _ _ hs
    · exact ⟨h₁, hi, by simpa using hd⟩
  refine Safe.bindP (Safe.mapError (Safe.liftE (quiet_setting.op fun r d' hs => ?_)))
  obtain hs | ⟨hf, rfl, rfl⟩ := hs
  · cases hfind : w.disk.find x with
    | none =>
      simp only [setting, hfind] at hs
      obtain ⟨rfl, rfl⟩ := hs
      have hsc := hg.scratched_create hx
      exact ⟨_, rfl, hsc.guar hg (.scratchOpen hx hfind), hrest _ _ hsc (by simp) (by simp)⟩
    | some i =>
      simp only [setting, hfind] at hs
      obtain ⟨rfl, rfl⟩ := hs
      have hlen : ([] : List UInt8).length ≤ maxFileLen := by simp
      have hsc := hg.scratched_setData hx hfind hlen
      exact ⟨⟨w.disk.setData i [], w.ghost⟩, rfl, hsc.guar hg (.scratch _ hx hfind (by simp)),
        hrest _ _ hsc hfind (by simp)⟩
  · exact ⟨w, rfl, quiet_setting.stay _ _ _, herr ⟨_, hf⟩ _ _ hg.scratched⟩

end Scratch

section Sentinel

variable {l : Log} {w : World} {s : Segment} {a : ActiveSegment} {z : List UInt8}

/-- The world with `j` bytes of the sentinel written. -/
def World.marked (w : World) (c : Codec) (s : Segment) (j : ℕ) : World :=
  w.setTail s (s.image c ++ sentinel.take j)

@[simp] theorem length_sentinel : sentinel.length = 4 := by simp [sentinel]

theorem AtTail.guar_marked (h : AtTail c m w s []) {j k : ℕ} (hjk : j + k ≤ 4)
    (hmax : (s.image c).length + j + k ≤ maxFileLen) {o : Op FileName} {r : Resp o} :
    (setting c m).guar (w.marked c s j) o r (w.marked c s (j + k)) := by
  refine ⟨?_, id, fun _ t t' ht ht' => ?_⟩
  · have himg : OpenImage c s (s.image c ++ sentinel.take (j + k)) := by
      refine Or.inr ⟨_, rfl, ?_⟩
      by_cases hlt : j + k < 4
      · left
        simp only [List.length_take, length_sentinel]
        omega
      · right; left
        rw [List.take_of_length_le (by simp only [length_sentinel]; omega)]
    have hlen : (s.image c ++ sentinel.take (j + k)).length ≤ maxFileLen := by
      rw [List.length_append, List.length_take, length_sentinel]
      omega
    have hmove := Move.setTail (c := c) (w := w.marked c s j) (World.setTail_tail _) rfl rfl
      h.valid himg hlen o
    rwa [World.marked, World.setTail_setTail rfl] at hmove
  · obtain rfl := Option.some.inj ht
    obtain rfl := Option.some.inj ht'
    left
    rw [World.marked, World.marked, World.setTail_data, World.setTail_data]
    refine ⟨?_, List.prefix_refl _, rfl⟩
    exact (List.prefix_append_right_inj _).mpr (List.take_prefix_take_left (by omega))

/-- Cutting the file of an unchanged segment back to its records. -/
theorem Holds.cutBack (h : Holds c m l w a s z) (hm : m.Undoes) (hU : m.allowed w.ghost.total)
    {w₁ : World} (hghost : w₁.ghost = w.ghost) (hg : Good c w₁) {bytes : List UInt8}
    (hd : w₁.disk.data s.ino = s.image c ++ bytes) (hstrict : ¬ m.strict) {p : ℕ}
    {Q : Except IoErrorKind Unit × File → World → Prop}
    (hQ : ∀ w₂, Holds c m (l.setFile ⟨s.ino, p⟩) w₂ { a with file := ⟨s.ino, p⟩ } s [] →
      Kept l w (l.setFile ⟨s.ino, p⟩) w₂ → Q (.ok (), ⟨s.ino, p⟩) w₂) :
    Safe (setting c m) (File.setLen FileName (s.image c).length ⟨s.ino, p⟩) Q w₁ := by
  have hcut := Segment.cut_length s
  have hlen := h.atTail.length_image_le
  have hv := h.atTail.valid
  have htail : w₁.ghost.tail = some s := by rw [hghost, h.atTail.tail]
  have hback : (w₁.setTail s (s.image c)).ghost = w.ghost := by
    rw [World.setTail, ← htail, hghost]
  have hguar := guar_cut (c := c) (m := m) (k := s.entries.length) (r := .ok ()) htail hv
  have hsafe := safe_cut (c := c) (m := m) (k := s.entries.length) (p := p) (z := bytes) htail hv
    hm.setLen
  rw [hcut, hback] at hguar hsafe
  refine hsafe hd hlen (fun hs => absurd hs hstrict) hU ?_
  have hat : AtTail c m (w₁.setTail s (s.image c)) s [] :=
    ⟨hg.move (hguar hlen (fun hs => absurd hs hstrict) hU).1, rfl, by simp, by simp, fun _ => rfl⟩
  obtain ⟨hh, hk⟩ := h.of_ghost hback hat (f := ⟨s.ino, p⟩) rfl
  exact hQ _ hh hk

theorem Holds.marked_ghost (h : Holds c m l w a s z) (j : ℕ) :
    (w.marked c s j).ghost = w.ghost := by
  rw [World.marked, World.setTail, ← h.atTail.tail]

/-- The sentinel is written, or the error left at most three bytes of it. -/
theorem Holds.writeSentinel (h : Holds c m l w a s []) (hm : m.Undoes)
    (hroll : m.strict → ∀ o, ¬ m.fails o) (hU : m.allowed w.ghost.total)
    (hpos : a.file.pos = (s.image c).length)
    {Q : Except StorageError Unit × Log → World → Prop}
    (hok : ∀ p, Good c (w.marked c s 4) →
      Q (.ok (), l.setFile ⟨s.ino, p⟩) (w.marked c s 4))
    (herr : (∃ o, m.fails o) → ∀ err p w' z',
      Holds c m (l.setFile ⟨s.ino, p⟩) w' { a with file := ⟨s.ino, p⟩ } s z' →
      Kept l w (l.setFile ⟨s.ino, p⟩) w' → Q (.error err, l.setFile ⟨s.ino, p⟩) w') :
    Safe (setting c m) (onActive (SegmentLog.writeSentinel (s.image c).length) l) Q w := by
  have hfile : a.file = ⟨s.ino, (s.image c).length⟩ := by
    rw [← hpos, ← h.mem.ino]
  have hnot : ∀ {o}, m.fails o → ¬ m.strict := fun hf hs => hroll hs _ hf
  have hself : w.marked c s 0 = w := by
    rw [World.marked, List.take_zero]
    exact World.setTail_self h.atTail.tail h.atTail.data
  refine safe_onActive h.active ?_
  rw [hfile]
  refine Safe.bindP (Safe.mapError (safe_sync ?_ fun hf => ?_))
  · refine Safe.bindP (Safe.mapError (quiet_setting.writeAll (P := fun j w' => Good c w' ∧
      w' = w.marked c s j) ?_ ?_ ?_ ?_))
    · rintro j k _ ⟨hg, rfl⟩ hk hjk hmax
      rw [length_sentinel] at hjk
      have hguar := fun o r => h.atTail.guar_marked hjk hmax (o := o) (r := r)
      refine ⟨_, ?_, hguar _ _, hg.move (hguar .now 0).1, rfl⟩
      change _ = (w.marked c s j).disk.setData s.ino (patch ((w.marked c s j).disk.data s.ino) _ _)
      have hfront : (s.image c ++ sentinel.take j).length = (s.image c).length + j := by
        rw [List.length_append, List.length_take, length_sentinel]
        omega
      have hd : (w.marked c s j).disk.data s.ino = s.image c ++ sentinel.take j :=
        World.setTail_data _
      rw [hd, ← hfront, patch_append, List.append_assoc, ← List.take_add]
      exact World.disk_setTail rfl _ _
    · rintro _ ⟨hg, rfl⟩
      rw [length_sentinel] at hg ⊢
      refine Safe.bindP (Safe.attempt (safe_sync ?_ fun hf => ?_))
      · exact hok _ hg
      · refine Safe.bindP (Safe.attempt (h.cutBack hm hU (h.marked_ghost 4) hg
          (World.setTail_data _) (hnot hf) ?_))
        intro w₂ hh hk
        refine Safe.bindP (Safe.attempt (safe_seek ?_ fun hf' => ?_))
        · obtain ⟨hh', hk'⟩ := hh.setFile (f := ⟨s.ino, (s.image c).length⟩) rfl
          rw [Log.setFile_setFile] at hh' hk'
          exact herr ⟨_, hf⟩ _ _ _ _ hh' (hk.trans hk')
        · exact herr ⟨_, hf⟩ _ _ _ _ hh hk
    · rintro j _ ⟨hg, rfl⟩ hj hf k
      rw [length_sentinel] at hj
      have hat : AtTail c m (w.marked c s j) s (sentinel.take j) := by
        refine ⟨hg, rfl, World.setTail_data _, ?_, fun hs => absurd hs (hnot hf)⟩
        simp only [List.length_take, length_sentinel]
        omega
      obtain ⟨hh, hk⟩ := h.of_ghost (h.marked_ghost j) hat
        (f := ⟨s.ino, (s.image c).length + j⟩) rfl
      exact herr ⟨_, hf⟩ _ _ _ _ hh hk
    · exact ⟨hself.symm ▸ h.atTail.good, hself.symm⟩
  · obtain ⟨hh, hk⟩ := h.setFile (f := ⟨s.ino, (s.image c).length⟩) rfl
    exact herr ⟨_, hf⟩ _ _ _ _ hh hk

end Sentinel

/-- Between the watermark and the next append: no newest segment, and a
watermark that allows every closed one to be deleted. -/
structure Swept (c : Codec) (m : Mode) (l : Log) (w : World) : Prop where
  rep : Rep c m l w
  active : l.active = none
  tail : w.ghost.tail = none
  mark : WatermarkIs w.disk w.ghost.total.length

section Retention

variable {l : Log} {w : World}

theorem guar_of_total {o : Op FileName} {w' : World} {r : Resp o} (h : Move c o w w')
    (htotal : w'.ghost.total = w.ghost.total) (ht : w'.ghost.tail = none) :
    (setting c m).guar w o r w' := by
  refine ⟨h, by rw [htotal]; exact id, fun _ s s' _ hs' => ?_⟩
  rw [ht] at hs'
  cases hs'

theorem safe_unlinkIndex {σ : Type} {st : σ} (hg : Good c w) (ht : w.ghost.tail = none)
    {s : Segment} (hs : s ∈ w.ghost.closed.take w.ghost.dropped)
    {Q : Except StorageError (Except IoErrorKind Unit) × σ → World → Prop}
    (h : ∀ r w', Good c w' → w'.ghost = w.ghost →
      (∀ n, WatermarkIs w.disk n → WatermarkIs w'.disk n) → Q (.ok r, st) w') :
    Safe (setting c m) ((Proc.lift (Prog.op (Op.unlink (.idx s.base))) :
      Io σ (Except IoErrorKind Unit)) st) Q w := by
  refine Safe.lift (quiet_setting.op fun r d' hst => ?_)
  have hstay := fun r => h r w hg rfl fun _ => id
  obtain hst | ⟨-, rfl, rfl⟩ := hst
  · cases hfind : w.disk.find (.idx s.base) with
    | none =>
      simp only [setting, hfind] at hst
      obtain ⟨rfl, rfl⟩ := hst
      exact ⟨w, rfl, quiet_setting.stay _ _ _, hstay _⟩
    | some i =>
      simp only [setting, hfind] at hst
      obtain ⟨rfl, rfl⟩ := hst
      have hmove := Move.dropIndex (c := c) hs
      refine ⟨_, rfl, guar_of_total hmove rfl ht, h _ _ (hg.move hmove) rfl fun n hn => ?_⟩
      obtain ⟨j, hj, hd⟩ := hn
      exact ⟨j, by simp [hj], hd⟩
  · exact ⟨w, rfl, quiet_setting.stay _ _ _, hstay _⟩

theorem Swept.evictFront (h : Swept c m l w) {front : ClosedSegment} {rest : List ClosedSegment}
    (hl : l.closed = front :: rest) {Q : Except StorageError Unit × Log → World → Prop}
    (hok : ∀ l' w', Swept c m l' w' → l'.closed = rest → Rolled l w l' w' → Q (.ok (), l') w')
    (herr : (∃ o, m.fails o) → ∀ err, Q (.error err, l) w) :
    Safe (setting c m) (SegmentLog.evictFront front l) Q w := by
  have hclosed := h.rep.closed
  rw [hl] at hclosed
  obtain ⟨s, live, hfront, hrest, hlive⟩ : ∃ s live, ClosedRep c front s ∧
      List.Forall₂ (ClosedRep c) rest live ∧ w.ghost.live = s :: live := by
    generalize w.ghost.live = xs at hclosed
    cases hclosed with
    | cons hf hr => exact ⟨_, _, hf, hr, rfl⟩
  have hdrop : w.ghost.closed.drop (w.ghost.dropped + 1) = live := by
    rw [← List.drop_drop, List.drop_one]
    exact (congrArg List.tail hlive :)
  have hget : w.ghost.closed[w.ghost.dropped]? = some s := by
    have := congrArg List.head? hlive
    rwa [Ghost.live, List.head?_drop] at this
  have hfind := h.rep.good.find_live (s := s) (by rw [hlive]; simp)
  -- The world once the segment file is gone.
  have hmove := Move.drop (c := c) h.tail hget h.mark
  have hgood := h.rep.good.move hmove
  have hmark : WatermarkIs (w.disk.unlink (.seg s.base)) w.ghost.total.length := by
    obtain ⟨j, hj, hd⟩ := h.mark
    exact ⟨j, by simp [hj], hd⟩
  have hswept : ∀ w', Good c w' → w'.ghost = { w.ghost with dropped := w.ghost.dropped + 1 } →
      WatermarkIs w'.disk w.ghost.total.length →
      Swept c m { l with closed := l.closed.tail } w' := by
    intro w' hg hghost hm
    refine ⟨⟨hg, ?_, ?_, ?_, ?_, ?_⟩, h.active, by rw [hghost]; exact h.tail, by rwa [hghost]⟩
    · rw [hghost, hl]
      change List.Forall₂ (ClosedRep c) rest (w.ghost.closed.drop (w.ghost.dropped + 1))
      rwa [hdrop]
    · rw [hghost]; exact h.rep.next
    · rw [hghost]; exact h.rep.clean
    · rw [hghost]
      exact fun ha => ⟨(h.rep.idle ha).1, fun t ht => by simp [h.tail] at ht⟩
    · simp [h.active]
  have hrolled : ∀ w', w'.ghost = { w.ghost with dropped := w.ghost.dropped + 1 } →
      Rolled l w { l with closed := l.closed.tail } w' := fun w' hghost =>
    ⟨rfl, rfl, rfl, by rw [hghost]; rfl⟩
  unfold SegmentLog.evictFront deleteSegment
  rw [hfront.path, hfront.base]
  refine Safe.bindP (Safe.bindP (Safe.lift (quiet_setting.op fun r d' hs => ?_)))
  obtain hs | ⟨hf, rfl, rfl⟩ := hs
  · simp only [setting, hfind] at hs
    obtain ⟨rfl, rfl⟩ := hs
    have hgone : s ∈ w.ghost.closed.take (w.ghost.dropped + 1) := by
      rw [List.take_add_one, hget]
      simp
    refine ⟨_, rfl, guar_of_total hmove rfl h.tail,
      Safe.bindP (safe_unlinkIndex hgood h.tail hgone fun r w' hg' hghost hmk => ?_)⟩
    refine Safe.bindP (safe_syncDir fun r => ?_)
    exact hok _ _ (hswept w' hg' hghost (hmk _ hmark)) (by simp [hl]) (hrolled w' hghost)
  · exact ⟨w, rfl, quiet_setting.stay _ _ _, herr ⟨_, hf⟩ _⟩

def Blamed {α : Type} (m : Mode) (r : Except StorageError α) : Prop :=
  ∀ err, r = .error err → ∃ o, m.fails o

theorem blamed_ok {α : Type} (a : α) : Blamed m (.ok a) := by
  intro err h
  cases h

/-- What every stage of retention does: segments may go from the front, and an
error stops it there. -/
def Sweeps (c : Codec) (m : Mode) (t : Io Log Unit) : Prop :=
  ∀ {l : Log} {w : World} {Q : Except StorageError Unit × Log → World → Prop}, Swept c m l w →
    (∀ r l' w', Blamed m r → Swept c m l' w' → Rolled l w l' w' → Q (r, l') w') →
    Safe (setting c m) (t l) Q w

theorem Swept.evictOlder (h : Swept c m l w) (cutoff : ℕ) {segs : List ClosedSegment}
    (hl : l.closed = segs) {Q : Except StorageError Unit × Log → World → Prop}
    (hQ : ∀ r l' w', Blamed m r → Swept c m l' w' → Rolled l w l' w' → Q (r, l') w') :
    Safe (setting c m) (SegmentLog.evictOlder cutoff segs l) Q w := by
  induction segs generalizing l w with
  | nil => exact hQ _ l w (blamed_ok ()) h (.refl l w)
  | cons front rest ih =>
    rw [SegmentLog.evictOlder]
    split_ifs
    · refine Safe.bindP (h.evictFront hl (fun l' w' h' hl' hr => ?_) fun hf err => ?_)
      · exact ih h' hl' fun r l'' w'' hb h'' hr' => hQ r l'' w'' hb h'' (hr.trans hr')
      · exact hQ _ l w (fun _ _ => hf) h (.refl l w)
    · exact hQ _ l w (blamed_ok ()) h (.refl l w)

theorem Swept.evictLarger (h : Swept c m l w) (maxBytes total : ℕ) {segs : List ClosedSegment}
    (hl : l.closed = segs) {Q : Except StorageError Unit × Log → World → Prop}
    (hQ : ∀ r l' w', Blamed m r → Swept c m l' w' → Rolled l w l' w' → Q (r, l') w') :
    Safe (setting c m) (SegmentLog.evictLarger maxBytes total segs l) Q w := by
  induction segs generalizing l w total with
  | nil => exact hQ _ l w (blamed_ok ()) h (.refl l w)
  | cons front rest ih =>
    rw [SegmentLog.evictLarger]
    split_ifs
    · refine Safe.bindP (h.evictFront hl (fun l' w' h' hl' hr => ?_) fun hf err => ?_)
      · exact ih h' _ hl' fun r l'' w'' hb h'' hr' => hQ r l'' w'' hb h'' (hr.trans hr')
      · exact hQ _ l w (fun _ _ => hf) h (.refl l w)
    · exact hQ _ l w (blamed_ok ()) h (.refl l w)

theorem sweeps_retainByAge (maxAgeSecs : ℕ) : Sweeps c m (retainByAge maxAgeSecs) := by
  intro l w Q h hQ
  exact Safe.bindP (safe_nowNs fun now _ => Safe.getP (h.evictOlder _ rfl hQ))

theorem sweeps_retainBySize (maxBytes : ℕ) : Sweeps c m (retainBySize maxBytes) := by
  intro l w Q h hQ
  exact Safe.getP (h.evictLarger _ _ rfl hQ)

theorem sweeps_enforceRetention : Sweeps c m enforceRetention := by
  intro l w Q h hQ
  refine Safe.getP ?_
  cases l.config.retention with
  | indefinite => exact hQ _ l w (blamed_ok ()) h (.refl l w)
  | timeBased maxAgeSecs => exact sweeps_retainByAge maxAgeSecs h hQ
  | sizeBased maxBytes => exact sweeps_retainBySize maxBytes h hQ
  | hybrid maxAgeSecs maxBytes =>
    refine Safe.bindP (sweeps_retainByAge maxAgeSecs h fun r l' w' hb h' hr => ?_)
    cases r with
    | error e => exact hQ _ l' w' hb h' hr
    | ok _ =>
      exact sweeps_retainBySize maxBytes h' fun r l'' w'' hb h'' hr' =>
        hQ r l'' w'' hb h'' (hr.trans hr')

end Retention

section Closing

variable {l : Log} {w : World} {s : Segment} {a : ActiveSegment} {z : List UInt8}

theorem safe_writeWatermark (h : Rep c m l w) (ha : l.active = none) (ht : w.ghost.tail = none)
    {Q : Except StorageError Unit × Log → World → Prop}
    (hok : ∀ w', Swept c m l w' → Rolled l w l w' → Q (.ok (), l) w')
    (herr : (∃ o, m.fails o) → ∀ err w', Rep c m l w' → Rolled l w l w' → Q (.error err, l) w') :
    Safe (setting c m) ((writeWatermark l.nextOffset : Io Log Unit) l) Q w := by
  have hrep : ∀ w', Good c w' → w'.ghost = w.ghost → Rep c m l w' := by
    intro w' hg hghost
    refine ⟨hg, ?_, ?_, ?_, ?_, by simp [ha]⟩ <;> rw [hghost]
    · exact h.closed
    · exact h.next
    · exact h.clean
    · exact h.idle
  have hrolled : ∀ w', w'.ghost = w.ghost → Rolled l w l w' := fun w' hghost =>
    ⟨rfl, rfl, rfl, by rw [hghost]⟩
  refine safe_replace h.good rfl _ (fun w₁ i hs hi hd => ?_) fun hf err w₁ hs =>
    herr hf err w₁ (hrep w₁ hs.good hs.ghost) (hrolled w₁ hs.ghost)
  rw [(h.idle ha).1, ← hs.ghost] at hd
  rw [← hs.ghost] at ht
  have hmove := Move.mark (c := c) ht hi hd
  refine ⟨_, rfl, guar_of_total hmove rfl ht, hok _ ⟨?_, ha, ht, ?_⟩ (hrolled _ hs.ghost)⟩
  · exact hrep _ (hs.good.move hmove) hs.ghost
  · exact ⟨i, by simp, hd⟩

/-- `roll_segment` of a segment with records. -/
theorem Holds.closeActive (h : Holds c m l w a s []) (hm : m.Undoes)
    (hroll : m.strict → ∀ o, ¬ m.fails o) (hU : m.allowed w.ghost.total)
    (hpos : a.file.pos = a.nextFilePos) (hne : s.entries ≠ [])
    {Q : Except StorageError Unit × Log → World → Prop}
    (hQ : ∀ r l' w', Blamed m r → Rep c m l' w' → Rolled l w l' w' → Q (r, l') w') :
    Safe (setting c m) (SegmentLog.closeActive a l) Q w := by
  have hkept : ∀ {f : File} {w' : World}, Kept l w (l.setFile f) w' → Rolled l w (l.setFile f) w' :=
    fun hk => ⟨hk.config, hk.next, rfl, hk.total⟩
  have hmarked : (w.marked c s 4).disk.data s.ino = s.image c ++ sentinel := by
    rw [World.marked, World.setTail_data, List.take_of_length_le (by simp)]
  unfold SegmentLog.closeActive
  simp only [h.mem.filePos, h.mem.base, h.mem.positions]
  rw [h.mem.filePos] at hpos
  refine Safe.bindP (h.writeSentinel hm hroll hU hpos (fun p hg => ?_)
    fun hf err p w' z' hh hk => hQ _ _ _ (fun _ _ => hf) hh.rep (hkept hk))
  have htail : (w.marked c s 4).ghost.tail = some s := rfl
  refine Safe.bindP (Safe.attempt (safe_replace hg rfl _ (fun w₁ i hs hi hd => ?_)
    fun hf err w₁ hs => ?_))
  · have ht₁ : w₁.ghost.tail = some s := by rw [hs.ghost]; exact htail
    have hd₁ : w₁.disk.data s.ino = s.image c ++ sentinel := by
      rw [hs.tailData hg htail, hmarked]
    have hmove := Move.close (c := c) ht₁ hne hd₁ hi hd
    have htotal : ({ w₁.ghost with closed := w₁.ghost.closed ++ [s], tail := none } : Ghost).total =
        w.ghost.total := by
      rw [← h.marked_ghost 4, ← hs.ghost, Ghost.total_tail ht₁, Ghost.total_eq]
      simp
    have hlive : ({ w₁.ghost with closed := w₁.ghost.closed ++ [s], tail := none } : Ghost).live =
        w.ghost.live ++ [s] := by
      rw [← h.marked_ghost 4, ← hs.ghost]
      simp [Ghost.live, List.drop_append_of_le_length hs.good.ok.dropped]
    refine ⟨_, rfl, guar_of_total hmove ?_ rfl, ?_⟩
    · rw [htotal, hs.ghost, h.marked_ghost]
    have ha := Log.setFile_active (f := ⟨s.ino, p⟩) h.active
    have hnext := h.rep.clean h.clean
    -- The bookkeeping is right whatever length was measured.
    have hrest : ∀ (size : ℕ) (file : File), Safe (setting c m) ((do
        Proc.modify fun l => { l with
          active := none
          closed := l.closed ++ [⟨s.base, s.base + (s.positions c).length - 1,
            a.lastAppendedAtNs, size, a.path, s.positions c⟩] }
        let s ← Proc.get
        writeWatermark s.nextOffset
        enforceRetention : Io Log Unit) ((l.setFile ⟨s.ino, p⟩).setFile file)) Q
        ⟨w₁.disk.rename (.idxTmp s.base) (.idx s.base) i,
          { w₁.ghost with closed := w₁.ghost.closed ++ [s], tail := none }⟩ := by
      intro size file
      refine Safe.modifyP (Safe.getP (Safe.bindP ?_))
      have hrep : Rep c m { l with
          active := none
          closed := l.closed ++ [⟨s.base, s.base + (s.positions c).length - 1,
            a.lastAppendedAtNs, size, a.path, s.positions c⟩] }
          ⟨w₁.disk.rename (.idxTmp s.base) (.idx s.base) i,
            { w₁.ghost with closed := w₁.ghost.closed ++ [s], tail := none }⟩ := by
        refine ⟨hs.good.move hmove, ?_, ?_, ?_, ?_, by simp⟩
        · rw [hlive]
          refine List.rel_append h.rep.closed (.cons ⟨rfl, ?_, h.mem.path, rfl⟩ .nil)
          have := List.length_pos_of_ne_nil hne
          simp only [Segment.length_positions, Segment.stop]
          omega
        · rw [htotal]; exact h.rep.next
        · rw [htotal]; exact h.rep.clean
        · rw [htotal]; exact fun _ => ⟨hnext, by simp⟩
      have hrolled : Rolled l w { l with
          active := none
          closed := l.closed ++ [⟨s.base, s.base + (s.positions c).length - 1,
            a.lastAppendedAtNs, size, a.path, s.positions c⟩] }
          ⟨w₁.disk.rename (.idxTmp s.base) (.idx s.base) i,
            { w₁.ghost with closed := w₁.ghost.closed ++ [s], tail := none }⟩ :=
        ⟨rfl, rfl, rfl, htotal⟩
      refine safe_writeWatermark hrep rfl rfl (fun w' hsw hr => ?_) fun hf err w' hrep' hr =>
        hQ _ _ _ (fun _ _ => hf) hrep' (hrolled.trans hr)
      exact sweeps_enforceRetention hsw fun r l' w'' hb hsw' hr' =>
        hQ r l' w'' hb hsw'.rep ((hrolled.trans hr).trans hr')
    refine Safe.bindP (safe_onActive ha (Safe.attempt (safe_len ?_ fun _ => ?_)))
    · exact hrest _ _
    · exact hrest _ _
  · have hstrict : ¬ m.strict := fun hst => hf.elim fun o ho => hroll hst o ho
    refine Safe.bindP (safe_onActive (Log.setFile_active h.active) ?_)
    refine Safe.bindP (Safe.attempt (h.cutBack hm hU (hs.ghost.trans (h.marked_ghost 4)) hs.good
      (by rw [hs.tailData hg htail, hmarked]) hstrict fun w₂ hh hk => ?_))
    refine Safe.bindP (Safe.attempt (safe_seek ?_ fun _ => ?_))
    · obtain ⟨hh', hk'⟩ := hh.setFile (f := ⟨s.ino, (s.image c).length⟩) rfl
      rw [Log.setFile_setFile] at hh' hk'
      have := hQ (.error err) _ _ (fun _ _ => hf) hh'.rep (hkept (hk.trans hk'))
      simpa [Safe] using this
    · have := hQ (.error err) _ _ (fun _ _ => hf) hh.rep (hkept hk)
      simpa [Safe] using this

/-- The part of `append` after the commit. -/
theorem Ready.appendRoll (h : Ready c m l w) (hm : m.Undoes)
    (hroll : m.strict → ∀ o, ¬ m.fails o) (hU : m.allowed w.ghost.total)
    {Q : Except StorageError ℕ × Log → World → Prop}
    (hok : ∀ l' w', Rep c m l' w' → Rolled l w l' w' → Q (.ok (l.nextOffset - 1), l') w')
    (herr : (∃ o, m.fails o) → ∀ err l' w', Rep c m l' w' → Rolled l w l' w' →
      Q (.error err, l') w') :
    Safe (setting c m) (SegmentLog.appendRoll l) Q w := by
  obtain ⟨a, s, ha, hat, hact, hne, hpos⟩ := h.atEnd
  have hh : Holds c m l w a s [] := by
    refine ⟨h.rep, h.clean, ha, hat, hact, ?_⟩
    rw [h.rep.clean h.clean, hat.base]
  have hend : ∀ l' w', Rep c m l' w' → Rolled l w l' w' →
      Safe (setting c m) ((do
        let s ← Proc.get
        pure (s.nextOffset - 1) : Io Log ℕ) l') Q w' := by
    intro l' w' hrep hr
    refine Safe.getP ?_
    rw [hr.next]
    exact hok l' w' hrep hr
  have hskip := hend l w h.rep (.refl l w)
  have hrun : Safe (setting c m) ((do
      rollSegment
      let s ← Proc.get
      pure (s.nextOffset - 1) : Io Log ℕ) l) Q w := by
    refine Safe.bindP (Safe.getP ?_)
    have hnil : a.positions ≠ [] := by
      rw [hact.positions]
      exact fun h0 => hne (List.length_eq_zero_iff.mp (by simpa using congrArg List.length h0))
    simp only [ha, hnil, if_false]
    refine hh.closeActive hm hroll hU hpos hne fun r l' w' hb hrep hr => ?_
    cases r with
    | ok _ => exact hend l' w' hrep hr
    | error err => exact herr (hb err rfl) err l' w' hrep hr
  unfold SegmentLog.appendRoll shouldRoll
  refine Safe.bindP (Safe.getP ?_)
  rw [ha]
  dsimp only
  split_ifs
  · exact hrun
  · refine Safe.bindP (safe_nowNs fun now _ => ?_)
    dsimp only
    by_cases hage : now - a.createdAtNs ≥ satMul l.config.maxSegmentAgeSecs 1000000000
    · rw [decide_eq_true hage]
      exact hrun
    · rw [decide_eq_false hage]
      exact hskip

/-- `append`: the batch is stored under consecutive offsets, or an error left
the log in agreement with the directory. -/
theorem Rep.append (h : Rep c m l w) (hm : m.Undoes) (hroll : m.strict → ∀ o, ¬ m.fails o)
    (producerId : String) (events : List OtkEvent)
    (hcod : ∀ ev ∈ events, c.decode (c.encode ev) = .ok ev)
    (hU : ∀ ts < 2 ^ 64, ∀ j,
      (∀ e ∈ (batchOf l.nextOffset ts producerId events).take j, EntryOk c e) →
      m.allowed (w.ghost.total ++ (batchOf l.nextOffset ts producerId events).take j))
    {Q : Except StorageError ℕ × Log → World → Prop}
    (hok : ∀ ts l₁ w₁ l' w', Committed c producerId events ts l w l₁ w₁ → Rolled l₁ w₁ l' w' →
      Rep c m l' w' → ∀ r, Blamed m r → (∀ n, r = .ok n → n = l.nextOffset + events.length - 1) →
      Q (r, l') w')
    (herr : ∀ err l' w',
      Refused c l.nextOffset producerId events ∨ l.poisoned = true ∨ (∃ o, m.fails o) →
      Rep c m l' w' → Tried c m producerId events l w l' w' → Q (.error err, l') w') :
    Safe (setting c m) (SegmentLog.append c producerId events l) Q w := by
  refine Safe.bindP (h.appendCommit hm producerId events hcod hU (fun ts l₁ w₁ hcom hready => ?_)
    herr)
  have hallowed : m.allowed w₁.ghost.total := by
    have := hU ts hcom.time (batchOf l.nextOffset ts producerId events).length
    rw [List.take_length] at this
    rw [hcom.total]
    exact this hcom.entryOk
  refine hready.appendRoll hm hroll hallowed (fun l' w' hrep hr => ?_)
    fun hf err l' w' hrep hr => ?_
  · refine hok ts l₁ w₁ l' w' hcom hr hrep _ (blamed_ok _) fun n hn => ?_
    rw [← hcom.next]
    exact (Except.ok.inj hn).symm
  · exact hok ts l₁ w₁ l' w' hcom hr hrep _ (fun _ _ => hf) fun n hn => by cases hn

end Closing

end OtkCore.SegmentLog
