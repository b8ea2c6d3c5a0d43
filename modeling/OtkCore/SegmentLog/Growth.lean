import OtkCore.SegmentLog.History

/-!
# What a reader can rely on

How a directory changes while a log appends, rolls and deletes: entries are only
added, segments are deleted from the front, files grow until they are complete,
and the watermark has passed whatever is deleted. `Later` collects this, every
move of the log that does not cut its newest file is such a change, and so are
the moves of an append that is undone again, as far as the entries before it go.
-/
namespace OtkCore.SegmentLog

open Effect FileIO Bytes

variable {c : Codec}

/-- The watermark file says that at least `n` entries have been stored. -/
def MarkedTo (w : World) (n : ℕ) : Prop :=
  ∃ j, w.disk.find .watermark = some j ∧ (w.disk.data j).length = 8 ∧ n ≤ ofLe (w.disk.data j)

/-- A file that is complete: nobody writes to its inode any more. -/
structure Frozen (w : World) (i : ℕ) (bytes : List UInt8) : Prop where
  data : w.disk.data i = bytes
  bound : i < w.disk.next
  linked : ∀ x, w.disk.find x = some i → x.isTmp = false
  apart : ∀ s, w.ghost.tail = some s → s.ino ≠ i

structure Segment.Grown (w : World) (s : Segment) (w₁ : World) (s₁ : Segment) : Prop where
  base : s₁.base = s.base
  ino : s₁.ino = s.ino
  entries : s.entries <+: s₁.entries
  data : w.disk.data s.ino <+: w₁.disk.data s.ino

namespace Segment.Grown

variable {w w₁ w₂ : World} {s s₁ s₂ : Segment}

theorem trans (h : s.Grown w w₁ s₁) (h' : s₁.Grown w₁ w₂ s₂) : s.Grown w w₂ s₂ := by
  have hdata := h'.data
  rw [h.ino] at hdata
  exact ⟨h'.base.trans h.base, h'.ino.trans h.ino, h.entries.trans h'.entries, h.data.trans hdata⟩

theorem of_data (s : Segment) (h : w₁.disk.data s.ino = w.disk.data s.ino) : s.Grown w w₁ s :=
  ⟨rfl, rfl, List.prefix_refl _, by simp [h]⟩

end Segment.Grown

/-- The second world is the first one some time later. -/
structure Later (w w₁ : World) : Prop where
  closed : w.ghost.closed <+: w₁.ghost.closed
  dropped : w.ghost.dropped ≤ w₁.ghost.dropped
  total : w.ghost.total <+: w₁.ghost.total
  segment : ∀ s ∈ w.ghost.segments, ∃ s₁ ∈ w₁.ghost.segments, s.Grown w w₁ s₁
  fresh : ∀ s₁ ∈ w₁.ghost.segments, w.ghost.total.length ≤ s₁.base ∨
    ∃ s ∈ w.ghost.segments, s.base = s₁.base
  frozen : ∀ i bytes, Frozen w i bytes → Frozen w₁ i bytes
  marked : ∀ n, MarkedTo w n → MarkedTo w₁ n
  swept : w.ghost.dropped < w₁.ghost.dropped → MarkedTo w₁ w.ghost.total.length

theorem MarkedTo.mono {w : World} {m n : ℕ} (h : MarkedTo w n) (hle : m ≤ n) : MarkedTo w m := by
  obtain ⟨j, hj, hlen, hn⟩ := h
  exact ⟨j, hj, hlen, hle.trans hn⟩

namespace Later

variable {w w₁ w₂ : World}

theorem refl (w : World) : Later w w where
  closed := List.prefix_refl _
  dropped := le_rfl
  total := List.prefix_refl _
  segment s hs := ⟨s, hs, .of_data s rfl⟩
  fresh s hs := Or.inr ⟨s, hs, rfl⟩
  frozen _ _ h := h
  marked _ h := h
  swept h := absurd h (lt_irrefl _)

theorem trans (h : Later w w₁) (h' : Later w₁ w₂) : Later w w₂ where
  closed := h.closed.trans h'.closed
  dropped := h.dropped.trans h'.dropped
  total := h.total.trans h'.total
  segment s hs := by
    obtain ⟨s₁, hs₁, hg⟩ := h.segment s hs
    obtain ⟨s₂, hs₂, hg'⟩ := h'.segment s₁ hs₁
    exact ⟨s₂, hs₂, hg.trans hg'⟩
  fresh s₂ hs₂ := by
    obtain hle | ⟨s₁, hs₁, hb⟩ := h'.fresh s₂ hs₂
    · exact Or.inl (h.total.length_le.trans hle)
    · rw [← hb]
      exact h.fresh s₁ hs₁
  frozen i bytes hf := h'.frozen i bytes (h.frozen i bytes hf)
  marked n hn := h'.marked n (h.marked n hn)
  swept hlt := by
    by_cases hfirst : w.ghost.dropped < w₁.ghost.dropped
    · exact h'.marked _ (h.swept hfirst)
    · exact (h'.swept (by omega)).mono h.total.length_le

theorem of_ghost (hghost : w₁.ghost = w.ghost)
    (hdata : ∀ s ∈ w.ghost.segments, w₁.disk.data s.ino = w.disk.data s.ino)
    (hfrozen : ∀ i bytes, Frozen w i bytes → Frozen w₁ i bytes)
    (hmarked : ∀ n, MarkedTo w n → MarkedTo w₁ n) : Later w w₁ where
  closed := by simp [hghost]
  dropped := by simp [hghost]
  total := by simp [hghost]
  segment s hs := ⟨s, by rwa [hghost], .of_data s (hdata s hs)⟩
  fresh s hs := Or.inr ⟨s, by rwa [hghost] at hs, rfl⟩
  frozen := hfrozen
  marked := hmarked
  swept h := by
    rw [hghost] at h
    exact absurd h (lt_irrefl _)

end Later

theorem Ghost.mem_segments {g : Ghost} {s : Segment} :
    s ∈ g.segments ↔ s ∈ g.closed ∨ g.tail = some s := by
  cases h : g.tail <;> simp [segments, h, eq_comm]

namespace Good

variable {w : World}

theorem ino_lt (h : Good c w) {s : Segment} (hs : s ∈ w.ghost.segments) :
    s.ino < w.disk.next := by
  rcases Ghost.mem_segments.mp hs with hs | hs
  · exact (h.closedData s hs).1
  · exact h.tidy.bound _ _ (h.find_tail hs)

theorem ino_ne (h : Good c w) {s : Segment} (hs : s ∈ w.ghost.segments) {x : FileName} {i : ℕ}
    (hx : w.disk.find x = some i) (hne : x ≠ .seg s.base) : s.ino ≠ i := by
  rcases Ghost.mem_segments.mp hs with hs | hs
  · exact h.closed_ino_ne hs hx hne
  · exact h.tail_ino_ne hs hx hne

theorem later_scratchOpen (h : Good c w) {x : FileName} (hx : x.isTmp = true) :
    Later w ⟨w.disk.create x, w.ghost⟩ := by
  have hdata : ∀ i, i < w.disk.next → (w.disk.create x).data i = w.disk.data i := by
    intro i hi
    rw [Disk.data_create, if_neg (by omega)]
  refine .of_ghost rfl (fun s hs => hdata _ (h.ino_lt hs)) (fun i bytes hf => ?_) fun n hn => ?_
  · refine ⟨(hdata i hf.bound).trans hf.data, ?_, fun y hy => ?_, hf.apart⟩
    · have hlt := hf.bound
      rw [Disk.next_create]
      omega
    · rw [Disk.find_create] at hy
      split_ifs at hy
      · have hlt := hf.bound
        simp only [Option.some.injEq] at hy
        omega
      · exact hf.linked y hy
  · obtain ⟨j, hj, hlen, hle⟩ := hn
    have hne : FileName.watermark ≠ x := by
      rintro rfl
      cases hx
    have hj' : (w.disk.create x).data j = w.disk.data j := hdata j (h.tidy.bound _ _ hj)
    refine ⟨j, ?_, ?_, ?_⟩
    · rw [Disk.find_create, if_neg hne, hj]
    · rw [hj', hlen]
    · rwa [hj']

theorem later_scratch (h : Good c w) {x : FileName} {i : ℕ} {bytes : List UInt8}
    (hx : x.isTmp = true) (hi : w.disk.find x = some i) :
    Later w ⟨w.disk.setData i bytes, w.ghost⟩ := by
  have hdata : ∀ j, j ≠ i → (w.disk.setData i bytes).data j = w.disk.data j := by
    intro j hj
    rw [Disk.data_setData, if_neg hj]
  refine .of_ghost rfl (fun s hs => hdata _ (h.ino_ne hs hi ?_)) (fun j bytes' hf => ?_)
    fun n hn => ?_
  · rintro rfl
    cases hx
  · have hne : j ≠ i := by
      rintro rfl
      rw [hf.linked x hi] at hx
      cases hx
    exact ⟨(hdata j hne).trans hf.data, hf.bound, hf.linked, hf.apart⟩
  · obtain ⟨j, hj, hlen, hle⟩ := hn
    have hne : j ≠ i := by
      rintro rfl
      rw [h.tidy.inj _ _ _ hi hj] at hx
      cases hx
    have hj' : (w.disk.setData i bytes).data j = w.disk.data j := hdata j hne
    refine ⟨j, hj, ?_, ?_⟩
    · rw [hj', hlen]
    · rwa [hj']

theorem frozen_rename {src dst : FileName} {i : ℕ} (hdst : dst.isTmp = false) {g : Ghost}
    (hg : ∀ s, g.tail = some s → w.ghost.tail = some s) {j : ℕ} {bytes : List UInt8}
    (hf : Frozen w j bytes) : Frozen ⟨w.disk.rename src dst i, g⟩ j bytes := by
  refine ⟨hf.data, hf.bound, fun x hx => ?_, fun s hs => hf.apart s (hg s hs)⟩
  rw [Disk.find_rename] at hx
  split_ifs at hx with h₁ h₂
  · rw [h₁, hdst]
  · exact hf.linked x hx

theorem frozen_unlink {x : FileName} {g : Ghost}
    (hg : ∀ s, g.tail = some s → w.ghost.tail = some s) {j : ℕ} {bytes : List UInt8}
    (hf : Frozen w j bytes) : Frozen ⟨w.disk.unlink x, g⟩ j bytes := by
  refine ⟨hf.data, hf.bound, fun y hy => ?_, fun s hs => hf.apart s (hg s hs)⟩
  rw [Disk.find_unlink] at hy
  split_ifs at hy
  exact hf.linked y hy

theorem marked_unlink {x : FileName} (hx : x ≠ .watermark) {g : Ghost} {n : ℕ}
    (hn : MarkedTo w n) : MarkedTo ⟨w.disk.unlink x, g⟩ n := by
  obtain ⟨j, hj, hlen, hle⟩ := hn
  refine ⟨j, ?_, hlen, hle⟩
  rw [Disk.find_unlink, if_neg hx.symm, hj]

theorem later_close {s : Segment} {i : ℕ} (ht : w.ghost.tail = some s) :
    Later w ⟨w.disk.rename (.idxTmp s.base) (.idx s.base) i,
      { w.ghost with closed := w.ghost.closed ++ [s], tail := none }⟩ := by
  have hsegs : ({ w.ghost with closed := w.ghost.closed ++ [s], tail := none } : Ghost).segments =
      w.ghost.segments := by
    simp [Ghost.segments, ht]
  constructor
  · exact List.prefix_append _ _
  · exact le_rfl
  · rw [Ghost.total, Ghost.total, hsegs]
  · exact fun t htm => ⟨t, by rwa [hsegs], .of_data t rfl⟩
  · exact fun t htm => Or.inr ⟨t, by rwa [hsegs] at htm, rfl⟩
  · exact fun j bytes hf => frozen_rename rfl (fun t ht => by cases ht) hf
  · rintro n ⟨j, hj, hlen, hle⟩
    refine ⟨j, ?_, hlen, hle⟩
    rw [Disk.find_rename, if_neg (by simp), if_neg (by simp), hj]
  · exact fun h => absurd h (lt_irrefl _)

theorem watermark_eq (h : Good c w) {j : ℕ} (hj : w.disk.find .watermark = some j) :
    ofLe (w.disk.data j) ≤ w.ghost.closedCount ∧ (w.disk.data j).length = 8 := by
  obtain ⟨n, hn, hd⟩ := h.watermark j hj
  have hcount := h.ok.count
  have hle : w.ghost.closedCount ≤ w.ghost.total.length := by
    rw [Ghost.total_eq, List.length_append, Ghost.closedCount]
    exact Nat.le_add_right _ _
  rw [hd, ofLe_le (show n < 256 ^ 8 by omega)]
  exact ⟨hn, by simp⟩

theorem markedTo_of_watermarkIs (h : Good c w) (hm : WatermarkIs w.disk w.ghost.total.length) :
    MarkedTo w w.ghost.total.length := by
  obtain ⟨j, hj, hd⟩ := hm
  have hcount := h.ok.count
  refine ⟨j, hj, by simp [hd], ?_⟩
  rw [hd, ofLe_le (show w.ghost.total.length < 256 ^ 8 by omega)]

theorem later_mark (h : Good c w) {i : ℕ} (ht : w.ghost.tail = none)
    (hd : w.disk.data i = le 8 w.ghost.total.length) :
    Later w ⟨w.disk.rename .watermarkTmp .watermark i, w.ghost⟩ := by
  refine .of_ghost rfl (fun _ _ => rfl) (fun j bytes hf => frozen_rename rfl
    (fun _ hs => hs) hf) fun n hn => ?_
  obtain ⟨j, hj, -, hle⟩ := hn
  have hold := (h.watermark_eq hj).1
  have hcount := h.ok.count
  have htotal : w.ghost.closedCount = w.ghost.total.length := by
    simp [Ghost.closedCount, Ghost.total_eq, ht]
  refine ⟨i, by simp, by simp [hd], ?_⟩
  rw [Disk.data_rename, hd, ofLe_le (show w.ghost.total.length < 256 ^ 8 by omega)]
  omega

theorem later_drop (h : Good c w) {s : Segment}
    (hm : WatermarkIs w.disk w.ghost.total.length) :
    Later w ⟨w.disk.unlink (.seg s.base), { w.ghost with dropped := w.ghost.dropped + 1 }⟩ where
  closed := List.prefix_refl _
  dropped := Nat.le_succ _
  total := List.prefix_refl _
  segment t ht := ⟨t, ht, .of_data t rfl⟩
  fresh t ht := Or.inr ⟨t, ht, rfl⟩
  frozen _ _ hf := by
    refine frozen_unlink ?_ hf
    exact fun _ hs => hs
  marked _ hn := marked_unlink (by simp) hn
  swept _ := marked_unlink (by simp) (h.markedTo_of_watermarkIs hm)

theorem later_dropIndex (s : Segment) : Later w ⟨w.disk.unlink (.idx s.base), w.ghost⟩ :=
  .of_ghost rfl (fun _ _ => rfl) (fun _ _ hf => frozen_unlink (fun _ hs => hs) hf)
    fun _ hn => marked_unlink (by simp) hn

theorem later_create (h : Good c w) {ts : ℕ} (ht : w.ghost.tail = none) :
    Later w ⟨w.disk.create (.seg w.ghost.total.length),
      { w.ghost with tail := some ⟨w.ghost.total.length, w.disk.next, ts, []⟩ }⟩ := by
  have hdata : ∀ i, i < w.disk.next →
      (w.disk.create (.seg w.ghost.total.length)).data i = w.disk.data i := by
    intro i hi
    rw [Disk.data_create, if_neg (by omega)]
  have hsegs : w.ghost.segments = w.ghost.closed := by simp [Ghost.segments, ht]
  constructor
  · exact List.prefix_refl _
  · exact le_rfl
  · simp [Ghost.total_eq, ht]
  · intro s hs
    refine ⟨s, Ghost.mem_segments.mpr (Or.inl (by rwa [hsegs] at hs)), .of_data s ?_⟩
    exact hdata _ (h.ino_lt hs)
  · intro s hs
    rcases Ghost.mem_segments.mp hs with hs | hs
    · exact Or.inr ⟨s, by rwa [hsegs], rfl⟩
    · obtain rfl := Option.some.inj hs
      exact Or.inl le_rfl
  · intro i bytes hf
    have hlt := hf.bound
    refine ⟨(hdata i hlt).trans hf.data, ?_, fun x hx => ?_, fun s hs => ?_⟩
    · rw [Disk.next_create]
      omega
    · rw [Disk.find_create] at hx
      split_ifs at hx with hx'
      · rw [hx']
        rfl
      · exact hf.linked x hx
    · obtain rfl := Option.some.inj hs
      exact fun heq => absurd (heq ▸ hlt) (lt_irrefl _)
  · rintro n ⟨j, hj, hlen, hle⟩
    have hj' : (w.disk.create (.seg w.ghost.total.length)).data j = w.disk.data j :=
      hdata j (h.tidy.bound _ _ hj)
    refine ⟨j, ?_, ?_, ?_⟩
    · rw [Disk.find_create, if_neg (by simp), hj]
    · rw [hj', hlen]
    · rwa [hj']
  · exact fun hlt => absurd hlt (lt_irrefl _)

theorem later_setTail (h : Good c w) {s s₁ s₂ : Segment} {bytes₁ bytes₂ : List UInt8}
    (ht : w.ghost.tail = some s) (hbase₁ : s₁.base = s.base) (hino₁ : s₁.ino = s.ino)
    (hbase₂ : s₂.base = s.base) (hino₂ : s₂.ino = s.ino) (hentries : s₁.entries <+: s₂.entries)
    (hbytes : bytes₁ <+: bytes₂) : Later (w.setTail s₁ bytes₁) (w.setTail s₂ bytes₂) := by
  have hmem : s ∈ w.ghost.segments := Ghost.mem_segments.mpr (Or.inr ht)
  have hdata : ∀ (t : Segment) (bytes : List UInt8) (i : ℕ), t.ino = s.ino → i ≠ s.ino →
      (w.setTail t bytes).disk.data i = w.disk.data i := by
    intro t bytes i hino hi
    rw [← hino] at hi
    exact (Disk.data_setData _ _ _ _).trans (if_neg hi)
  constructor
  · exact List.prefix_refl _
  · exact le_rfl
  · rw [Ghost.total_tail (s := s₁) rfl, Ghost.total_tail (s := s₂) rfl]
    exact (List.prefix_append_right_inj _).mpr hentries
  · intro t htm
    rcases Ghost.mem_segments.mp htm with htm | htm
    · have hne : t.ino ≠ s.ino := h.closed_ino_ne_tail htm ht
      refine ⟨t, Ghost.mem_segments.mpr (Or.inl htm), .of_data t ?_⟩
      rw [hdata s₂ bytes₂ _ hino₂ hne, hdata s₁ bytes₁ _ hino₁ hne]
    · obtain rfl := Option.some.inj htm
      refine ⟨s₂, Ghost.mem_segments.mpr (Or.inr rfl), hbase₂.trans hbase₁.symm,
        hino₂.trans hino₁.symm, hentries, ?_⟩
      rw [World.setTail_data, hino₁, ← hino₂, World.setTail_data]
      exact hbytes
  · intro t htm
    rcases Ghost.mem_segments.mp htm with htm | htm
    · exact Or.inr ⟨t, Ghost.mem_segments.mpr (Or.inl htm), rfl⟩
    · obtain rfl := Option.some.inj htm
      exact Or.inr ⟨s₁, Ghost.mem_segments.mpr (Or.inr rfl), hbase₁.trans hbase₂.symm⟩
  · intro i bytes hf
    have hi : i ≠ s.ino := fun heq => hf.apart s₁ rfl (hino₁.trans heq.symm)
    refine ⟨?_, hf.bound, hf.linked, fun t htm => ?_⟩
    · rw [hdata s₂ bytes₂ i hino₂ hi, ← hdata s₁ bytes₁ i hino₁ hi]
      exact hf.data
    · obtain rfl := Option.some.inj htm
      exact fun heq => hi (heq.symm.trans hino₂)
  · rintro n ⟨j, hj, hlen, hle⟩
    have hj' : j ≠ s.ino := (h.ino_ne hmem hj (by simp)).symm
    have hsame : (w.setTail s₂ bytes₂).disk.data j = (w.setTail s₁ bytes₁).disk.data j := by
      rw [hdata s₂ bytes₂ j hino₂ hj', hdata s₁ bytes₁ j hino₁ hj']
    refine ⟨j, hj, ?_, ?_⟩
    · rw [hsame, hlen]
    · rwa [hsame]
  · exact fun hlt => absurd hlt (lt_irrefl _)

end Good

theorem Chained.exists_holding {n i : ℕ} {xs : List Segment} (h : Chained n xs) (hn : n ≤ i)
    (hi : i < n + (xs.flatMap Segment.entries).length) : ∃ s ∈ xs, s.base ≤ i ∧ i < s.stop := by
  induction xs generalizing n with
  | nil =>
    rw [List.flatMap_nil, List.length_nil] at hi
    omega
  | cons s xs ih =>
    have hstop : s.stop = n + s.entries.length := by rw [Segment.stop, h.1]
    rcases Nat.lt_or_ge i s.stop with hlt | hge
    · exact ⟨s, List.mem_cons_self, h.1.trans_le hn, hlt⟩
    · rw [List.flatMap_cons, List.length_append] at hi
      obtain ⟨t, ht, hle⟩ := ih h.2 hge (by omega)
      exact ⟨t, List.mem_cons_of_mem s ht, hle⟩

namespace Good

variable {w w₁ : World}

/-- A deleted segment ends where the deleted entries end, or before. -/
theorem stop_le_evictedCount (h : Good c w) {s : Segment}
    (hs : s ∈ w.ghost.closed.take w.ghost.dropped) : s.stop ≤ evictedCount w := by
  have hc := h.ok.chained
  rw [Ghost.segments, ← List.take_append_drop w.ghost.dropped w.ghost.closed, List.append_assoc,
    chained_append] at hc
  have hle := hc.1.stop_le_total hs
  rwa [Nat.zero_add] at hle

/-- The linked segment files are those of the segments behind the deleted entries. -/
theorem linked_iff (h : Good c w) (b : ℕ) :
    (w.disk.find (.seg b)).isSome = true ↔
      ∃ s ∈ w.ghost.segments, s.base = b ∧ evictedCount w ≤ b := by
  constructor
  · intro hsome
    obtain ⟨i, hi⟩ := Option.isSome_iff_exists.mp hsome
    obtain ⟨s, hs, rfl, -⟩ := (h.seg b i).mp hi
    refine ⟨s, ?_, rfl, h.chained_linked.le_base hs⟩
    rcases List.mem_append.mp hs with hs | hs
    · exact Ghost.mem_segments.mpr (Or.inl (Ghost.mem_live hs))
    · exact Ghost.mem_segments.mpr (Or.inr (Option.mem_toList.mp hs))
  · rintro ⟨s, hs, rfl, hle⟩
    rcases Ghost.mem_segments.mp hs with hs | hs
    · rcases Ghost.mem_closed_iff.mp hs with hd | hl
      · have hstop := h.stop_le_evictedCount hd
        have hlen := List.length_pos_of_ne_nil (h.ok.nonempty s hs)
        rw [Segment.stop] at hstop
        omega
      · rw [h.find_live hl]
        rfl
    · rw [h.find_tail hs]
      rfl

theorem exists_of_find (h : Good c w) {b i : ℕ} (hi : w.disk.find (.seg b) = some i) :
    ∃ s ∈ w.ghost.segments, s.base = b ∧ s.ino = i ∧ evictedCount w ≤ b := by
  obtain ⟨s, hs, rfl, rfl⟩ := (h.seg b i).mp hi
  refine ⟨s, ?_, rfl, rfl, h.chained_linked.le_base hs⟩
  rcases List.mem_append.mp hs with hs | hs
  · exact Ghost.mem_segments.mpr (Or.inl (Ghost.mem_live hs))
  · exact Ghost.mem_segments.mpr (Or.inr (Option.mem_toList.mp hs))

/-- Without a segment file the watermark tells how many entries there have been. -/
theorem marked_of_unlinked (h : Good c w) (hnone : ∀ b, w.disk.find (.seg b) = none)
    (hne : w.ghost.total ≠ []) : MarkedTo w w.ghost.total.length := by
  have htail : w.ghost.tail = none := by
    cases ht : w.ghost.tail with
    | none => rfl
    | some s =>
      have hfind := h.find_tail ht
      rw [hnone] at hfind
      cases hfind
  have hlive : w.ghost.live = [] := by
    cases hl : w.ghost.live with
    | nil => rfl
    | cons s rest =>
      have hfind := h.find_live (s := s) (by simp [hl])
      rw [hnone] at hfind
      cases hfind
  exact h.markedTo_of_watermarkIs (h.evicted hlive htail hne)

theorem stop_le_base (h : Good c w) {s t : Segment} (hs : s ∈ w.ghost.segments)
    (ht : t ∈ w.ghost.segments) (hlt : s.base < t.base) : s.stop ≤ t.base := by
  have hpair := h.ok.chained.stop_le
  obtain ⟨i, hi, rfl⟩ := List.getElem_of_mem hs
  obtain ⟨j, hj, rfl⟩ := List.getElem_of_mem ht
  rcases Nat.lt_trichotomy i j with hij | rfl | hij
  · exact List.pairwise_iff_getElem.mp hpair i j hi hj hij
  · exact absurd hlt (lt_irrefl _)
  · have hle := List.pairwise_iff_getElem.mp hpair j i hj hi hij
    rw [Segment.stop] at hle
    omega

theorem stop_tail (h : Good c w) {s : Segment} (hs : w.ghost.tail = some s) :
    s.stop = w.ghost.total.length := by
  rw [Ghost.total_tail hs, List.length_append, Segment.stop, h.ok.tail_base hs]
  rfl

theorem segment_inj (h : Good c w) {s t : Segment} (hs : s ∈ w.ghost.segments)
    (ht : t ∈ w.ghost.segments) (hb : s.base = t.base) : s = t := by
  rcases Ghost.mem_segments.mp hs with hs | hs <;> rcases Ghost.mem_segments.mp ht with ht | ht
  · exact h.ok.closed_inj hs ht hb
  · exact absurd hb (h.ok.closed_ne hs ht)
  · exact absurd hb.symm (h.ok.closed_ne ht hs)
  · exact Option.some.inj (hs.symm.trans ht)

theorem stop_le_of_base_lt (h : Good c w) {s : Segment} (hs : s ∈ w.ghost.segments)
    (hlt : s.base < evictedCount w) : s.stop ≤ evictedCount w := by
  have hlinked : s ∉ w.ghost.live ++ w.ghost.tail.toList := by
    intro hmem
    have hle := h.chained_linked.le_base hmem
    rw [evictedCount] at hlt
    omega
  rw [List.mem_append, Option.mem_toList, not_or] at hlinked
  rcases Ghost.mem_segments.mp hs with hcl | htl
  · exact h.stop_le_evictedCount ((Ghost.mem_closed_iff.mp hcl).resolve_right hlinked.1)
  · exact absurd htl hlinked.2

theorem exists_holding (h : Good c w) {i : ℕ} (hi : i < w.ghost.total.length) :
    ∃ s ∈ w.ghost.segments, s.base ≤ i ∧ i < s.stop := by
  refine h.ok.chained.exists_holding (Nat.zero_le i) ?_
  rwa [Nat.zero_add]

theorem getElem?_total (h : Good c w) {s : Segment} (hs : s ∈ w.ghost.segments) {k : ℕ}
    (hk : k < s.entries.length) : w.ghost.total[s.base + k]? = s.entries[k]? := by
  have hc := h.ok.chained
  obtain ⟨xs, ys, hsplit⟩ := List.append_of_mem hs
  rw [hsplit, chained_append] at hc
  have hbase : s.base = (xs.flatMap Segment.entries).length := by
    rw [hc.2.1, Nat.zero_add]
  rw [Ghost.total, hsplit, List.flatMap_append, List.flatMap_cons, hbase,
    List.getElem?_append_right (Nat.le_add_right _ _), Nat.add_sub_cancel_left,
    List.getElem?_append_left hk]

end Good

namespace Later

variable {w w₁ : World}

theorem evicted_prefix (h : Later w w₁) (hg : Good c w) :
    w.ghost.closed.take w.ghost.dropped = w₁.ghost.closed.take w.ghost.dropped := by
  obtain ⟨more, hmore⟩ := h.closed
  rw [← hmore, List.take_append_of_le_length hg.ok.dropped]

theorem evictedCount_le (h : Later w w₁) (hg : Good c w) :
    evictedCount w ≤ evictedCount w₁ := by
  have htake : w.ghost.closed.take w.ghost.dropped <+:
      w₁.ghost.closed.take w₁.ghost.dropped := by
    rw [h.evicted_prefix hg]
    exact List.take_prefix_take_left h.dropped
  obtain ⟨rest, hrest⟩ := htake
  rw [evictedCount, evictedCount, evictedEntries, evictedEntries, ← hrest, List.flatMap_append,
    List.length_append]
  exact Nat.le_add_right _ _

/-- When entries have been deleted since, the watermark had passed all that were
there before. -/
theorem markedTo_of_lt (h : Later w w₁) (hg : Good c w)
    (hlt : evictedCount w < evictedCount w₁) : MarkedTo w₁ w.ghost.total.length := by
  refine h.swept (lt_of_le_of_ne h.dropped fun heq => ?_)
  rw [evictedCount, evictedCount, evictedEntries, evictedEntries, h.evicted_prefix hg, heq] at hlt
  exact absurd hlt (lt_irrefl _)

end Later

end OtkCore.SegmentLog
