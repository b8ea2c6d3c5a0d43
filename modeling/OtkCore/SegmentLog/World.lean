import OtkCore.SegmentLog.Image

/-!
# Directories the log can leave behind

A world is a disk together with the segments it stands for: the closed ones in
order, how many of those are deleted, and the one still being written. `Good`
relates the two and holds between any two operations of the log. `Move` lists
what a single operation of the log may do to a world; that every move keeps a
world good is proved once here, and every later argument about crashes,
failures and concurrent readers goes through the moves.
-/
namespace OtkCore.SegmentLog

open Effect FileIO Bytes

/-- A temporary file that is renamed into place when complete. -/
def FileName.isTmp : FileName → Bool
  | .idxTmp _ | .watermarkTmp => true
  | _ => false

/-- The segments of a log, oldest first: closed ones, of which the first
`dropped` are deleted, and the one without an index. -/
structure Ghost where
  closed : List Segment
  dropped : ℕ
  tail : Option Segment

namespace Ghost

def segments (g : Ghost) : List Segment := g.closed ++ g.tail.toList

def live (g : Ghost) : List Segment := g.closed.drop g.dropped

def closedCount (g : Ghost) : ℕ := (g.closed.flatMap Segment.entries).length

def total (g : Ghost) : List LogEntry := g.segments.flatMap Segment.entries

end Ghost

/-- Each segment begins where the one before it ends. -/
def Chained : ℕ → List Segment → Prop
  | _, [] => True
  | n, s :: rest => s.base = n ∧ Chained s.stop rest

theorem chained_append {n : ℕ} {xs ys : List Segment} :
    Chained n (xs ++ ys) ↔ Chained n xs ∧ Chained (n + (xs.flatMap Segment.entries).length) ys := by
  induction xs generalizing n with
  | nil => simp [Chained]
  | cons s xs ih =>
    simp only [List.cons_append, Chained, ih, and_assoc, List.flatMap_cons, List.length_append]
    constructor
    · rintro ⟨rfl, h₁, h₂⟩
      exact ⟨rfl, h₁, by rwa [← Nat.add_assoc]⟩
    · rintro ⟨rfl, h₁, h₂⟩
      exact ⟨rfl, h₁, by rwa [← Nat.add_assoc] at h₂⟩

structure World where
  disk : Disk FileName
  ghost : Ghost

variable (c : Codec)

structure Ghost.Ok (g : Ghost) : Prop where
  chained : Chained 0 g.segments
  nonempty : ∀ s ∈ g.closed, s.entries ≠ []
  entryOk : ∀ s ∈ g.segments, ∀ e ∈ s.entries, EntryOk c e
  numbered : ∀ s ∈ g.segments, Numbered s.base s.entries
  created : ∀ s ∈ g.segments, s.created < 2 ^ 64
  count : g.total.length < 2 ^ 64
  dropped : g.dropped ≤ g.closed.length

/-- Names are unique, linked inodes are allocated, files are addressable. -/
structure Tidy (d : Disk FileName) : Prop where
  inj : ∀ x y i, d.find x = some i → d.find y = some i → x = y
  bound : ∀ x i, d.find x = some i → i < d.next
  small : ∀ i, (d.data i).length ≤ maxFileLen

/-- The watermark file holds `n`. -/
def WatermarkIs (d : Disk FileName) (n : ℕ) : Prop :=
  ∃ j, d.find .watermark = some j ∧ d.data j = le 8 n

/-- The directory holds exactly the files of the segments, and each file has
the content its segment calls for. -/
structure Good (w : World) : Prop where
  ok : w.ghost.Ok c
  tidy : Tidy w.disk
  seg : ∀ b i, w.disk.find (.seg b) = some i ↔
    ∃ s ∈ w.ghost.live ++ w.ghost.tail.toList, s.base = b ∧ s.ino = i
  idx : ∀ s ∈ w.ghost.live, (w.disk.find (.idx s.base)).isSome = true
  idxData : ∀ b j, w.disk.find (.idx b) = some j →
    ∃ s ∈ w.ghost.closed, s.base = b ∧ w.disk.data j = indexBytes (s.positions c)
  gone : ∀ s ∈ w.ghost.closed.take w.ghost.dropped, ∀ x, w.disk.find x ≠ some s.ino
  closedData : ∀ s ∈ w.ghost.closed, s.ino < w.disk.next ∧
    w.disk.data s.ino = s.image c ++ sentinel
  tailData : ∀ s, w.ghost.tail = some s → OpenImage c s (w.disk.data s.ino)
  watermark : ∀ j, w.disk.find .watermark = some j →
    ∃ n ≤ w.ghost.closedCount, w.disk.data j = le 8 n
  evicted : w.ghost.live = [] → w.ghost.tail = none → w.ghost.total ≠ [] →
    WatermarkIs w.disk w.ghost.total.length

inductive Move : Op FileName → World → World → Prop
  | stay (o : Op FileName) (w : World) : Move o w w
  | scratchOpen {w : World} {x : FileName} : x.isTmp = true → w.disk.find x = none →
      Move (.openWrite x true) w ⟨w.disk.create x, w.ghost⟩
  | scratch (o : Op FileName) {w : World} {x : FileName} {i : ℕ} {bytes : List UInt8} :
      x.isTmp = true → w.disk.find x = some i → bytes.length ≤ maxFileLen →
      Move o w ⟨w.disk.setData i bytes, w.ghost⟩
  | close {w : World} {s : Segment} {i : ℕ} : w.ghost.tail = some s → s.entries ≠ [] →
      w.disk.data s.ino = s.image c ++ sentinel →
      w.disk.find (.idxTmp s.base) = some i → w.disk.data i = indexBytes (s.positions c) →
      Move (.rename (.idxTmp s.base) (.idx s.base)) w
        ⟨w.disk.rename (.idxTmp s.base) (.idx s.base) i,
          { w.ghost with closed := w.ghost.closed ++ [s], tail := none }⟩
  | mark {w : World} {i : ℕ} : w.ghost.tail = none → w.disk.find .watermarkTmp = some i →
      w.disk.data i = le 8 w.ghost.total.length →
      Move (.rename .watermarkTmp .watermark) w
        ⟨w.disk.rename .watermarkTmp .watermark i, w.ghost⟩
  | drop {w : World} {s : Segment} : w.ghost.tail = none →
      w.ghost.closed[w.ghost.dropped]? = some s →
      WatermarkIs w.disk w.ghost.total.length →
      Move (.unlink (.seg s.base)) w
        ⟨w.disk.unlink (.seg s.base), { w.ghost with dropped := w.ghost.dropped + 1 }⟩
  | dropIndex {w : World} {s : Segment} : s ∈ w.ghost.closed.take w.ghost.dropped →
      Move (.unlink (.idx s.base)) w ⟨w.disk.unlink (.idx s.base), w.ghost⟩
  | create {w : World} {ts : ℕ} : w.ghost.tail = none → ts < 2 ^ 64 →
      Move (.openWrite (.seg w.ghost.total.length) true) w
        ⟨w.disk.create (.seg w.ghost.total.length),
          { w.ghost with tail := some ⟨w.ghost.total.length, w.disk.next, ts, []⟩ }⟩
  | write (o : Op FileName) {w : World} {s s' : Segment} {bytes : List UInt8} :
      w.ghost.tail = some s → s'.base = s.base → s'.ino = s.ino → s'.created < 2 ^ 64 →
      (∀ e ∈ s'.entries, EntryOk c e) → Numbered s.base s'.entries →
      s.base + s'.entries.length < 2 ^ 64 → OpenImage c s' bytes → bytes.length ≤ maxFileLen →
      Move o w ⟨w.disk.setData s.ino bytes, { w.ghost with tail := some s' }⟩

variable {c}

theorem Chained.le_base {n : ℕ} {xs : List Segment} (h : Chained n xs) {s : Segment}
    (hs : s ∈ xs) : n ≤ s.base := by
  induction xs generalizing n with
  | nil => simp at hs
  | cons x xs ih =>
    rcases List.mem_cons.mp hs with rfl | hs
    · exact h.1.ge
    · have hrest := ih h.2 hs
      have hstop : n ≤ x.stop := by
        rw [Segment.stop, h.1]
        exact Nat.le_add_right _ _
      omega

theorem Chained.stop_le {n : ℕ} {xs : List Segment} (h : Chained n xs) :
    xs.Pairwise fun a b => a.stop ≤ b.base := by
  induction xs generalizing n with
  | nil => exact .nil
  | cons s xs ih => exact .cons (fun b hb => h.2.le_base hb) (ih h.2)

theorem Chained.stop_le_total {n : ℕ} {xs : List Segment} (h : Chained n xs) {s : Segment}
    (hs : s ∈ xs) : s.stop ≤ n + (xs.flatMap Segment.entries).length := by
  induction xs generalizing n with
  | nil => simp at hs
  | cons x xs ih =>
    have hx : x.stop = n + x.entries.length := by rw [Segment.stop, h.1]
    simp only [List.flatMap_cons, List.length_append]
    rcases List.mem_cons.mp hs with rfl | hs
    · omega
    · have := ih h.2 hs
      omega

namespace Ghost

theorem total_eq (g : Ghost) : g.total = g.closed.flatMap Segment.entries ++
    (g.tail.map Segment.entries).getD [] := by
  cases h : g.tail <;> simp [total, segments, h]

theorem Ok.closed_ne {g : Ghost} (h : g.Ok c) {s t : Segment} (hs : s ∈ g.closed)
    (ht : g.tail = some t) : s.base ≠ t.base := by
  have hp := h.chained.stop_le
  rw [segments, List.pairwise_append] at hp
  have hle := hp.2.2 s hs t (by simp [ht])
  have hlen := List.length_pos_of_ne_nil (h.nonempty s hs)
  rw [Segment.stop] at hle
  omega

theorem Ok.closed_inj {g : Ghost} (h : g.Ok c) {s t : Segment} (hs : s ∈ g.closed)
    (ht : t ∈ g.closed) (hb : s.base = t.base) : s = t := by
  have hp := h.chained.stop_le
  rw [segments, List.pairwise_append] at hp
  have hlt : ∀ a ∈ g.closed, a.base < a.stop := fun a ha => by
    have hlen := List.length_pos_of_ne_nil (h.nonempty a ha)
    rw [Segment.stop]
    omega
  obtain ⟨i, hi, rfl⟩ := List.getElem_of_mem hs
  obtain ⟨j, hj, rfl⟩ := List.getElem_of_mem ht
  have hpair := List.pairwise_iff_getElem.mp hp.1
  rcases Nat.lt_trichotomy i j with hij | rfl | hij
  · have h₁ := hpair i j hi hj hij
    have h₂ := hlt _ hs
    omega
  · rfl
  · have h₁ := hpair j i hj hi hij
    have h₂ := hlt _ ht
    omega

theorem Ok.tail_base {g : Ghost} (h : g.Ok c) {s : Segment} (hs : g.tail = some s) :
    s.base = g.closedCount := by
  have hc := h.chained
  rw [segments, hs, chained_append] at hc
  simpa [Chained, closedCount] using hc.2.1

theorem Ok.closed_lt {g : Ghost} (h : g.Ok c) {s : Segment} (hs : s ∈ g.closed) :
    s.base < g.total.length := by
  have hle := h.chained.stop_le_total (s := s) (by simp [segments, hs])
  have hlen := List.length_pos_of_ne_nil (h.nonempty s hs)
  rw [Segment.stop] at hle
  rw [total]
  omega

theorem mem_live {g : Ghost} {s : Segment} (hs : s ∈ g.live) : s ∈ g.closed :=
  List.mem_of_mem_drop hs

theorem mem_closed_iff {g : Ghost} {s : Segment} :
    s ∈ g.closed ↔ s ∈ g.closed.take g.dropped ∨ s ∈ g.live := by
  conv_lhs => rw [← List.take_append_drop g.dropped g.closed]
  rw [List.mem_append]
  rfl

end Ghost

namespace Good

variable {w : World}

theorem find_live (h : Good c w) {s : Segment} (hs : s ∈ w.ghost.live) :
    w.disk.find (.seg s.base) = some s.ino :=
  (h.seg _ _).mpr ⟨s, by simp [hs], rfl, rfl⟩

theorem find_tail (h : Good c w) {s : Segment} (hs : w.ghost.tail = some s) :
    w.disk.find (.seg s.base) = some s.ino :=
  (h.seg _ _).mpr ⟨s, by simp [hs], rfl, rfl⟩

/-- A linked file other than a closed segment's has another inode. -/
theorem closed_ino_ne (h : Good c w) {s : Segment} (hs : s ∈ w.ghost.closed) {x : FileName}
    {i : ℕ} (hx : w.disk.find x = some i) (hne : x ≠ .seg s.base) : s.ino ≠ i := by
  rintro rfl
  rcases Ghost.mem_closed_iff.mp hs with hd | hl
  · exact h.gone s hd x hx
  · exact hne (h.tidy.inj _ _ _ hx (h.find_live hl))

theorem tail_ino_ne (h : Good c w) {s : Segment} (hs : w.ghost.tail = some s) {x : FileName}
    {i : ℕ} (hx : w.disk.find x = some i) (hne : x ≠ .seg s.base) : s.ino ≠ i := by
  rintro rfl
  exact hne (h.tidy.inj _ _ _ hx (h.find_tail hs))

theorem closed_ino_ne_tail (h : Good c w) {s t : Segment} (hs : s ∈ w.ghost.closed)
    (ht : w.ghost.tail = some t) : s.ino ≠ t.ino :=
  h.closed_ino_ne hs (h.find_tail ht) fun heq =>
    h.ok.closed_ne hs ht (FileName.seg.inj heq).symm

end Good

namespace Tidy

variable {d : Disk FileName}

theorem create (h : Tidy d) (x : FileName) : Tidy (d.create x) := by
  refine ⟨fun y z i hy hz => ?_, fun y i hy => ?_, fun i => ?_⟩
  · rw [Disk.find_create] at hy hz
    have hinj := h.inj y z i
    have hb := h.bound
    split_ifs at hy hz with h₁ h₂ h₂
    · rw [h₁, h₂]
    · have := hb z i hz
      simp only [Option.some.injEq] at hy
      omega
    · have := hb y i hy
      simp only [Option.some.injEq] at hz
      omega
    · exact hinj hy hz
  · rw [Disk.find_create] at hy
    rw [Disk.next_create]
    split_ifs at hy
    · simp only [Option.some.injEq] at hy
      omega
    · have := h.bound y i hy
      omega
  · rw [Disk.data_create]
    split_ifs
    · simp
    · exact h.small i

theorem setData (h : Tidy d) (i : ℕ) {bytes : List UInt8} (hb : bytes.length ≤ maxFileLen) :
    Tidy (d.setData i bytes) := by
  refine ⟨fun y z j hy hz => h.inj y z j hy hz, fun y j hy => h.bound y j hy, fun j => ?_⟩
  rw [Disk.data_setData]
  split_ifs
  · exact hb
  · exact h.small j

theorem unlink (h : Tidy d) (x : FileName) : Tidy (d.unlink x) := by
  refine ⟨fun y z i hy hz => ?_, fun y i hy => ?_, h.small⟩
  · rw [Disk.find_unlink] at hy hz
    split_ifs at hy hz
    exact h.inj y z i hy hz
  · rw [Disk.find_unlink] at hy
    split_ifs at hy
    exact h.bound y i hy

theorem rename (h : Tidy d) {src dst : FileName} {i : ℕ} (hs : d.find src = some i) :
    Tidy (d.rename src dst i) := by
  refine ⟨fun y z j hy hz => ?_, fun y j hy => ?_, h.small⟩
  · rw [Disk.find_rename] at hy hz
    have h₁ := h.inj y z j
    have h₂ := h.inj y src j
    have h₃ := h.inj z src j
    split_ifs at hy hz <;> simp_all
  · rw [Disk.find_rename] at hy
    rw [Disk.next_rename]
    split_ifs at hy
    · simp only [Option.some.injEq] at hy
      exact hy ▸ h.bound src i hs
    · exact h.bound y j hy

end Tidy

namespace Good

variable {w : World}

theorem scratchOpen (h : Good c w) {x : FileName} (hx : x.isTmp = true) :
    Good c ⟨w.disk.create x, w.ghost⟩ := by
  have hfind : ∀ y, y.isTmp = false → (w.disk.create x).find y = w.disk.find y := by
    intro y hy
    rw [Disk.find_create, if_neg]
    rintro rfl
    simp [hx] at hy
  have hdata : ∀ i, i < w.disk.next → (w.disk.create x).data i = w.disk.data i := by
    intro i hi
    rw [Disk.data_create, if_neg (by omega)]
  have hlinked : ∀ {y i}, w.disk.find y = some i → (w.disk.create x).data i = w.disk.data i :=
    fun hy => hdata _ (h.tidy.bound _ _ hy)
  refine ⟨h.ok, h.tidy.create x, ?_, ?_, ?_, ?_, ?_, ?_, ?_, ?_⟩
  · intro b i
    rw [hfind _ rfl]
    exact h.seg b i
  · intro s hs
    rw [hfind _ rfl]
    exact h.idx s hs
  · intro b j hj
    rw [hfind _ rfl] at hj
    rw [hlinked hj]
    exact h.idxData b j hj
  · intro s hs y hy
    rw [Disk.find_create] at hy
    split_ifs at hy
    · have hlt := (h.closedData s (List.mem_of_mem_take hs)).1
      simp only [Option.some.injEq] at hy
      omega
    · exact h.gone s hs y hy
  · intro s hs
    obtain ⟨hlt, hd⟩ := h.closedData s hs
    refine ⟨?_, by rw [hdata _ hlt, hd]⟩
    rw [Disk.next_create]
    omega
  · intro s hs
    rw [hlinked (h.find_tail hs)]
    exact h.tailData s hs
  · intro j hj
    rw [hfind _ rfl] at hj
    rw [hlinked hj]
    exact h.watermark j hj
  · intro hl ht hne
    obtain ⟨j, hj, hd⟩ := h.evicted hl ht hne
    exact ⟨j, by rw [hfind _ rfl, hj], by rw [hlinked hj, hd]⟩

theorem scratch (h : Good c w) {x : FileName} {i : ℕ} {bytes : List UInt8} (hx : x.isTmp = true)
    (hi : w.disk.find x = some i) (hb : bytes.length ≤ maxFileLen) :
    Good c ⟨w.disk.setData i bytes, w.ghost⟩ := by
  have hne : ∀ b, x ≠ .seg b := by
    rintro b rfl
    simp [FileName.isTmp] at hx
  have hdata : ∀ {y j}, y.isTmp = false → w.disk.find y = some j →
      (w.disk.setData i bytes).data j = w.disk.data j := by
    intro y j hy hj
    rw [Disk.data_setData, if_neg]
    rintro rfl
    rw [h.tidy.inj _ _ _ hi hj] at hx
    simp [hx] at hy
  refine ⟨h.ok, h.tidy.setData i hb, h.seg, h.idx, ?_, h.gone, ?_, ?_, ?_, ?_⟩
  · intro b j hj
    rw [hdata rfl hj]
    exact h.idxData b j hj
  · intro s hs
    obtain ⟨hlt, hd⟩ := h.closedData s hs
    refine ⟨hlt, ?_⟩
    rw [Disk.data_setData, if_neg (h.closed_ino_ne hs hi (hne _)), hd]
  · intro s hs
    rw [Disk.data_setData, if_neg (h.tail_ino_ne hs hi (hne _))]
    exact h.tailData s hs
  · intro j hj
    rw [hdata rfl hj]
    exact h.watermark j hj
  · intro hl ht htot
    obtain ⟨j, hj, hd⟩ := h.evicted hl ht htot
    exact ⟨j, hj, by rw [hdata rfl hj, hd]⟩

theorem mark (h : Good c w) {i : ℕ} (ht : w.ghost.tail = none)
    (hi : w.disk.find .watermarkTmp = some i)
    (hd : w.disk.data i = le 8 w.ghost.total.length) :
    Good c ⟨w.disk.rename .watermarkTmp .watermark i, w.ghost⟩ := by
  have hfind : ∀ y, y ≠ .watermark → y ≠ .watermarkTmp →
      (w.disk.rename .watermarkTmp .watermark i).find y = w.disk.find y := by
    intro y h₁ h₂
    simp [h₁, h₂]
  refine ⟨h.ok, h.tidy.rename hi, ?_, ?_, ?_, ?_, h.closedData, h.tailData, ?_, ?_⟩
  · intro b j
    rw [hfind _ (by simp) (by simp)]
    exact h.seg b j
  · intro s hs
    rw [hfind _ (by simp) (by simp)]
    exact h.idx s hs
  · intro b j hj
    rw [hfind _ (by simp) (by simp)] at hj
    exact h.idxData b j hj
  · intro s hs y hy
    rw [Disk.find_rename] at hy
    split_ifs at hy
    · exact h.gone s hs _ (hi.trans hy)
    · exact h.gone s hs y hy
  · intro j hj
    simp only [Disk.find_rename, if_true, Option.some.injEq] at hj
    subst hj
    exact ⟨_, le_rfl, by simpa [Ghost.total_eq, Ghost.closedCount, ht] using hd⟩
  · intro _ _ _
    exact ⟨i, by simp, hd⟩

theorem close (h : Good c w) {s : Segment} {i : ℕ} (ht : w.ghost.tail = some s)
    (hne : s.entries ≠ []) (hd : w.disk.data s.ino = s.image c ++ sentinel)
    (hi : w.disk.find (.idxTmp s.base) = some i)
    (hidx : w.disk.data i = indexBytes (s.positions c)) :
    Good c ⟨w.disk.rename (.idxTmp s.base) (.idx s.base) i,
      { w.ghost with closed := w.ghost.closed ++ [s], tail := none }⟩ := by
  have hsegs : ({ w.ghost with closed := w.ghost.closed ++ [s], tail := none } : Ghost).segments =
      w.ghost.segments := by
    simp [Ghost.segments, ht]
  have htotal : ({ w.ghost with closed := w.ghost.closed ++ [s], tail := none } : Ghost).total =
      w.ghost.total := by
    rw [Ghost.total, hsegs, Ghost.total]
  have hlive : ({ w.ghost with closed := w.ghost.closed ++ [s], tail := none } : Ghost).live =
      w.ghost.live ++ [s] := by
    simp [Ghost.live, List.drop_append_of_le_length h.ok.dropped]
  have htake : (w.ghost.closed ++ [s]).take w.ghost.dropped =
      w.ghost.closed.take w.ghost.dropped := List.take_append_of_le_length h.ok.dropped
  have hfind : ∀ y, y ≠ .idx s.base → y ≠ .idxTmp s.base →
      (w.disk.rename (.idxTmp s.base) (.idx s.base) i).find y = w.disk.find y := by
    intro y h₁ h₂
    simp [h₁, h₂]
  refine ⟨⟨?_, ?_, ?_, ?_, ?_, ?_, ?_⟩, h.tidy.rename hi, ?_, ?_, ?_, ?_, ?_, ?_, ?_, ?_⟩
  · rw [hsegs]; exact h.ok.chained
  · intro t htm
    rcases List.mem_append.mp htm with htm | htm
    · exact h.ok.nonempty t htm
    · exact (List.mem_singleton.mp htm) ▸ hne
  · rw [hsegs]; exact h.ok.entryOk
  · rw [hsegs]; exact h.ok.numbered
  · rw [hsegs]; exact h.ok.created
  · rw [htotal]; exact h.ok.count
  · have := h.ok.dropped
    simp only [List.length_append, List.length_singleton]
    omega
  · intro b j
    rw [hfind _ (by simp) (by simp), h.seg b j, hlive, ht]
    simp
  · intro t htm
    rw [hlive] at htm
    by_cases hb : t.base = s.base
    · simp [hb]
    · rw [hfind _ (by simpa using hb) (by simp)]
      rcases List.mem_append.mp htm with htm | htm
      · exact h.idx t htm
      · exact absurd (List.mem_singleton.mp htm ▸ rfl) hb
  · intro b j hj
    by_cases hb : b = s.base
    · subst hb
      simp only [Disk.find_rename, if_true, Option.some.injEq] at hj
      exact ⟨s, by simp, rfl, hj ▸ hidx⟩
    · rw [hfind _ (by simpa using hb) (by simp)] at hj
      obtain ⟨t, htm, rfl, hdt⟩ := h.idxData b j hj
      exact ⟨t, by simp [htm], rfl, hdt⟩
  · intro t htm y hy
    rw [htake] at htm
    rw [Disk.find_rename] at hy
    split_ifs at hy
    · exact h.gone t htm _ (hi.trans hy)
    · exact h.gone t htm y hy
  · intro t htm
    rcases List.mem_append.mp htm with htm | htm
    · exact h.closedData t htm
    · obtain rfl := List.mem_singleton.mp htm
      exact ⟨h.tidy.bound _ _ (h.find_tail ht), hd⟩
  · intro t htm
    cases htm
  · intro j hj
    rw [hfind _ (by simp) (by simp)] at hj
    obtain ⟨n, hn, hdn⟩ := h.watermark j hj
    refine ⟨n, hn.trans ?_, hdn⟩
    simp [Ghost.closedCount]
  · intro hl
    rw [hlive] at hl
    simp at hl

theorem live_eq_cons {g : Ghost} {s : Segment} (hs : g.closed[g.dropped]? = some s) :
    g.live = s :: g.closed.drop (g.dropped + 1) := by
  obtain ⟨hlt, rfl⟩ := List.getElem?_eq_some_iff.mp hs
  exact List.drop_eq_getElem_cons hlt

theorem drop (h : Good c w) {s : Segment} (ht : w.ghost.tail = none)
    (hs : w.ghost.closed[w.ghost.dropped]? = some s)
    (hwm : WatermarkIs w.disk w.ghost.total.length) :
    Good c ⟨w.disk.unlink (.seg s.base),
      { w.ghost with dropped := w.ghost.dropped + 1 }⟩ := by
  have hlive := live_eq_cons hs
  have hslive : s ∈ w.ghost.live := by simp [hlive]
  have hfind : ∀ y, y ≠ .seg s.base → (w.disk.unlink (.seg s.base)).find y = w.disk.find y := by
    intro y hy
    simp [hy]
  -- Later segments begin after this one.
  have hlater : ∀ t ∈ w.ghost.closed.drop (w.ghost.dropped + 1), t.base ≠ s.base := by
    intro t htm
    have hp := h.ok.chained.stop_le
    rw [Ghost.segments, List.pairwise_append] at hp
    have hpl : w.ghost.live.Pairwise fun a b => a.stop ≤ b.base :=
      hp.1.sublist (List.drop_sublist _ _)
    rw [hlive, List.pairwise_cons] at hpl
    have hle := hpl.1 t htm
    have hlen := List.length_pos_of_ne_nil (h.ok.nonempty s (Ghost.mem_live hslive))
    rw [Segment.stop] at hle
    omega
  refine ⟨⟨h.ok.chained, h.ok.nonempty, h.ok.entryOk, h.ok.numbered, h.ok.created, h.ok.count, ?_⟩,
    h.tidy.unlink _, ?_, ?_, ?_, ?_, h.closedData, h.tailData, ?_, ?_⟩
  · exact (List.getElem?_eq_some_iff.mp hs).1
  · intro b i
    have hseg := h.seg b i
    rw [hlive, ht] at hseg
    by_cases hb : b = s.base
    · subst hb
      simp only [Disk.find_unlink, if_true, reduceCtorEq, false_iff, ht]
      rintro ⟨t, htm, hb, -⟩
      simp only [Option.toList_none, List.append_nil] at htm
      exact hlater t htm hb
    · rw [hfind _ (by simpa using hb), hseg, ht]
      simp only [Option.toList_none, List.append_nil, List.mem_cons]
      constructor
      · rintro ⟨t, rfl | htm, h₁, h₂⟩
        · exact absurd h₁.symm hb
        · exact ⟨t, htm, h₁, h₂⟩
      · rintro ⟨t, htm, h₁, h₂⟩
        exact ⟨t, Or.inr htm, h₁, h₂⟩
  · intro t htm
    rw [hfind _ (by simp)]
    exact h.idx t (by rw [hlive]; exact List.mem_cons_of_mem _ htm)
  · intro b j hj
    rw [hfind _ (by simp)] at hj
    exact h.idxData b j hj
  · intro t htm y hy
    rw [Disk.find_unlink] at hy
    split_ifs at hy with hy'
    rw [List.take_add_one, hs, List.mem_append] at htm
    rcases htm with htm | htm
    · exact h.gone t htm y hy
    · obtain rfl : t = s := by simpa using htm
      exact hy' (h.tidy.inj _ _ _ hy (h.find_live hslive))
  · intro j hj
    rw [hfind _ (by simp)] at hj
    exact h.watermark j hj
  · intro _ _ _
    obtain ⟨j, hj, hd⟩ := hwm
    exact ⟨j, by rw [hfind _ (by simp), hj], hd⟩

theorem dropIndex (h : Good c w) {s : Segment}
    (hs : s ∈ w.ghost.closed.take w.ghost.dropped) :
    Good c ⟨w.disk.unlink (.idx s.base), w.ghost⟩ := by
  have hfind : ∀ y, y ≠ .idx s.base → (w.disk.unlink (.idx s.base)).find y = w.disk.find y := by
    intro y hy
    simp [hy]
  refine ⟨h.ok, h.tidy.unlink _, ?_, ?_, ?_, ?_, h.closedData, h.tailData, ?_, ?_⟩
  · intro b i
    rw [hfind _ (by simp)]
    exact h.seg b i
  · intro t htm
    have hb : t.base ≠ s.base := by
      intro hb
      have heq := h.ok.closed_inj (Ghost.mem_live htm) (List.mem_of_mem_take hs) hb
      exact h.gone s hs _ (heq ▸ h.find_live htm)
    rw [hfind _ (by simpa using hb)]
    exact h.idx t htm
  · intro b j hj
    rw [Disk.find_unlink] at hj
    split_ifs at hj
    exact h.idxData b j hj
  · intro t htm y hy
    rw [Disk.find_unlink] at hy
    split_ifs at hy
    exact h.gone t htm y hy
  · intro j hj
    rw [hfind _ (by simp)] at hj
    exact h.watermark j hj
  · intro hl ht hne
    obtain ⟨j, hj, hd⟩ := h.evicted hl ht hne
    exact ⟨j, by rw [hfind _ (by simp), hj], hd⟩

theorem create (h : Good c w) {ts : ℕ} (ht : w.ghost.tail = none) (hts : ts < 2 ^ 64) :
    Good c ⟨w.disk.create (.seg w.ghost.total.length),
      { w.ghost with tail := some ⟨w.ghost.total.length, w.disk.next, ts, []⟩ }⟩ := by
  have htotal : w.ghost.total = w.ghost.closed.flatMap Segment.entries := by
    simp [Ghost.total_eq, ht]
  have hsegs : w.ghost.segments = w.ghost.closed := by simp [Ghost.segments, ht]
  have hfind : ∀ y, y ≠ .seg w.ghost.total.length →
      (w.disk.create (.seg w.ghost.total.length)).find y = w.disk.find y := by
    intro y hy
    simp [hy]
  have hlinked : ∀ {y i}, w.disk.find y = some i →
      (w.disk.create (.seg w.ghost.total.length)).data i = w.disk.data i := by
    intro y i hy
    have := h.tidy.bound _ _ hy
    rw [Disk.data_create, if_neg (by omega)]
  refine ⟨⟨?_, h.ok.nonempty, ?_, ?_, ?_, ?_, h.ok.dropped⟩, h.tidy.create _,
    ?_, ?_, ?_, ?_, ?_, ?_, ?_, ?_⟩
  · have hc := h.ok.chained
    rw [hsegs] at hc
    simp [Ghost.segments, chained_append, Chained, hc, htotal]
  · intro s hs e he
    simp only [Ghost.segments, Option.toList_some, List.mem_append, List.mem_singleton] at hs
    rcases hs with hs | rfl
    · exact h.ok.entryOk s (by rwa [hsegs]) e he
    · simp at he
  · intro s hs
    simp only [Ghost.segments, Option.toList_some, List.mem_append, List.mem_singleton] at hs
    rcases hs with hs | rfl
    · exact h.ok.numbered s (by rwa [hsegs])
    · exact numbered_nil _
  · intro s hs
    simp only [Ghost.segments, Option.toList_some, List.mem_append, List.mem_singleton] at hs
    rcases hs with hs | rfl
    · exact h.ok.created s (by rwa [hsegs])
    · exact hts
  · have hcount := h.ok.count
    rw [htotal] at hcount
    simpa [Ghost.total_eq] using hcount
  · intro b i
    have hseg := h.seg b i
    rw [ht] at hseg
    simp only [Option.toList_none, List.append_nil] at hseg
    change (w.disk.create _).find (.seg b) = some i ↔ ∃ s ∈ w.ghost.live ++ [_], s.base = b ∧ s.ino = i
    by_cases hb : b = w.ghost.total.length
    · subst hb
      have hnone : ∀ s ∈ w.ghost.live, s.base ≠ w.ghost.total.length := fun s hs =>
        (h.ok.closed_lt (Ghost.mem_live hs)).ne
      simp only [Disk.find_create, if_true, Option.some.injEq, List.mem_append, List.mem_singleton]
      constructor
      · intro hi
        exact ⟨_, Or.inr rfl, rfl, hi⟩
      · rintro ⟨s, hs | rfl, h₁, h₂⟩
        · exact absurd h₁ (hnone s hs)
        · exact h₂
    · rw [hfind _ (by simpa using hb), hseg]
      simp only [List.mem_append, List.mem_singleton]
      constructor
      · rintro ⟨s, hs, h₁, h₂⟩
        exact ⟨s, Or.inl hs, h₁, h₂⟩
      · rintro ⟨s, hs | rfl, h₁, h₂⟩
        · exact ⟨s, hs, h₁, h₂⟩
        · exact absurd h₁.symm hb
  · intro s hs
    rw [hfind _ (by simp)]
    exact h.idx s hs
  · intro b j hj
    rw [hfind _ (by simp)] at hj
    rw [hlinked hj]
    exact h.idxData b j hj
  · intro s hs y hy
    rw [Disk.find_create] at hy
    split_ifs at hy
    · have hlt := (h.closedData s (List.mem_of_mem_take hs)).1
      simp only [Option.some.injEq] at hy
      omega
    · exact h.gone s hs y hy
  · intro s hs
    obtain ⟨hlt, hd⟩ := h.closedData s hs
    refine ⟨?_, by rw [Disk.data_create, if_neg (by omega), hd]⟩
    rw [Disk.next_create]
    omega
  · intro s hs
    obtain rfl := Option.some.inj hs
    left
    simp [headerLen]
  · intro j hj
    rw [hfind _ (by simp)] at hj
    rw [hlinked hj]
    exact h.watermark j hj
  · intro _ htail
    simp at htail

theorem write (h : Good c w) {s s' : Segment} {bytes : List UInt8} (ht : w.ghost.tail = some s)
    (hbase : s'.base = s.base) (hino : s'.ino = s.ino) (hcre : s'.created < 2 ^ 64)
    (hok : ∀ e ∈ s'.entries, EntryOk c e) (hnum : Numbered s.base s'.entries)
    (hcount : s.base + s'.entries.length < 2 ^ 64) (himg : OpenImage c s' bytes)
    (hb : bytes.length ≤ maxFileLen) :
    Good c ⟨w.disk.setData s.ino bytes, { w.ghost with tail := some s' }⟩ := by
  have hlinked : ∀ {y i}, w.disk.find y = some i → y ≠ .seg s.base →
      (w.disk.setData s.ino bytes).data i = w.disk.data i := by
    intro y i hy hne
    rw [Disk.data_setData, if_neg (h.tail_ino_ne ht hy hne).symm]
  have hmem : ∀ {t}, t ∈ ({ w.ghost with tail := some s' } : Ghost).segments →
      t ∈ w.ghost.closed ∨ t = s' := by
    intro t htm
    simpa [Ghost.segments] using htm
  have hseg : ∀ {t}, t ∈ w.ghost.closed → t ∈ w.ghost.segments := by
    intro t htm
    simp [Ghost.segments, htm]
  refine ⟨⟨?_, h.ok.nonempty, ?_, ?_, ?_, ?_, h.ok.dropped⟩, h.tidy.setData _ hb,
    ?_, h.idx, ?_, h.gone, ?_, ?_, ?_, ?_⟩
  · have hc := h.ok.chained
    rw [Ghost.segments, ht, chained_append] at hc
    rw [Ghost.segments, chained_append]
    exact ⟨hc.1, by simpa [Chained, hbase] using hc.2.1⟩
  · intro t htm e he
    rcases hmem htm with htm | rfl
    · exact h.ok.entryOk t (hseg htm) e he
    · exact hok e he
  · intro t htm
    rcases hmem htm with htm | rfl
    · exact h.ok.numbered t (hseg htm)
    · rwa [hbase]
  · intro t htm
    rcases hmem htm with htm | rfl
    · exact h.ok.created t (hseg htm)
    · exact hcre
  · have htb := h.ok.tail_base ht
    rw [Ghost.closedCount] at htb
    simpa [Ghost.total_eq, ← htb] using hcount
  · intro b i
    have hiff := h.seg b i
    rw [ht] at hiff
    rw [Disk.find_setData, hiff]
    simp only [Option.toList_some, List.mem_append, List.mem_singleton]
    change _ ↔ ∃ t, (t ∈ w.ghost.live ∨ t = s') ∧ t.base = b ∧ t.ino = i
    constructor
    · rintro ⟨t, htm | rfl, h₁, h₂⟩
      · exact ⟨t, Or.inl htm, h₁, h₂⟩
      · exact ⟨s', Or.inr rfl, hbase.trans h₁, hino.trans h₂⟩
    · rintro ⟨t, htm | rfl, h₁, h₂⟩
      · exact ⟨t, Or.inl htm, h₁, h₂⟩
      · exact ⟨s, Or.inr rfl, hbase.symm.trans h₁, hino.symm.trans h₂⟩
  · intro b j hj
    rw [hlinked hj (by simp)]
    exact h.idxData b j hj
  · intro t htm
    obtain ⟨hlt, hd⟩ := h.closedData t htm
    exact ⟨hlt, by rw [Disk.data_setData, if_neg (h.closed_ino_ne_tail htm ht), hd]⟩
  · intro t htm
    obtain rfl := Option.some.inj htm
    rw [Disk.data_setData, if_pos hino]
    exact himg
  · intro j hj
    rw [hlinked hj (by simp)]
    exact h.watermark j hj
  · intro _ htail
    simp at htail

theorem move (h : Good c w) {o : Op FileName} {w' : World} (hm : Move c o w w') : Good c w' := by
  cases hm with
  | stay => exact h
  | scratchOpen hx _ => exact h.scratchOpen hx
  | scratch _ hx hi hb => exact h.scratch hx hi hb
  | close ht hne hd hi hidx => exact h.close ht hne hd hi hidx
  | mark ht hi hd => exact h.mark ht hi hd
  | drop ht hs hwm => exact h.drop ht hs hwm
  | dropIndex hs => exact h.dropIndex hs
  | create ht hts => exact h.create ht hts
  | write _ ht hbase hino hcre hok hnum hcount himg hb =>
    exact h.write ht hbase hino hcre hok hnum hcount himg hb

end Good

def World.empty : World := ⟨.empty, ⟨[], 0, none⟩⟩

theorem good_empty : Good c World.empty := by
  refine ⟨⟨?_, ?_, ?_, ?_, ?_, ?_, ?_⟩, ⟨?_, ?_, ?_⟩, ?_, ?_, ?_, ?_, ?_, ?_, ?_, ?_⟩ <;>
    simp [World.empty, Ghost.segments, Ghost.live, Ghost.total, Chained, Disk.empty, Disk.find]

end OtkCore.SegmentLog
