import OtkCore.SegmentLog.World
import OtkCore.SegmentLog.Log

/-!
# Writing to the segment without an index

Rules for the file procedures that append records to the newest segment. They
hold with any choice of failing operations except `set_len`, for a stated set
of contents the log may pass through, and, where it is asked for, for readers
that follow the file while it grows.
-/
namespace OtkCore.SegmentLog

open Effect FileIO Bytes

/-- The circumstances a procedure runs in: which operations may fail, whether
readers follow the newest segment, and which contents are allowed. -/
structure Mode where
  fails : Op FileName → Prop
  strict : Prop
  allowed : List LogEntry → Prop

/-- What a reader of the newest segment can live with: the file grows, or a
`set_len` takes it back to the end of some record before it was ended. -/
def Gentle (c : Codec) (o : Op FileName) (w w' : World) : Prop :=
  ∀ s s', w.ghost.tail = some s → w'.ghost.tail = some s' →
    (w.disk.data s.ino <+: w'.disk.data s.ino ∧ s.entries <+: s'.entries ∧
      s'.created = s.created) ∨
    (∃ k, s' = { s with entries := s.entries.take k } ∧ o = .setLen s.ino (s'.image c).length ∧
      w'.disk.data s.ino = s'.image c ∧ w.disk.data s.ino ≠ s.image c ++ sentinel)

def setting (c : Codec) (m : Mode) : Setting (Resp (N := FileName)) (Disk FileName) World where
  step := Step m.fails
  view := World.disk
  rely w w₁ := w₁ = w
  guar w o _ w' := Move c o w w' ∧ (m.allowed w.ghost.total → m.allowed w'.ghost.total) ∧
    (m.strict → Gentle c o w w')

variable {c : Codec} {m : Mode}

theorem gentle_refl (o : Op FileName) (w : World) : Gentle c o w w := by
  intro s s' hs hs'
  obtain rfl : s = s' := by simpa [hs] using hs'
  exact Or.inl ⟨List.prefix_refl _, List.prefix_refl _, rfl⟩

theorem quiet_setting : Quiet (setting c m) m.fails :=
  ⟨rfl, fun _ _ h => h, fun w o _ => ⟨.stay o w, id, fun _ => gentle_refl o w⟩⟩

theorem guar_of_ghost {o : Op FileName} {w w' : World} {r : Resp o} (h : Move c o w w')
    (hg : w'.ghost = w.ghost)
    (hd : ∀ s, w.ghost.tail = some s → w'.disk.data s.ino = w.disk.data s.ino) :
    (setting c m).guar w o r w' := by
  refine ⟨h, by rw [hg]; exact id, fun _ s s' hs hs' => Or.inl ?_⟩
  rw [hg, hs] at hs'
  obtain rfl := Option.some.inj hs'
  rw [hd s hs]
  exact ⟨List.prefix_refl _, List.prefix_refl _, rfl⟩

theorem patch_middle (front back bytes : List UInt8) :
    patch (front ++ back) front.length bytes = front ++ bytes ++ back.drop bytes.length := by
  simp [patch]

theorem resize_front (front back : List UInt8) : resize (front ++ back) front.length = front := by
  simp [resize]

namespace Segment

def push (s : Segment) (e : LogEntry) : Segment := { s with entries := s.entries ++ [e] }

@[simp] theorem image_push (s : Segment) (e : LogEntry) :
    (s.push e).image c = s.image c ++ recordBytes c e := by
  simp [push, image]

@[simp] theorem push_ino (s : Segment) (e : LogEntry) : (s.push e).ino = s.ino := rfl

@[simp] theorem push_base (s : Segment) (e : LogEntry) : (s.push e).base = s.base := rfl

def extend (s : Segment) (es : List LogEntry) : Segment := { s with entries := s.entries ++ es }

@[simp] theorem extend_ino (s : Segment) (es : List LogEntry) : (s.extend es).ino = s.ino := rfl

@[simp] theorem extend_nil (s : Segment) : s.extend [] = s := by
  simp [extend]

theorem push_extend (s : Segment) (e : LogEntry) (es : List LogEntry) :
    (s.push e).extend es = s.extend (e :: es) := by
  simp [push, extend]

/-- The segment without its entries from the `k`-th on. -/
def cut (s : Segment) (k : ℕ) : Segment := { s with entries := s.entries.take k }

@[simp] theorem cut_ino (s : Segment) (k : ℕ) : (s.cut k).ino = s.ino := rfl

theorem cut_length (s : Segment) : s.cut s.entries.length = s := by
  simp [cut]

theorem image_eq_cut (s : Segment) (k : ℕ) :
    s.image c = (s.cut k).image c ++ recordsBytes c (s.entries.drop k) := by
  rw [image, ← List.take_append_drop k s.entries, recordsBytes_append, ← List.append_assoc]
  simp [image, cut]

theorem push_cut (s : Segment) (e : LogEntry) {k : ℕ} (hk : k ≤ s.entries.length) :
    (s.push e).cut k = s.cut k := by
  simp [push, cut, List.take_append_of_le_length hk]

end Segment

/-- The world with the newest segment and its file replaced. -/
def World.setTail (w : World) (s : Segment) (bytes : List UInt8) : World :=
  ⟨w.disk.setData s.ino bytes, { w.ghost with tail := some s }⟩

namespace World

variable {w : World} {s : Segment}

theorem setTail_self {bytes : List UInt8} (ht : w.ghost.tail = some s)
    (hd : w.disk.data s.ino = bytes) : w.setTail s bytes = w := by
  subst hd
  unfold setTail Disk.setData
  rw [Function.update_eq_self, ← ht]

theorem setTail_setTail {s' : Segment} (hino : s'.ino = s.ino) (bytes bytes' : List UInt8) :
    (w.setTail s bytes).setTail s' bytes' = w.setTail s' bytes' := by
  simp [setTail, Disk.setData, hino]

theorem disk_setTail {s' : Segment} (hino : s'.ino = s.ino) (bytes bytes' : List UInt8) :
    (w.setTail s' bytes').disk = (w.setTail s bytes).disk.setData s.ino bytes' := by
  simp [setTail, Disk.setData, hino]

@[simp] theorem setTail_tail (bytes : List UInt8) : (w.setTail s bytes).ghost.tail = some s := rfl

@[simp] theorem setTail_data (bytes : List UInt8) : (w.setTail s bytes).disk.data s.ino = bytes := by
  simp [setTail]

end World

theorem Ghost.total_tail {g : Ghost} {s : Segment} (h : g.tail = some s) :
    g.total = g.closed.flatMap Segment.entries ++ s.entries := by
  simp [total_eq, h]

theorem torn_ne_sentinel {e : LogEntry} (he : EntryOk c e) {j : ℕ}
    (hj : j < (recordBytes c e).length) : (recordBytes c e).take j ≠ sentinel := by
  intro h
  have hnone := parse_torn c he 0 (List.take_prefix j _) (by
    rw [List.length_take]
    omega)
  have hsome := parse_sentinel c 0 []
  rw [List.append_nil, ← h, hnone] at hsome
  cases hsome

/-- The tail while a record is written over a short remainder. -/
theorem tailOk_torn {e : LogEntry} (he : EntryOk c e) {z : List UInt8} (hz : z.length < 4) {j : ℕ}
    (hj : j < (recordBytes c e).length) : TailOk c ((recordBytes c e).take j ++ z.drop j) := by
  by_cases h4 : j < 4
  · left
    simp only [List.length_append, List.length_take, List.length_drop]
    omega
  · right; right
    rw [List.drop_eq_nil_of_le (by omega), List.append_nil]
    refine ⟨e, he, List.take_prefix _ _, ?_⟩
    rw [List.length_take]
    omega

/-- A tail segment in place, its file holding the records and fewer than four
bytes after them. -/
structure AtTail (c : Codec) (m : Mode) (w : World) (s : Segment) (z : List UInt8) : Prop where
  good : Good c w
  tail : w.ghost.tail = some s
  data : w.disk.data s.ino = s.image c ++ z
  short : z.length < 4
  strict : m.strict → z = []

theorem AtTail.base {w : World} {s : Segment} {z : List UInt8} (h : AtTail c m w s z) :
    s.stop = w.ghost.total.length := by
  rw [Ghost.total_tail h.tail, Segment.stop, h.good.ok.tail_base h.tail, List.length_append]
  rfl

/-- A segment whose entries can be written and read back under its base. -/
structure Segment.Valid (c : Codec) (s : Segment) : Prop where
  created : s.created < 2 ^ 64
  entryOk : ∀ e ∈ s.entries, EntryOk c e
  numbered : Numbered s.base s.entries
  count : s.base + s.entries.length < 2 ^ 64

theorem Good.validTail {w : World} (h : Good c w) {s : Segment} (ht : w.ghost.tail = some s) :
    s.Valid c := by
  have hm : s ∈ w.ghost.segments := by simp [Ghost.segments, ht]
  have hcount := h.ok.count
  have hbase := h.ok.tail_base ht
  rw [Ghost.total_tail ht, List.length_append] at hcount
  rw [Ghost.closedCount] at hbase
  exact ⟨h.ok.created s hm, h.ok.entryOk s hm, h.ok.numbered s hm, by omega⟩

namespace Segment.Valid

variable {s : Segment}

theorem cut (h : s.Valid c) (k : ℕ) : (s.cut k).Valid c := by
  refine ⟨h.created, fun e he => h.entryOk e (List.mem_of_mem_take he), h.numbered.take k, ?_⟩
  have hcount := h.count
  have hle : (s.entries.take k).length ≤ s.entries.length := by simp
  change s.base + (s.entries.take k).length < 2 ^ 64
  omega

theorem push (h : s.Valid c) {e : LogEntry} (he : EntryOk c e) (hoff : e.offset = s.stop)
    (hlt : e.offset < 2 ^ 64 - 1) : (s.push e).Valid c := by
  refine ⟨h.created, fun x hx => ?_, ?_, ?_⟩
  · rcases List.mem_append.mp hx with hx | hx
    · exact h.entryOk x hx
    · exact (List.mem_singleton.mp hx) ▸ he
  · exact numbered_append.mpr ⟨h.numbered, numbered_cons.mpr ⟨hoff, numbered_nil _⟩⟩
  · rw [Segment.stop] at hoff
    simp only [Segment.push, List.length_append, List.length_singleton]
    omega

end Segment.Valid

/-- What a write to the newest segment has to satisfy to be a move. -/
theorem Move.setTail {w : World} {s s' : Segment} {bytes : List UInt8}
    (ht : w.ghost.tail = some s) (hbase : s'.base = s.base) (hino : s'.ino = s.ino)
    (hv : s'.Valid c) (himg : OpenImage c s' bytes) (hlen : bytes.length ≤ maxFileLen)
    (o : Op FileName) : Move c o w (w.setTail s' bytes) := by
  have hnum := hv.numbered
  have hcount := hv.count
  rw [hbase] at hnum hcount
  have h := Move.write (c := c) o ht hbase hino hv.created hv.entryOk hnum hcount himg hlen
  rwa [← hino] at h

theorem AtTail.valid {w : World} {s : Segment} {z : List UInt8} (h : AtTail c m w s z) :
    s.Valid c :=
  h.good.validTail h.tail

theorem AtTail.length_image_le {w : World} {s : Segment} {z : List UInt8} (h : AtTail c m w s z) :
    (s.image c).length ≤ maxFileLen := by
  have hsmall := h.good.tidy.small s.ino
  rw [h.data, List.length_append] at hsmall
  omega

/-- The segment once `j` bytes of a record for `e` are written. -/
def tornSegment (c : Codec) (s : Segment) (e : LogEntry) (j : ℕ) : Segment :=
  if j < (recordBytes c e).length then s else s.push e

/-- The file once `j` bytes of a record for `e` are written over `z`. -/
def tornBytes (c : Codec) (s : Segment) (e : LogEntry) (z : List UInt8) (j : ℕ) : List UInt8 :=
  s.image c ++ ((recordBytes c e).take j ++ z.drop j)

@[simp] theorem tornSegment_ino (s : Segment) (e : LogEntry) (j : ℕ) :
    (tornSegment c s e j).ino = s.ino := by
  unfold tornSegment
  split_ifs <;> rfl

theorem length_tornBytes {s : Segment} {e : LogEntry} {z : List UInt8} {j : ℕ}
    (hj : j ≤ (recordBytes c e).length) :
    (tornBytes c s e z j).length = (s.image c).length + (j + (z.length - j)) := by
  simp only [tornBytes, List.length_append, List.length_take, List.length_drop]
  omega

theorem openImage_torn {s : Segment} {e : LogEntry} (he : EntryOk c e) {z : List UInt8}
    (hz : z.length < 4) {j : ℕ} (hj : j ≤ (recordBytes c e).length) :
    OpenImage c (tornSegment c s e j) (tornBytes c s e z j) := by
  right
  unfold tornSegment tornBytes
  split_ifs with hlt
  · exact ⟨_, rfl, tailOk_torn he hz hlt⟩
  · have hlen := length_recordBytes c e
    obtain rfl : j = (recordBytes c e).length := by omega
    refine ⟨[], ?_, tailOk_nil c⟩
    rw [List.take_length, List.drop_eq_nil_of_le (by omega)]
    simp

theorem patch_tornBytes {s : Segment} {e : LogEntry} {z : List UInt8} {j k : ℕ}
    (hjk : j + k ≤ (recordBytes c e).length) :
    patch (tornBytes c s e z j) ((s.image c).length + j) (((recordBytes c e).drop j).take k) =
      tornBytes c s e z (j + k) := by
  have hfront : (s.image c ++ (recordBytes c e).take j).length = (s.image c).length + j := by
    simp only [List.length_append, List.length_take]
    omega
  rw [tornBytes, ← List.append_assoc, ← hfront, patch_middle, List.drop_drop, tornBytes,
    List.take_add, List.length_take, List.length_drop,
    show min k ((recordBytes c e).length - j) = k by omega]
  simp

section Record

variable {w : World} {s : Segment} {z : List UInt8} {e : LogEntry}

theorem AtTail.total_torn (h : AtTail c m w s z) (j : ℕ) (bytes : List UInt8) :
    (w.setTail (tornSegment c s e j) bytes).ghost.total =
      if j < (recordBytes c e).length then w.ghost.total else w.ghost.total ++ [e] := by
  have h₁ := Ghost.total_tail h.tail
  rw [Ghost.total_tail (s := tornSegment c s e j) rfl]
  change w.ghost.closed.flatMap Segment.entries ++ (tornSegment c s e j).entries = _
  unfold tornSegment
  split_ifs
  · exact h₁.symm
  · simp [Segment.push, h₁]

theorem AtTail.guar_torn (h : AtTail c m w s z) (he : EntryOk c e) (hoff : e.offset = s.stop)
    (hlt : e.offset < 2 ^ 64 - 1) (hU : m.allowed (w.ghost.total ++ [e])) {j k : ℕ} (hk : 0 < k)
    (hjk : j + k ≤ (recordBytes c e).length)
    (hmax : (s.image c).length + j + k ≤ maxFileLen) {o : Op FileName} {r : Resp o} :
    (setting c m).guar (w.setTail (tornSegment c s e j) (tornBytes c s e z j)) o r
      (w.setTail (tornSegment c s e (j + k)) (tornBytes c s e z (j + k))) := by
  have hlen := length_recordBytes c e
  have hj : tornSegment c s e j = s := by
    unfold tornSegment
    rw [if_pos (by omega)]
  have hsize : (tornBytes c s e z (j + k)).length ≤ maxFileLen := by
    have hsmall := h.good.tidy.small s.ino
    rw [h.data, List.length_append] at hsmall
    rw [length_tornBytes hjk]
    omega
  have hvalid : (tornSegment c s e (j + k)).Valid c := by
    unfold tornSegment
    split_ifs
    · exact h.valid
    · exact h.valid.push he hoff hlt
  have hbase : (tornSegment c s e (j + k)).base = s.base := by
    unfold tornSegment
    split_ifs <;> rfl
  have hcre : (tornSegment c s e (j + k)).created = s.created := by
    unfold tornSegment
    split_ifs <;> rfl
  refine ⟨?_, ?_, fun hstrict => ?_⟩
  · have hmove := Move.setTail (c := c) (w := w.setTail s (tornBytes c s e z j))
      (World.setTail_tail _) hbase (tornSegment_ino s e (j + k)) hvalid
      (openImage_torn he h.short hjk) hsize o
    rw [World.setTail_setTail (tornSegment_ino s e (j + k))] at hmove
    rw [hj]
    exact hmove
  · rw [h.total_torn, h.total_torn, if_pos (by omega)]
    split_ifs
    · exact id
    · exact fun _ => hU
  · intro t t' ht ht'
    obtain rfl : s = t := by rw [hj] at ht; simpa using ht
    obtain rfl := Option.some.inj ht'
    left
    rw [hj]
    refine ⟨?_, ?_, hcre⟩
    · have hino : (tornSegment c s e (j + k)).ino = s.ino := tornSegment_ino s e _
      rw [World.setTail_data, ← hino, World.setTail_data, tornBytes, tornBytes, h.strict hstrict]
      simp only [List.drop_nil, List.append_nil]
      refine (List.prefix_append_right_inj _).mpr ?_
      exact List.take_prefix_take_left (by omega)
    · unfold tornSegment
      split_ifs
      · exact List.prefix_refl _
      · exact List.prefix_append _ _

/-- `set_len` takes the file back to the end of a record. -/
theorem guar_cut {k : ℕ} (ht : w.ghost.tail = some s) (hv : s.Valid c)
    (hlen : ((s.cut k).image c).length ≤ maxFileLen)
    (hne : m.strict → w.disk.data s.ino ≠ s.image c ++ sentinel)
    (hU : m.allowed (w.setTail (s.cut k) ((s.cut k).image c)).ghost.total)
    {r : Resp (Op.setLen s.ino ((s.cut k).image c).length : Op FileName)} :
    (setting c m).guar w (.setLen s.ino ((s.cut k).image c).length) r
      (w.setTail (s.cut k) ((s.cut k).image c)) := by
  refine ⟨?_, fun _ => hU, fun hstrict t t' ht₁ ht₂ => Or.inr ?_⟩
  · exact Move.setTail ht (show (s.cut k).base = s.base from rfl) rfl (hv.cut k)
      (Or.inr ⟨[], (List.append_nil _).symm, tailOk_nil c⟩) hlen _
  · obtain rfl : s = t := by simpa [ht] using ht₁
    obtain rfl := Option.some.inj ht₂
    exact ⟨k, rfl, rfl, World.setTail_data _, hne hstrict⟩

/-- The rule for cutting the newest segment back to its first `k` entries. -/
theorem safe_cut {k p : ℕ} {z : List UInt8} (ht : w.ghost.tail = some s) (hv : s.Valid c)
    (hset : ∀ i n, ¬ m.fails (.setLen i n))
    (hd : w.disk.data s.ino = (s.cut k).image c ++ z)
    (hlen : ((s.cut k).image c).length ≤ maxFileLen)
    (hne : m.strict → w.disk.data s.ino ≠ s.image c ++ sentinel)
    (hU : m.allowed (w.setTail (s.cut k) ((s.cut k).image c)).ghost.total)
    {Q : Except IoErrorKind Unit × File → World → Prop}
    (h : Q (.ok (), ⟨s.ino, p⟩) (w.setTail (s.cut k) ((s.cut k).image c))) :
    Safe (setting c m) (File.setLen FileName ((s.cut k).image c).length ⟨s.ino, p⟩) Q w := by
  refine quiet_setting.op fun r d' hs => ?_
  obtain ⟨rfl, rfl⟩ | ⟨hf, -⟩ := hs
  · refine ⟨_, ?_, guar_cut ht hv hlen hne hU, h⟩
    change _ = w.disk.setData s.ino (resize (w.disk.data s.ino) _)
    rw [hd, resize_front]
    rfl
  · exact absurd hf (hset _ _)

/-- A producer id or an event that no record can hold. -/
def Unfit (c : Codec) (producerId : String) (events : List OtkEvent) : Prop :=
  producerId = "" ∨ maxProducerIdBytes < (producerIdBytes producerId).length ∨
    ∃ event ∈ events, maxEventCbor < (c.encode event).length

theorem Unfit.mono {producerId : String} {events events' : List OtkEvent}
    (h : Unfit c producerId events) (hsub : events ⊆ events') : Unfit c producerId events' :=
  h.imp_right fun h => h.imp_right fun ⟨event, hm, hlt⟩ => ⟨event, hsub hm, hlt⟩

/-- Writing one record: it is there afterwards, or the error left the file with
the old records. -/
theorem AtTail.writeRecord (h : AtTail c m w s z)
    (hset : ∀ i n, ¬ m.fails (.setLen i n))
    (hcod : c.decode (c.encode e.event) = .ok e.event) (hoff : e.offset = s.stop)
    (hlt : e.offset < 2 ^ 64 - 1) (hts : e.appendedAtNs < 2 ^ 64)
    (hkeep : m.allowed w.ghost.total)
    (hU : EntryOk c e → m.allowed (w.ghost.total ++ [e]))
    {Q : Except StorageError ℕ × File → World → Prop}
    (hok : EntryOk c e →
      AtTail c m (w.setTail (s.push e) ((s.push e).image c)) (s.push e) [] →
      Q (.ok (s.image c).length, ⟨s.ino, ((s.push e).image c).length⟩)
        (w.setTail (s.push e) ((s.push e).image c)))
    (herr : ∀ err z' p, Unfit c e.producerId [e.event] ∨ (∃ o, m.fails o) →
      AtTail c m (w.setTail s (s.image c ++ z')) s z' →
      Q (.error err, ⟨s.ino, p⟩) (w.setTail s (s.image c ++ z'))) :
    Safe (setting c m) (writeRecord c e ⟨s.ino, (s.image c).length⟩) Q w := by
  have hself : w.setTail s (s.image c ++ z) = w := World.setTail_self h.tail h.data
  have hreject : ∀ err, Unfit c e.producerId [e.event] ∨ (∃ o, m.fails o) →
      Q (.error err, ⟨s.ino, (s.image c).length⟩) w := fun err hwhy => by
    have := herr err z (s.image c).length hwhy
    rw [hself] at this
    exact this h
  unfold SegmentLog.writeRecord
  split_ifs with h₁ h₂ h₃
  · exact hreject _ (Or.inl (Or.inr (Or.inr ⟨_, List.mem_singleton_self _, h₁⟩)))
  · exact hreject _ (Or.inl (Or.inl ((producerIdBytes_eq_nil _).mp h₂)))
  · exact hreject _ (Or.inl (Or.inr (Or.inl h₃)))
  · have he : EntryOk c e := ⟨by omega, hts, h₂, by omega, by omega, hcod⟩
    refine Safe.bindP (Safe.mapError (quiet_setting.opStay fun r d' hs => ?_))
    obtain ⟨rfl, rfl | ⟨hf, rfl⟩⟩ := hs
    · refine ⟨rfl, Safe.bindP (Safe.attempt ?_)⟩
      refine quiet_setting.writeAll (P := fun j w' => Good c w' ∧
        w' = w.setTail (tornSegment c s e j) (tornBytes c s e z j)) ?_ ?_ ?_ ?_
      · rintro j k _ ⟨hgood, rfl⟩ hk hjk hmax
        have hguar := fun o r => h.guar_torn he hoff hlt (hU he) hk hjk hmax (o := o) (r := r)
        refine ⟨_, ?_, hguar _ _, hgood.move (hguar .now 0).1, rfl⟩
        have hino : (tornSegment c s e j).ino = s.ino := tornSegment_ino s e j
        change _ = (w.setTail _ _).disk.setData s.ino (patch ((w.setTail _ _).disk.data s.ino) _ _)
        rw [← hino, World.setTail_data, patch_tornBytes hjk]
        exact World.disk_setTail ((tornSegment_ino s e _).trans hino.symm) _ _
      · rintro _ ⟨hgood, rfl⟩
        have hseg : tornSegment c s e (recordBytes c e).length = s.push e := by
          simp [tornSegment]
        have hbytes : tornBytes c s e z (recordBytes c e).length = (s.push e).image c := by
          have hlen := length_recordBytes c e
          have hz := h.short
          rw [tornBytes, List.take_length, List.drop_eq_nil_of_le (by omega)]
          simp
        rw [hseg, hbytes] at hgood ⊢
        have := hok he ⟨hgood, rfl, by simpa using World.setTail_data (s := s.push e) _, by simp,
          fun _ => rfl⟩
        simpa [Safe] using this
      · rintro j _ ⟨hgood, rfl⟩ hj hf kind
        have hseg : tornSegment c s e j = s := by
          unfold tornSegment
          rw [if_pos hj]
        have hcut := Segment.cut_length s
        rw [hseg] at hgood ⊢
        have hU' : m.allowed (w.setTail s (s.image c)).ghost.total := by
          rw [Ghost.total_tail (s := s) rfl]
          rwa [Ghost.total_tail h.tail] at hkeep
        have hne : m.strict → (w.setTail s (tornBytes c s e z j)).disk.data s.ino ≠
            s.image c ++ sentinel := by
          intro hstrict
          rw [World.setTail_data, tornBytes, h.strict hstrict]
          simp only [List.drop_nil, List.append_nil, ne_eq, List.append_cancel_left_eq]
          exact torn_ne_sentinel he hj
        have hguar := guar_cut (c := c) (m := m) (w := w.setTail s (tornBytes c s e z j)) (s := s)
          (k := s.entries.length) rfl h.valid
        have hsafe := safe_cut (c := c) (m := m) (w := w.setTail s (tornBytes c s e z j)) (s := s)
          (k := s.entries.length) (p := (s.image c).length + j)
          (z := (recordBytes c e).take j ++ z.drop j) rfl h.valid hset
        rw [hcut, World.setTail_setTail rfl] at hsafe hguar
        have hgood' := hgood.move (hguar h.length_image_le hne hU' (r := .ok ())).1
        have hclean := herr (.io kind) [] ((s.image c).length + j) (Or.inr ⟨_, hf⟩)
        rw [List.append_nil] at hclean
        refine Safe.bindP (Safe.attempt (hsafe (World.setTail_data _) h.length_image_le hne hU' ?_))
        exact hclean ⟨hgood', rfl, by simp, by simp, fun _ => rfl⟩
      · have hlen := length_recordBytes c e
        simp [tornBytes, tornSegment, hself, h.good]
    · exact ⟨rfl, hreject _ (Or.inr ⟨_, hf⟩)⟩

end Record

/-- The entries a batch receives from offset `n` on. -/
def batchOf (n ts : ℕ) (producerId : String) (events : List OtkEvent) : List LogEntry :=
  EventHistory.batchEntries n ⟨producerId, ts, events⟩

@[simp] theorem batchOf_nil (n ts : ℕ) (producerId : String) : batchOf n ts producerId [] = [] := rfl

theorem batchOf_cons (n ts : ℕ) (producerId : String) (event : OtkEvent) (rest : List OtkEvent) :
    batchOf n ts producerId (event :: rest) =
      ⟨n, ts, producerId, event⟩ :: batchOf (n + 1) ts producerId rest := by
  simp [batchOf, EventHistory.batchEntries, Nat.add_assoc, Nat.add_comm 1]

@[simp] theorem length_batchOf (n ts : ℕ) (producerId : String) (events : List OtkEvent) :
    (batchOf n ts producerId events).length = events.length := by
  simp [batchOf]

/-- An error after which the file is cut back to its first `k` entries. -/
theorem AtTail.cutBack {α : Type} {w : World} {s : Segment} {z : List UInt8}
    (h : AtTail c m w s z) (hset : ∀ i n, ¬ m.fails (.setLen i n)) {k p : ℕ} {err : StorageError}
    (hcutU : m.allowed (w.setTail (s.cut k) ((s.cut k).image c)).ghost.total)
    {Q : Except StorageError α × File → World → Prop}
    (hQ : AtTail c m (w.setTail (s.cut k) ((s.cut k).image c)) (s.cut k) [] →
      Q (.error err, ⟨s.ino, p⟩) (w.setTail (s.cut k) ((s.cut k).image c))) :
    Safe (setting c m) ((do
      let _ ← Proc.attempt (File.setLen FileName ((s.cut k).image c).length)
      Proc.throw err : Io File α) ⟨s.ino, p⟩) Q w := by
  have himg := s.image_eq_cut (c := c) k
  have hlen : ((s.cut k).image c).length ≤ maxFileLen := by
    have hfull := h.length_image_le
    rw [himg, List.length_append] at hfull
    omega
  have hne : m.strict → w.disk.data s.ino ≠ s.image c ++ sentinel := by
    intro hstrict
    rw [h.data, h.strict hstrict]
    simp [sentinel, le]
  have hguar := guar_cut (c := c) (m := m) (k := k) (r := .ok ()) h.tail h.valid hlen hne hcutU
  refine Safe.bindP (Safe.attempt (safe_cut (z := recordsBytes c (s.entries.drop k) ++ z) h.tail
    h.valid hset ?_ hlen hne hcutU ?_))
  · rw [h.data, ← List.append_assoc, ← himg]
  · refine hQ ⟨h.good.move hguar.1, rfl, ?_, by simp, fun _ => rfl⟩
    rw [List.append_nil]
    exact World.setTail_data (s := s.cut k) _

theorem Segment.stop_push (s : Segment) (e : LogEntry) : (s.push e).stop = s.stop + 1 := by
  simp [Segment.push, Segment.stop, Nat.add_assoc]

theorem AtTail.total_push {w : World} {s : Segment} {z : List UInt8} (h : AtTail c m w s z)
    (e : LogEntry) (bytes : List UInt8) :
    (w.setTail (s.push e) bytes).ghost.total = w.ghost.total ++ [e] := by
  have htail : (w.setTail (s.push e) bytes).ghost.tail = some (s.push e) := rfl
  rw [Ghost.total_tail htail, Ghost.total_tail h.tail, List.append_assoc]
  rfl

/-- Writing the records of a batch: all of them, or, after an error, none and
the file is back at the first `k` entries. -/
theorem AtTail.writeBatch (hset : ∀ i n, ¬ m.fails (.setLen i n))
    {ts : ℕ} (hts : ts < 2 ^ 64) (producerId : String) {k : ℕ} (events : List OtkEvent)
    (hcod : ∀ ev ∈ events, c.decode (c.encode ev) = .ok ev) :
    ∀ {w : World} {s : Segment} {z : List UInt8}
      {Q : Except StorageError (List ℕ) × File → World → Prop},
    AtTail c m w s z → k ≤ s.entries.length →
    m.allowed (w.setTail (s.cut k) ((s.cut k).image c)).ghost.total →
    (∀ j, (∀ e ∈ (batchOf s.stop ts producerId events).take j, EntryOk c e) →
      m.allowed (w.ghost.total ++ (batchOf s.stop ts producerId events).take j)) →
    ((∀ e ∈ batchOf s.stop ts producerId events, EntryOk c e) → ∀ z',
      (events ≠ [] ∨ z = [] → z' = []) →
      AtTail c m (w.setTail (s.extend (batchOf s.stop ts producerId events))
          ((s.extend (batchOf s.stop ts producerId events)).image c ++ z'))
        (s.extend (batchOf s.stop ts producerId events)) z' →
      Q (.ok (positionsFrom c (s.image c).length (batchOf s.stop ts producerId events)),
          ⟨s.ino, ((s.extend (batchOf s.stop ts producerId events)).image c).length⟩)
        (w.setTail (s.extend (batchOf s.stop ts producerId events))
          ((s.extend (batchOf s.stop ts producerId events)).image c ++ z'))) →
    (∀ err p, Unfit c producerId events ∨ 2 ^ 64 ≤ s.stop + events.length ∨ (∃ o, m.fails o) →
      AtTail c m (w.setTail (s.cut k) ((s.cut k).image c)) (s.cut k) [] →
      Q (.error err, ⟨s.ino, p⟩) (w.setTail (s.cut k) ((s.cut k).image c))) →
    Safe (setting c m) (SegmentLog.writeBatch c ts producerId ((s.cut k).image c).length s.stop
      events ⟨s.ino, (s.image c).length⟩) Q w := by
  induction events with
  | nil =>
    intro w s z Q h hk hcutU hU hok herr
    have := hok (by simp) z (by simp)
    simp only [batchOf_nil, Segment.extend_nil, World.setTail_self h.tail h.data] at this
    exact this h
  | cons event rest ih =>
    intro w s z Q h hk hcutU hU hok herr
    have hkeep : m.allowed w.ghost.total := by simpa using hU 0 (by simp)
    -- Any error ends in cutting the file back to its first `k` entries.
    have hback : ∀ err p z', Unfit c producerId (event :: rest) ∨
          2 ^ 64 ≤ s.stop + (event :: rest).length ∨ (∃ o, m.fails o) →
        AtTail c m (w.setTail s (s.image c ++ z')) s z' →
        Safe (setting c m) ((do
          let _ ← Proc.attempt (File.setLen FileName ((s.cut k).image c).length)
          Proc.throw err : Io File (List ℕ)) ⟨s.ino, p⟩) Q (w.setTail s (s.image c ++ z')) := by
      intro err p z' hwhy h'
      have hino : (s.cut k).ino = s.ino := Segment.cut_ino s k
      refine h'.cutBack hset ?_ fun hat => ?_
      · rwa [World.setTail_setTail hino]
      · rw [World.setTail_setTail hino] at hat ⊢
        exact herr err p hwhy hat
    have hself : w.setTail s (s.image c ++ z) = w := World.setTail_self h.tail h.data
    rw [SegmentLog.writeBatch]
    split_ifs with hmax
    · have := hback (.invalidInput "offset space exhausted") (s.image c).length z
        (Or.inr (Or.inl (by rw [List.length_cons]; omega)))
      rw [hself] at this
      exact this h
    · have hlt : s.stop < 2 ^ 64 - 1 := by
        have := h.valid.count
        rw [← Segment.stop] at this
        omega
      refine Safe.bindP (Safe.attempt
        (h.writeRecord hset (hcod event (by simp)) rfl hlt hts hkeep ?_ ?_ ?_))
      · intro he
        have := hU 1
        simp only [batchOf_cons, List.take_succ_cons, List.take_zero, List.mem_singleton,
          forall_eq] at this
        exact this he
      · intro he h'
        refine Safe.bindP ?_
        have hcut : (s.cut k).ino = (s.push ⟨s.stop, ts, producerId, event⟩).ino := rfl
        have hext : (s.extend (batchOf s.stop ts producerId (event :: rest))).ino =
            (s.push ⟨s.stop, ts, producerId, event⟩).ino := rfl
        have hrec := @ih (fun ev hev => hcod ev (List.mem_cons_of_mem _ hev)) _ _ _
          (fun x w' => Q (x.1.map ((s.image c).length :: ·), x.2) w') h'
          (by simp [Segment.push]; omega)
        simp only [Segment.stop_push, Segment.push_cut s _ hk, Segment.push_extend, ← batchOf_cons,
          Segment.push_ino, h.total_push] at hrec
        refine (hrec ?_ ?_ ?_ ?_).mono ?_
        · rwa [World.setTail_setTail hcut]
        · intro j hj
          have := hU (j + 1)
          simp only [batchOf_cons, List.take_succ_cons, List.mem_cons, forall_eq_or_imp] at this
          simpa using this ⟨he, hj⟩
        · intro hes z' hz hat
          obtain rfl := hz (by simp)
          rw [World.setTail_setTail hext] at hat ⊢
          have := hok (by
            rw [batchOf_cons]
            simpa using ⟨he, hes⟩) [] (fun _ => rfl) hat
          rw [batchOf_cons, positionsFrom] at this
          simpa [batchOf_cons, Except.map] using this
        · intro err p hwhy hat
          rw [World.setTail_setTail hcut] at hat ⊢
          refine herr err p (hwhy.imp (·.mono (List.subset_cons_self _ _)) (Or.imp_left ?_)) hat
          rw [List.length_cons]
          omega
        · rintro ⟨r, f⟩ w' hx
          cases r with
          | ok positions => exact hx
          | error err => exact hx
      · intro err z' p hwhy h'
        exact hback err p z' (hwhy.imp (·.mono (by simp)) Or.inr) h'

end OtkCore.SegmentLog
