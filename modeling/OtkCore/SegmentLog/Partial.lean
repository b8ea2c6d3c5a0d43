import OtkCore.SegmentLog.Growth
import OtkCore.Lib.Horizon
import Mathlib.Data.List.Infix

/-!
# A directory as far as it has been read

The newest file may be cut again, and what a reader has not read of it the reader
need not know. `World.upTo` is the directory with that file ending earlier; as
long as no byte is cut that has been read, it only grows, and what the reader's
operations answer on the whole directory they may also answer on this one.
-/
namespace OtkCore.SegmentLog

open Effect FileIO Bytes

variable {c : Codec}

/-- The first entries, as far as their records are complete within `b` bytes. -/
def entriesWithin (c : Codec) : ℕ → List LogEntry → List LogEntry
  | _, [] => []
  | b, e :: es =>
    if (recordBytes c e).length ≤ b then
      e :: entriesWithin c (b - (recordBytes c e).length) es
    else []

theorem entriesWithin_prefix (b : ℕ) (es : List LogEntry) : entriesWithin c b es <+: es := by
  induction es generalizing b with
  | nil => exact List.prefix_refl _
  | cons e es ih =>
    rw [entriesWithin]
    split_ifs
    · exact (List.prefix_cons_inj e).mpr (ih _)
    · exact List.nil_prefix

theorem entriesWithin_bytes {b b' : ℕ} (h : b ≤ b') (es : List LogEntry) :
    entriesWithin c b es <+: entriesWithin c b' es := by
  induction es generalizing b b' with
  | nil => exact List.prefix_refl _
  | cons e es ih =>
    rw [entriesWithin, entriesWithin]
    split_ifs with h₁ h₂
    · exact (List.prefix_cons_inj e).mpr (ih (by omega))
    · omega
    · exact List.nil_prefix
    · exact List.nil_prefix

theorem entriesWithin_entries (b : ℕ) {es fs : List LogEntry} (h : es <+: fs) :
    entriesWithin c b es <+: entriesWithin c b fs := by
  induction es generalizing b fs with
  | nil => exact List.nil_prefix
  | cons e es ih =>
    obtain ⟨more, rfl⟩ := h
    rw [List.cons_append, entriesWithin, entriesWithin]
    split_ifs
    · exact (List.prefix_cons_inj e).mpr (ih _ (List.prefix_append es more))
    · exact List.prefix_refl _

theorem entriesWithin_all {b : ℕ} {es : List LogEntry} (h : (recordsBytes c es).length ≤ b) :
    entriesWithin c b es = es := by
  induction es generalizing b with
  | nil => rfl
  | cons e es ih =>
    rw [recordsBytes_cons, List.length_append] at h
    rw [entriesWithin, if_pos (by omega), ih (by omega)]

theorem entriesWithin_zero (es : List LogEntry) : entriesWithin c 0 es = [] := by
  cases es with
  | nil => rfl
  | cons e es =>
    rw [entriesWithin, if_neg]
    simp

theorem entriesWithin_take {b k : ℕ} {es : List LogEntry}
    (h : b ≤ (recordsBytes c (es.take k)).length) :
    entriesWithin c b (es.take k) = entriesWithin c b es := by
  induction es generalizing b k with
  | nil => simp
  | cons e es ih =>
    cases k with
    | zero =>
      obtain rfl : b = 0 := by simpa using h
      rw [entriesWithin_zero, entriesWithin_zero]
    | succ k =>
      rw [List.take_succ_cons, recordsBytes_cons, List.length_append] at h
      rw [List.take_succ_cons, entriesWithin, entriesWithin]
      split_ifs
      · rw [ih (by omega)]
      · rfl

/-- A prefix of what may stand behind the records may stand there too. -/
theorem TailOk.take {t : List UInt8} (h : TailOk c t) (b : ℕ) : TailOk c (t.take b) := by
  rcases h with h | rfl | ⟨e, he, hp, hlt⟩
  · left
    rw [List.length_take]
    omega
  · by_cases hb : 4 ≤ b
    · right; left
      exact List.take_of_length_le hb
    · left
      rw [List.length_take]
      omega
  · right; right
    refine ⟨e, he, (List.take_prefix b t).trans hp, ?_⟩
    rw [List.length_take]
    omega

theorem take_recordsBytes {es : List LogEntry} (hes : ∀ e ∈ es, EntryOk c e) {t : List UInt8}
    (ht : TailOk c t) (b : ℕ) : ∃ t', TailOk c t' ∧
      (recordsBytes c es ++ t).take b = recordsBytes c (entriesWithin c b es) ++ t' := by
  induction es generalizing b with
  | nil => exact ⟨t.take b, ht.take b, rfl⟩
  | cons e es ih =>
    rw [entriesWithin, recordsBytes_cons, List.append_assoc, List.take_append]
    split_ifs with hle
    · obtain ⟨t', ht', heq⟩ := ih (fun e' he' => hes e' (List.mem_cons_of_mem _ he'))
        (b - (recordBytes c e).length)
      refine ⟨t', ht', ?_⟩
      rw [List.take_of_length_le hle, heq, recordsBytes_cons, List.append_assoc]
    · refine ⟨(recordBytes c e).take b, Or.inr (Or.inr ⟨e, hes e List.mem_cons_self,
        List.take_prefix _ _, ?_⟩), ?_⟩
      · rw [List.length_take]
        omega
      · rw [Nat.sub_eq_zero_of_le (by omega), List.take_zero, List.append_nil]
        rfl

/-- The segment as far as its records are complete within `b` bytes of the file. -/
def Segment.within (c : Codec) (b : ℕ) (s : Segment) : Segment :=
  { s with entries := entriesWithin c (b - headerLen) s.entries }

@[simp] theorem Segment.within_base (b : ℕ) (s : Segment) : (s.within c b).base = s.base := rfl

@[simp] theorem Segment.within_ino (b : ℕ) (s : Segment) : (s.within c b).ino = s.ino := rfl

/-- The directory with its newest file ending after `b` bytes. -/
def World.upTo (c : Codec) (b : ℕ) (w : World) : World :=
  match w.ghost.tail with
  | none => w
  | some s => w.setTail (s.within c b) ((w.disk.data s.ino).take b)

namespace World

variable {w : World} {s : Segment}

theorem upTo_none (ht : w.ghost.tail = none) (b : ℕ) : w.upTo c b = w := by
  rw [upTo, ht]

theorem upTo_some (ht : w.ghost.tail = some s) (b : ℕ) :
    w.upTo c b = w.setTail (s.within c b) ((w.disk.data s.ino).take b) := by
  rw [upTo, ht]

@[simp] theorem find_upTo (w : World) (b : ℕ) (x : FileName) :
    (w.upTo c b).disk.find x = w.disk.find x := by
  cases ht : w.ghost.tail with
  | none => rw [upTo_none ht]
  | some s =>
    rw [upTo_some ht]
    rfl

theorem upTo_of_length (ht : w.ghost.tail = some s) {b : ℕ}
    (hd : (w.disk.data s.ino).length ≤ b) (himg : OpenImage c s (w.disk.data s.ino)) :
    w.upTo c b = w := by
  have hs : s.within c b = s := by
    rcases himg with ⟨-, -, hnil⟩ | ⟨t, ht, -⟩
    · rw [Segment.within, hnil, entriesWithin, ← hnil]
    · rw [ht, List.length_append, Segment.length_image] at hd
      rw [Segment.within, entriesWithin_all (by omega)]
  rw [upTo_some ht, hs, List.take_of_length_le hd]
  exact setTail_self ht rfl

end World

/-- What a file holds up to some byte is the start of a segment file. -/
theorem OpenImage.within {s : Segment} (hv : s.Valid c) {bytes : List UInt8}
    (h : OpenImage c s bytes) (b : ℕ) : OpenImage c (s.within c b) (bytes.take b) := by
  rcases h with ⟨hp, hlt, hnil⟩ | ⟨t, rfl, ht⟩
  · left
    refine ⟨(List.take_prefix b bytes).trans hp, ?_, ?_⟩
    · rw [List.length_take]
      omega
    · rw [Segment.within, hnil, entriesWithin]
  · have hhead : (SegmentHeader.bytes ⟨s.base, s.created⟩).length = headerLen := by
      simp [headerLen]
    rw [Segment.image, List.append_assoc, List.take_append, hhead]
    rcases Nat.lt_or_ge b headerLen with hlt | hge
    · left
      rw [Nat.sub_eq_zero_of_le hlt.le, List.take_zero, List.append_nil]
      refine ⟨List.take_prefix _ _, ?_, ?_⟩
      · rw [List.length_take]
        omega
      · rw [Segment.within, Nat.sub_eq_zero_of_le hlt.le]
        exact entriesWithin_zero s.entries
    · right
      obtain ⟨t', ht', heq⟩ := take_recordsBytes hv.entryOk ht (b - headerLen)
      refine ⟨t', ?_, ht'⟩
      rw [List.take_of_length_le (by omega), heq, ← List.append_assoc]
      rfl

theorem Segment.Valid.within {s : Segment} (h : s.Valid c) (b : ℕ) : (s.within c b).Valid c := by
  have hp := entriesWithin_prefix (c := c) (b - headerLen) s.entries
  have hcut : s.within c b = s.cut (entriesWithin c (b - headerLen) s.entries).length := by
    rw [Segment.within, Segment.cut, ← List.prefix_iff_eq_take.mp hp]
  rw [hcut]
  exact h.cut _

namespace Good

variable {w w' : World} {s : Segment}

theorem length_take_le (h : Good c w) (i b : ℕ) : ((w.disk.data i).take b).length ≤ maxFileLen := by
  have hsmall := h.tidy.small i
  rw [List.length_take]
  omega

theorem upTo (h : Good c w) (b : ℕ) : Good c (w.upTo c b) := by
  cases ht : w.ghost.tail with
  | none => rwa [World.upTo_none ht]
  | some s =>
    rw [World.upTo_some ht]
    have hv := h.validTail ht
    have hmove : Move c .now w
        (w.setTail (s.within c b) ((w.disk.data s.ino).take b)) :=
      Move.setTail ht (s.within_base b) (s.within_ino b) (hv.within b)
        ((h.tailData s ht).within hv b) (h.length_take_le s.ino b) .now
    exact h.move hmove

theorem later_upTo_upTo (h : Good c w) {b b' : ℕ} (hb : b ≤ b') :
    Later (w.upTo c b) (w.upTo c b') := by
  cases ht : w.ghost.tail with
  | none =>
    rw [World.upTo_none ht, World.upTo_none ht]
    exact .refl w
  | some s =>
    rw [World.upTo_some ht, World.upTo_some ht]
    exact h.later_setTail ht rfl rfl rfl rfl (entriesWithin_bytes (by omega) _)
      (List.take_prefix_take_left hb)

theorem later_upTo (h : Good c w) (b : ℕ) : Later (w.upTo c b) w := by
  cases ht : w.ghost.tail with
  | none =>
    rw [World.upTo_none ht]
    exact .refl w
  | some s =>
    have hall := World.upTo_of_length ht (Nat.le_max_right b (w.disk.data s.ino).length)
      (h.tailData s ht)
    have hlater := h.later_upTo_upTo (Nat.le_max_left b (w.disk.data s.ino).length)
    rwa [hall] at hlater

theorem upTo_apply (f : Disk FileName → Disk FileName) (b : ℕ)
    (hdata : ∀ s, w.ghost.tail = some s → (f w.disk).data s.ino = w.disk.data s.ino)
    (hcomm : ∀ s bytes, w.ghost.tail = some s →
      f (w.disk.setData s.ino bytes) = (f w.disk).setData s.ino bytes) :
    World.upTo c b ⟨f w.disk, w.ghost⟩ = ⟨f (w.upTo c b).disk, (w.upTo c b).ghost⟩ := by
  cases ht : w.ghost.tail with
  | none =>
    have ht' : (⟨f w.disk, w.ghost⟩ : World).ghost.tail = none := ht
    rw [World.upTo_none ht, World.upTo_none ht']
  | some s =>
    have ht' : (⟨f w.disk, w.ghost⟩ : World).ghost.tail = some s := ht
    rw [World.upTo_some ht, World.upTo_some ht', hdata s ht]
    simp only [World.setTail, Segment.within_ino]
    rw [← hcomm s _ ht]

theorem later_upTo_of_none (h : Good c w) (hl : Later w w') (ht : w'.ghost.tail = none) (b : ℕ) :
    Later (w.upTo c b) (w'.upTo c b) := by
  rw [World.upTo_none ht]
  exact (h.later_upTo b).trans hl

/-- The newest file has grown, or has been cut behind what has been read. -/
theorem later_upTo_write (h : Good c w) {s s' : Segment} {bytes : List UInt8} {b : ℕ}
    (ht : w.ghost.tail = some s) (hbase : s'.base = s.base) (hino : s'.ino = s.ino)
    (hentries : s.within c b = s'.within c b ∨ s.entries <+: s'.entries)
    (hbytes : (w.disk.data s.ino).take b <+: bytes.take b) :
    Later (w.upTo c b) ((w.setTail s' bytes).upTo c b) := by
  have hafter : (w.setTail s' bytes).upTo c b = w.setTail (s'.within c b) (bytes.take b) := by
    rw [World.upTo_some (World.setTail_tail bytes), World.setTail_data,
      World.setTail_setTail (s'.within_ino b)]
  rw [World.upTo_some ht, hafter]
  refine h.later_setTail ht rfl rfl hbase hino ?_ hbytes
  rcases hentries with heq | hp
  · rw [heq]
  · exact entriesWithin_entries _ hp

/-- The directory as far as it has been read only grows, unless the newest file is
cut before that. -/
theorem later_upTo_move (h : Good c w) {o : Op FileName} (hm : Move c o w w')
    (hgentle : Gentle c o w w') {b : ℕ}
    (hspare : ∀ s k, w.ghost.tail = some s → w'.ghost.tail = some (s.cut k) →
      o = .setLen s.ino ((s.cut k).image c).length → b ≤ ((s.cut k).image c).length) :
    Later (w.upTo c b) (w'.upTo c b) := by
  cases hm with
  | stay => exact .refl _
  | @scratchOpen _ x hx _ =>
    have hne : ∀ s, w.ghost.tail = some s → s.ino ≠ w.disk.next := fun s hs =>
      (h.ino_lt (Ghost.mem_segments.mpr (Or.inr hs))).ne
    have heq : World.upTo c b ⟨w.disk.create x, w.ghost⟩ = _ :=
      upTo_apply (·.create x) b (fun s hs => by rw [Disk.data_create, if_neg (hne s hs)])
        fun s bytes hs => by
          simp only [Disk.create, Disk.setData, Disk.mk.injEq, and_true, true_and]
          exact Function.update_comm (hne s hs) _ _ _
    rw [heq]
    exact (h.upTo b).later_scratchOpen hx
  | @scratch _ _ x i bytes' hx hi hb =>
    have hne : ∀ s, w.ghost.tail = some s → s.ino ≠ i := fun s hs => by
      refine h.tail_ino_ne hs hi ?_
      rintro rfl
      cases hx
    have heq : World.upTo c b ⟨w.disk.setData i bytes', w.ghost⟩ = _ :=
      upTo_apply (·.setData i bytes') b (fun s hs => by rw [Disk.data_setData, if_neg (hne s hs)])
        fun s bytes hs => by
          simp only [Disk.setData, Disk.mk.injEq, and_true, true_and]
          exact Function.update_comm (hne s hs) _ _ _
    rw [heq]
    exact (h.upTo b).later_scratch hx (by rwa [World.find_upTo])
  | close ht hne hd hi hidx => exact h.later_upTo_of_none (later_close ht) rfl b
  | mark ht hi hd => exact h.later_upTo_of_none (h.later_mark ht hd) ht b
  | drop ht hs hwm => exact h.later_upTo_of_none (h.later_drop hwm) ht b
  | @dropIndex _ t hs =>
    have heq : World.upTo c b ⟨w.disk.unlink (.idx t.base), w.ghost⟩ = _ :=
      upTo_apply (·.unlink (.idx t.base)) b (fun _ _ => rfl) fun _ _ _ => rfl
    rw [heq]
    exact later_dropIndex t
  | create ht hts =>
    have hgood := h.create ht hts
    rw [World.upTo_none ht, World.upTo_of_length rfl ?_ (hgood.tailData _ rfl)]
    · exact h.later_create ht
    · simp
  | @write _ _ s s' bytes ht hbase hino hcre hok hnum hcount himg hb =>
    have hafter : (⟨w.disk.setData s.ino bytes, { w.ghost with tail := some s' }⟩ : World) =
        w.setTail s' bytes := by
      rw [World.setTail, hino]
    rw [hafter] at hgentle ⊢
    have hbytes : (w.setTail s' bytes).disk.data s.ino = bytes := by
      rw [← hino, World.setTail_data]
    rcases hgentle s s' ht (World.setTail_tail bytes) with
      ⟨hdata, hentries, -⟩ | ⟨k, rfl, rfl, hdata, -⟩
    · rw [hbytes] at hdata
      exact h.later_upTo_write ht hbase hino (Or.inr hentries) (List.IsPrefix.take hdata b)
    · rw [hbytes] at hdata
      subst hdata
      have hle : b ≤ (Segment.image c { s with entries := s.entries.take k }).length :=
        hspare s k ht rfl rfl
      refine h.later_upTo_write ht rfl rfl (Or.inl ?_) ?_
      · rw [Segment.length_image] at hle
        simp only [Segment.within, Segment.mk.injEq, true_and]
        exact (entriesWithin_take (by dsimp only at hle; omega)).symm
      · rcases h.tailData s ht with ⟨hp, -, hnil⟩ | ⟨t, ht', -⟩
        · exact List.IsPrefix.take (hp.trans (List.prefix_append _ _)) b
        · have himg : s.image c = Segment.image c { s with entries := s.entries.take k } ++
              recordsBytes c (s.entries.drop k) := s.image_eq_cut k
          rw [ht', himg, List.append_assoc, List.take_append_of_le_length hle]

end Good

theorem Segment.length_image_le {s s' : Segment} (h : s.entries <+: s'.entries) :
    (s.image c).length ≤ (s'.image c).length := by
  obtain ⟨more, hmore⟩ := h
  rw [Segment.length_image, Segment.length_image, ← hmore, recordsBytes_append, List.length_append]
  omega

theorem Move.tail_eq {w w' : World} {o : Op FileName} (hm : Move c o w w') {s s' : Segment}
    (ht : w.ghost.tail = some s) (ht' : w'.ghost.tail = some s') :
    s'.base = s.base ∧ s'.ino = s.ino := by
  cases hm with
  | stay | scratchOpen | scratch | dropIndex =>
    obtain rfl := Option.some.inj (ht.symm.trans ht')
    exact ⟨rfl, rfl⟩
  | close => cases ht'
  | mark hnone | drop hnone | create hnone => cases hnone.symm.trans ht
  | write _ hs hbase hino =>
    obtain rfl := Option.some.inj (hs.symm.trans ht)
    obtain rfl := Option.some.inj ht'
    exact ⟨hbase, hino⟩

/-- The newest file up to byte `b` has been read, or holds committed entries only. -/
def Horizon (c : Codec) (w : World) (seen : ℕ → ℕ) (n b : ℕ) : Prop :=
  ∀ s, w.ghost.tail = some s →
    b ≤ max (seen s.ino) ((s.cut (n - s.base)).image c).length

/-- What has been read or is committed stays, unless it is cut off. -/
theorem Good.horizon_move {w w' : World} (h : Good c w) {o : Op FileName} (hm : Move c o w w')
    (hgentle : Gentle c o w w') {seen : ℕ → ℕ} {n b : ℕ} (hb : Horizon c w seen n b)
    (hn : n ≤ w'.ghost.total.length) (hspare : ∀ i len, o = .setLen i len → seen i ≤ len) :
    ∃ b', Later (w.upTo c b) (w'.upTo c b') ∧ Horizon c w' seen n b' := by
  cases ht : w.ghost.tail with
  | none =>
    -- Of a new file nothing has been read.
    refine ⟨0, ?_, fun s _ => Nat.zero_le _⟩
    rw [World.upTo_none ht, ← World.upTo_none (c := c) ht 0]
    exact h.later_upTo_move hm hgentle fun s k hs => by cases ht.symm.trans hs
  | some s =>
    have hbs := hb s ht
    -- Whatever is cut off lies behind what is committed.
    have hkept : ∀ k, w'.ghost.tail = some (s.cut k) → n - s.base ≤ k := fun k hk => by
      have hstop := (h.move hm).stop_tail hk
      have hlen : (s.cut k).entries.length ≤ k := List.length_take_le _ _
      rw [Segment.stop] at hstop
      have hbase : (s.cut k).base = s.base := rfl
      omega
    refine ⟨b, h.later_upTo_move hm hgentle fun t k ht' hcut ho => ?_, fun s' hs' => ?_⟩
    · obtain rfl := Option.some.inj (ht.symm.trans ht')
      have hseen := hspare _ _ ho
      have hcommitted : ((s.cut (n - s.base)).image c).length ≤ ((s.cut k).image c).length :=
        Segment.length_image_le (List.take_prefix_take_left (hkept k hcut))
      omega
    · obtain ⟨hbase, hino⟩ := hm.tail_eq ht hs'
      rw [hbase, hino]
      refine hbs.trans (max_le_max le_rfl ?_)
      rcases hgentle s s' ht hs' with ⟨-, hentries, -⟩ | ⟨k, rfl, -, -, -⟩
      · exact Segment.length_image_le (hentries.take _)
      · refine Segment.length_image_le ?_
        have hle := hkept k hs'
        simp only [Segment.cut, List.take_take, Nat.min_eq_left hle]
        exact List.prefix_refl _

/-- What a reader is answered, it could be answered on the directory as far as it has
read. -/
theorem Horizon.look {w : World} {seen : ℕ → ℕ} {n b : ℕ} (hb : Horizon c w seen n b)
    {fails : Op FileName → Prop} {o : Op FileName} {r : Resp o} {d' : Disk FileName}
    (hs : Step fails w.disk o r d') (ho : o.Reads) :
    ∃ b', b ≤ b' ∧ Horizon c w (fun i => max (seen i) (shown w.disk i o r)) n b' ∧
      Step fails (w.upTo c b').disk o r (w.upTo c b').disk := by
  obtain rfl := hs.reads_same ho
  cases ht : w.ghost.tail with
  | none =>
    refine ⟨b, le_rfl, fun s hs' => ?_, ?_⟩
    · cases ht.symm.trans hs'
    · rwa [World.upTo_none ht]
  | some s =>
    refine ⟨max b (shown w.disk s.ino o r), le_max_left _ _, fun t ht' => ?_, ?_⟩
    · obtain rfl := Option.some.inj (ht.symm.trans ht')
      have hbs := hb s ht
      dsimp only
      omega
    · rw [World.upTo_some ht]
      exact hs.cutFile ho (le_max_right _ _)

/-- The directory up to what is committed holds the committed entries. -/
theorem Good.horizon_committed {w : World} (h : Good c w) {seen : ℕ → ℕ} {n b : ℕ}
    (hb : Horizon c w seen n b) (hn : n ≤ w.ghost.total.length) :
    ∃ b', b ≤ b' ∧ Horizon c w seen n b' ∧ n ≤ (w.upTo c b').ghost.total.length := by
  cases ht : w.ghost.tail with
  | none =>
    refine ⟨b, le_rfl, hb, ?_⟩
    rwa [World.upTo_none ht]
  | some s =>
    refine ⟨max b ((s.cut (n - s.base)).image c).length, le_max_left _ _, fun t ht' => ?_, ?_⟩
    · obtain rfl := Option.some.inj (ht.symm.trans ht')
      have hbs := hb s ht
      omega
    · have hfirst : s.entries.take (n - s.base) <+: (s.within c
          (max b ((s.cut (n - s.base)).image c).length)).entries := by
        have hall : entriesWithin c (max b ((s.cut (n - s.base)).image c).length - headerLen)
            (s.entries.take (n - s.base)) = s.entries.take (n - s.base) := by
          refine entriesWithin_all ?_
          rw [Segment.length_image]
          dsimp only [Segment.cut]
          omega
        rw [← hall]
        exact entriesWithin_entries _ (List.take_prefix _ _)
      have hlen := hfirst.length_le
      have hbase := h.ok.tail_base ht
      rw [Ghost.total_tail ht, List.length_append] at hn
      rw [List.length_take] at hlen
      rw [World.upTo_some ht, Ghost.total_tail (World.setTail_tail _), List.length_append]
      change n ≤ w.ghost.closedCount + _
      change n ≤ w.ghost.closedCount + _ at hn
      omega

@[simp] theorem World.closed_upTo (w : World) (b : ℕ) :
    (w.upTo c b).ghost.closed = w.ghost.closed := by
  cases ht : w.ghost.tail with
  | none => rw [upTo_none ht]
  | some s =>
    rw [upTo_some ht]
    rfl

@[simp] theorem World.dropped_upTo (w : World) (b : ℕ) :
    (w.upTo c b).ghost.dropped = w.ghost.dropped := by
  cases ht : w.ghost.tail with
  | none => rw [upTo_none ht]
  | some s =>
    rw [upTo_some ht]
    rfl

theorem evictedCount_upTo (w : World) (b : ℕ) : evictedCount (w.upTo c b) = evictedCount w := by
  simp [evictedCount, evictedEntries]

end OtkCore.SegmentLog
