import OtkCore.SegmentLog.Subscribing
import OtkCore.SegmentLog.Growth
import OtkCore.SegmentLog.Opening
import OtkCore.Lib.Shared

/-!
# What a subscription sees

A round of `next_entry` while the log goes on: a position in a segment file stays
a position, reading there gives the next entry, the sentinel or the end of the
log, and a round that ends without an entry had nothing to report when it began,
but for one case: the listing that follows a vanished segment is empty, and then
nobody looks at the watermark.
-/
namespace OtkCore.SegmentLog

open Effect FileIO Bytes

variable {c : Codec}

/-- What directory listings have shown so far: how many there were, and whether
the last one has shown a segment file. -/
structure Sweep where
  listings : ℕ
  found : Bool
  deriving DecidableEq, Repr

namespace Sweep

def start : Sweep := ⟨0, false⟩

def see (v : Sweep) : (o : Op FileName) → Resp o → Sweep
  | .readDir, _ => ⟨v.listings + 1, false⟩
  | .dirEntry _, .ok (some x) => ⟨v.listings, v.found || x.segBase?.isSome⟩
  | _, _ => v

/-- A second listing, after a segment had vanished, has shown none. -/
def Blind (v : Sweep) : Prop := 2 ≤ v.listings ∧ v.found = false

instance (v : Sweep) : Decidable v.Blind := inferInstanceAs (Decidable (_ ∧ _))

theorem see_other (v : Sweep) (slot : Slot FileName) {entry : Option FileName}
    (h : entry.bind FileName.segBase? = none) : v.see (.dirEntry slot) (.ok entry) = v := by
  cases entry with
  | none => rfl
  | some x =>
    rw [Option.bind_some] at h
    simp [see, h]

theorem see_segment (v : Sweep) (slot : Slot FileName) {entry : Option FileName} {base : ℕ}
    (h : entry.bind FileName.segBase? = some base) :
    v.see (.dirEntry slot) (.ok entry) = ⟨v.listings, true⟩ := by
  cases entry with
  | none => cases h
  | some x =>
    rw [Option.bind_some] at h
    simp [see, h]

theorem see_plain (v : Sweep) {o : Op FileName} (ho : o.Plain) (r : Resp o) : v.see o r = v := by
  cases o with
  | readDir => exact ho.elim
  | dirEntry slot => exact ho.elim
  | _ => rfl

end Sweep

/-- A directory in use, as a subscription sees it. -/
structure Sight (c : Codec) where
  world : World
  good : Good c world
  sweep : Sweep

/-- Proofs about the subscription's own procedures: the log goes on, and what the
subscription does itself leaves the directory alone. -/
def watching (c : Codec) (fails : Op FileName → Prop) :
    Setting (Resp (N := FileName)) (Disk FileName) (Sight c) where
  step := Step fails
  view x := x.world.disk
  rely x y := Later x.world y.world ∧ y.sweep = x.sweep
  guar x o r y := y.world = x.world ∧ y.sweep = x.sweep.see o r

variable {fails : Op FileName → Prop}

theorem shared_watching : Shared (watching c fails) fails where
  step := rfl
  refl x := ⟨.refl x.world, rfl⟩
  trans h h' := ⟨h.1.trans h'.1, h'.2.trans h.2⟩
  stay x _ r ho := ⟨rfl, (x.sweep.see_plain ho r).symm⟩

/-- Whatever a subscription does, the log only goes on meanwhile. -/
theorem safe_along_later {α : Type} {p : Prog (Resp (N := FileName)) α}
    {Q : α → Sight c → Prop} {x : Sight c} (h : Safe (watching c fails) p Q x) :
    Safe (watching c fails) p (fun a y => Later x.world y.world ∧ Q a y) x := by
  refine h.along (R := fun y z : Sight c => Later y.world z.world) (fun y => .refl y.world)
    (fun {y z v} hyz hzv => Later.trans hyz hzv)
    (fun {y z} (hyz : (watching c fails).rely y z) => hyz.1)
    fun {y o r z} (hyz : (watching c fails).guar y o r z) => ?_
  rw [hyz.1]
  exact .refl y.world

/-- Where the records of a segment begin and end. -/
def Segment.position (c : Codec) (s : Segment) (k : ℕ) : ℕ :=
  headerLen + (recordsBytes c (s.entries.take k)).length

/-- What a reader finds behind the first `k` entries of a segment. -/
theorem Good.parse_at {w : World} (h : Good c w) {s : Segment} (hs : s ∈ w.ghost.segments) {k : ℕ}
    (hk : k ≤ s.entries.length) (pos : ℕ) :
    (∃ e, s.entries[k]? = some e ∧ (recordParser c pos).parse
        ((w.disk.data s.ino).drop (s.position c k)) = some (.ok e, (recordBytes c e).length)) ∨
      (k = s.entries.length ∧ (recordParser c pos).parse
        ((w.disk.data s.ino).drop (s.position c k)) =
          some (.error (.corrupted sentinelMsg), 4)) ∨
      (k = s.entries.length ∧ w.ghost.tail = some s ∧ (recordParser c pos).parse
        ((w.disk.data s.ino).drop (s.position c k)) = none) := by
  -- Behind the header and the records there is a tail of some kind.
  have hwhole : ∀ t, w.disk.data s.ino = s.image c ++ t →
      (w.disk.data s.ino).drop (s.position c k) = recordsBytes c (s.entries.drop k) ++ t := by
    intro t ht
    rw [ht]
    exact drop_image_append c (List.take_append_drop k s.entries).symm t
  have hrecord : ∀ t, w.disk.data s.ino = s.image c ++ t → k < s.entries.length →
      ∃ e, s.entries[k]? = some e ∧ (recordParser c pos).parse
        ((w.disk.data s.ino).drop (s.position c k)) = some (.ok e, (recordBytes c e).length) := by
    intro t ht hlt
    have he := h.ok.entryOk s hs _ (List.getElem_mem hlt)
    refine ⟨s.entries[k], List.getElem?_eq_getElem hlt, ?_⟩
    rw [hwhole t ht, List.drop_eq_getElem_cons hlt, recordsBytes_cons, List.append_assoc,
      parse_recordBytes c he, length_recordBytes]
  have hend : ∀ t, w.disk.data s.ino = s.image c ++ t → k = s.entries.length →
      (w.disk.data s.ino).drop (s.position c k) = t := by
    intro t ht hlen
    rw [hwhole t ht, hlen, List.drop_length]
    rfl
  rcases Nat.lt_or_eq_of_le hk with hlt | hlen
  · left
    rcases Ghost.mem_segments.mp hs with hcl | htl
    · exact hrecord _ (h.closedData s hcl).2 hlt
    · rcases h.tailData s htl with ⟨-, -, hnil⟩ | ⟨t, ht, -⟩
      · rw [hnil] at hlt
        cases hlt
      · exact hrecord t ht hlt
  · right
    rcases Ghost.mem_segments.mp hs with hcl | htl
    · rw [hend _ (h.closedData s hcl).2 hlen]
      exact Or.inl ⟨hlen, by simpa using parse_sentinel c pos []⟩
    · rcases h.tailData s htl with ⟨-, hshort, -⟩ | ⟨t, ht, htail⟩
      · rw [List.drop_eq_nil_of_le (by rw [Segment.position]; omega)]
        exact Or.inr ⟨hlen, htl, parse_short c pos (by simp)⟩
      · rw [hend t ht hlen]
        rcases htail.parse c pos with ⟨-, hp⟩ | ⟨-, hp⟩
        · exact Or.inl ⟨hlen, hp⟩
        · exact Or.inr ⟨hlen, htl, hp⟩

/-- A position in the file `ino` of the segment that begins with offset `base`:
behind its first `k` entries. -/
def Stands (c : Codec) (w : World) (base ino k pos : ℕ) : Prop :=
  ∃ s ∈ w.ghost.segments, s.base = base ∧ s.ino = ino ∧ k ≤ s.entries.length ∧
    pos = s.position c k

theorem Stands.later {w w₁ : World} {base ino k pos : ℕ} (h : Stands c w base ino k pos)
    (hlater : Later w w₁) : Stands c w₁ base ino k pos := by
  obtain ⟨s, hs, rfl, rfl, hk, rfl⟩ := h
  obtain ⟨s₁, hs₁, hg⟩ := hlater.segment s hs
  obtain ⟨more, hmore⟩ := hg.entries
  refine ⟨s₁, hs₁, hg.base, hg.ino, hk.trans hg.entries.length_le, ?_⟩
  rw [Segment.position, Segment.position, ← hmore, List.take_append_of_le_length hk]

theorem grows_segment {x : Sight c} {s : Segment} (hs : s ∈ x.world.ghost.segments) :
    FileIO.Grows (watching c fails) s.ino x := by
  intro y z hy hz
  obtain ⟨s₁, hs₁, hg⟩ := hy.1.segment s hs
  obtain ⟨s₂, -, hg₂⟩ := hz.1.segment s₁ hs₁
  rw [← hg.ino]
  exact hg₂.data

/-- Reading at a position: the next entry, the end of a segment, or the end of the
log. -/
theorem Stands.readRecord {x : Sight c} {base ino k pos p : ℕ}
    (h : Stands c x.world base ino k pos)
    {Q : Except StorageError LogEntry × File → Sight c → Prop}
    (hrecord : ∀ y e pos', (watching c fails).rely x y → y.world.ghost.total[base + k]? = some e →
      Stands c y.world base ino (k + 1) pos' → Q (.ok e, ⟨ino, pos'⟩) y)
    (hsentinel : ∀ (y : Sight c) s p, (watching c fails).rely x y → s ∈ y.world.ghost.segments →
      s.base = base → s.stop = base + k → Q (.error (.corrupted sentinelMsg), ⟨ino, p⟩) y)
    (heof : ∀ (y : Sight c) s p, (watching c fails).rely x y → y.world.ghost.tail = some s →
      s.base = base → s.stop = base + k → Q (.error (.io .unexpectedEof), ⟨ino, p⟩) y)
    (herr : (∃ o, fails o) → ∀ (y : Sight c) p, Q (.error (.io .other), ⟨ino, p⟩) y) :
    Safe (watching c fails) (readRecord c pos ⟨ino, p⟩) Q x := by
  refine Safe.bindP (Safe.mapError (shared_watching.seek (fun y hy => ?_)
    fun y _ hf => herr hf y p))
  have hgrows : FileIO.Grows (watching c fails) ino y := by
    obtain ⟨s, hs, -, rfl, -⟩ := h.later hy.1
    exact grows_segment hs
  refine shared_watching.read ino StorageError.io hgrows (fun z _ hf q => herr hf z q) _ _
    (fun z hz r m hm => ?_) fun z hz hm q => ?_
  · have hxz := shared_watching.trans hy hz
    obtain ⟨s, hs, rfl, rfl, hk, rfl⟩ := h.later hxz.1
    rcases z.good.parse_at hs hk (s.position c k) with
      ⟨e, he, hp⟩ | ⟨hlen, hp⟩ | ⟨-, -, hp⟩
    · obtain ⟨rfl, rfl⟩ : r = .ok e ∧ m = (recordBytes c e).length := by
        simpa using hm.symm.trans hp
      have hlt : k < s.entries.length := (List.getElem?_eq_some_iff.mp he).1
      refine hrecord z e _ hxz ((z.good.getElem?_total hs hlt).trans he)
        ⟨s, hs, rfl, rfl, hlt, ?_⟩
      rw [Segment.position, Segment.position, List.take_add_one, he, Option.toList_some,
        recordsBytes_append, List.length_append, recordsBytes_cons, recordsBytes_nil,
        List.append_nil, Nat.add_assoc]
    · obtain ⟨rfl, -⟩ : r = .error (.corrupted sentinelMsg) ∧ m = 4 := by
        simpa using hm.symm.trans hp
      exact hsentinel z s _ hxz hs rfl (by rw [Segment.stop, hlen])
    · cases hm.symm.trans hp
  · have hxz := shared_watching.trans hy hz
    obtain ⟨s, hs, rfl, rfl, hk, rfl⟩ := h.later hxz.1
    rcases z.good.parse_at hs hk (s.position c k) with
      ⟨e, -, hp⟩ | ⟨-, hp⟩ | ⟨hlen, htail, -⟩
    · cases hm.symm.trans hp
    · cases hm.symm.trans hp
    · exact heof z s q hxz htail rfl (by rw [Segment.stop, hlen])

theorem Good.frozen_index {w : World} (h : Good c w) {s : Segment} (hs : s ∈ w.ghost.closed)
    {j : ℕ} (hj : w.disk.find (.idx s.base) = some j) :
    Frozen w j (indexBytes (s.positions c)) := by
  refine ⟨?_, h.tidy.bound _ _ hj, fun x hx => ?_, fun t ht => ?_⟩
  · obtain ⟨t, ht, hb, hd⟩ := h.idxData _ j hj
    obtain rfl := h.ok.closed_inj ht hs hb
    exact hd
  · rw [h.tidy.inj _ _ _ hx hj]
    rfl
  · exact h.tail_ino_ne ht hj (by simp)

theorem Good.stop_le_of_unindexed {w : World} (h : Good c w) {s : Segment}
    (hs : s ∈ w.ghost.closed) (hnone : w.disk.find (.idx s.base) = none) :
    s.stop ≤ evictedCount w := by
  rcases Ghost.mem_closed_iff.mp hs with hd | hl
  · exact h.stop_le_evictedCount hd
  · have hidx := h.idx s hl
    rw [hnone] at hidx
    cases hidx

theorem Good.frozen_watermark {w : World} (h : Good c w) {j : ℕ}
    (hj : w.disk.find .watermark = some j) : Frozen w j (w.disk.data j) := by
  refine ⟨rfl, h.tidy.bound _ _ hj, fun x hx => ?_, fun t ht => ?_⟩
  · rw [h.tidy.inj _ _ _ hx hj]
    rfl
  · exact h.tail_ino_ne ht hj (by simp)

theorem Frozen.grows {x : Sight c} {i : ℕ} {bytes : List UInt8} (h : Frozen x.world i bytes) :
    FileIO.Grows (watching c fails) i x := by
  intro y z hy hz
  have hfirst : y.world.disk.data i = bytes := (hy.1.frozen i bytes h).data
  have hlast : z.world.disk.data i = bytes := ((hy.1.trans hz.1).frozen i bytes h).data
  change y.world.disk.data i <+: z.world.disk.data i
  rw [hfirst, hlast]

/-- Reading the watermark: what it says, or nothing if there is none. -/
theorem safe_readWatermark_watching {σ : Type} {st : σ} {x : Sight c}
    {Q : Except StorageError (Option ℕ) × σ → Sight c → Prop}
    (hsome : ∀ y mark, (watching c fails).rely x y →
      (∀ n, MarkedTo x.world n → n ≤ mark) → Q (.ok (some mark), st) y)
    (hnone : ∀ y, (watching c fails).rely x y → (∀ n, ¬ MarkedTo x.world n) → Q (.ok none, st) y)
    (herr : (∃ o, fails o) → ∀ y, Q (.error (.io .other), st) y) :
    Safe (watching c fails) (readWatermark st) Q x := by
  refine Safe.bindP (Safe.lift (shared_watching.openRead (fun y hy i hi => ?_)
    (fun y hy hmissing => ?_) fun y _ hf => herr hf y))
  · have hfrozen := y.good.frozen_watermark hi
    have hdata : ∀ {z}, (watching c fails).rely y z → z.world.disk.data i = y.world.disk.data i :=
      fun hz => (hz.1.frozen _ _ hfrozen).data
    have hlen := (y.good.watermark_eq hi).2
    refine Safe.bindP (Safe.on (Safe.attempt (shared_watching.readExact hfrozen.grows
      (fun z _ hf p => herr hf z) (fun z hz _ => ?_) fun z hz hshort p => ?_)))
    · refine hsome z _ (shared_watching.trans hy hz) fun n hn => ?_
      obtain ⟨j, hj, -, hle⟩ := hy.1.marked n hn
      obtain rfl := Option.some.inj (hj.symm.trans hi)
      change n ≤ ofLe (((z.world.disk.data j).drop 0).take 8)
      rwa [hdata hz, List.drop_zero, List.take_of_length_le hlen.le]
    · change ((z.world.disk.data i).drop 0).length < 8 at hshort
      rw [hdata hz, List.drop_zero] at hshort
      omega
  · refine hnone y hy fun n hn => ?_
    obtain ⟨j, hj, -⟩ := hy.1.marked n hn
    rw [show y.world.disk.find .watermark = none from hmissing] at hj
    cases hj

/-- What is said of an index that is too large to be read. -/
def oversizedIndex (dir : String) (base len : ℕ) : StorageError :=
  .corrupted ("index file " ++ joinPath dir (pad20 base ++ ".idx") ++ " is " ++ toString len ++
    " bytes, exceeding the " ++ toString maxIndexBytes ++ "-byte limit")

theorem safe_readIndex_closed {σ : Type} {st : σ} {x : Sight c} {s : Segment} (dir : String)
    (hs : s ∈ x.world.ghost.closed) {Q : Except StorageError (List ℕ) × σ → Sight c → Prop}
    (hok : ∀ y, (watching c fails).rely x y → Q (.ok (s.positions c), st) y)
    (hgone : ∀ y, (watching c fails).rely x y → s.stop ≤ evictedCount y.world →
      Q (.error (.io .notFound), st) y)
    (hlarge : ∀ y, (watching c fails).rely x y → maxIndexBytes < 8 * s.entries.length →
      Q (.error (oversizedIndex dir s.base (8 * s.entries.length)), st) y)
    (herr : (∃ o, fails o) → ∀ y, Q (.error (.io .other), st) y) :
    Safe (watching c fails) (readIndex dir s.base st) Q x := by
  have hclosed : ∀ {y}, (watching c fails).rely x y → s ∈ y.world.ghost.closed :=
    fun hy => hy.1.closed.subset hs
  unfold readIndex
  refine Safe.bindP (Safe.mapError (Safe.liftE (shared_watching.stat (fun y hy j hj => ?_)
    (fun y hy hnone => hgone y hy (y.good.stop_le_of_unindexed (hclosed hy) hnone))
    fun y _ hf => herr hf y)))
  dsimp only [Except.mapError]
  obtain ⟨t, ht, hb, hindex⟩ := y.good.idxData s.base j hj
  obtain rfl : s = t := y.good.ok.closed_inj (hclosed hy) ht hb.symm
  have hsize : (((watching c fails).view y).data j).length = 8 * s.entries.length := by
    change (y.world.disk.data j).length = _
    rw [hindex, length_indexBytes, Segment.length_positions]
  rw [hsize]
  split_ifs with hlimit
  · exact hlarge y hy hlimit
  refine Safe.bindP (Safe.mapError (Safe.liftE (shared_watching.openRead (fun z hz i hi => ?_)
    (fun z hz hnone => ?_) fun z _ hf => herr hf z)))
  · have hxz := shared_watching.trans hy hz
    refine Safe.bindP (Safe.mapError (Safe.liftE (shared_watching.op (by trivial)
      fun v hv r d' hstep => ?_)))
    obtain ⟨rfl, rfl | ⟨hf, rfl⟩⟩ := hstep
    · refine ⟨rfl, ?_⟩
      have hd : v.world.disk.data i = indexBytes (s.positions c) :=
        (hv.1.frozen _ _ (z.good.frozen_index (hclosed hxz) hi)).data
      change Safe _ ((if (v.world.disk.data i).length % 8 ≠ 0 then _
        else pure (chunks8 (v.world.disk.data i)) : Io σ (List ℕ)) st) Q v
      have hlen := length_indexBytes (s.positions c)
      rw [hd, if_neg (by omega), chunks8_indexBytes (z.good.position_lt (hclosed hxz))]
      exact hok v (shared_watching.trans hxz hv)
    · exact ⟨rfl, herr ⟨_, hf⟩ v⟩
  · have hxz := shared_watching.trans hy hz
    exact hgone z hxz (z.good.stop_le_of_unindexed (hclosed hxz) hnone)

namespace Subscription

/-- What a scan has found among the bases it has seen. -/
structure Shows (offset : ℕ) (seen : List ℕ) (found : Option ℕ × Option ℕ) : Prop where
  best : ∀ b, found.1 = some b → b ∈ seen ∧ b ≤ offset
  greatest : ∀ b ∈ seen, b ≤ offset → ∃ m, found.1 = some m ∧ b ≤ m
  least : found.2 = none ↔ seen = []

theorem Shows.nil (offset : ℕ) : Shows offset [] (none, none) where
  best b hb := by cases hb
  greatest b hb := by cases hb
  least := by simp

theorem Shows.entry {offset : ℕ} {seen : List ℕ} {found : Option ℕ × Option ℕ}
    (h : Shows offset seen found) (base : ℕ) :
    Shows offset (base :: seen) (scanEntry offset found base) := by
  obtain ⟨best, least⟩ := found
  unfold scanEntry
  refine ⟨fun b hb => ?_, fun b hb hle => ?_, by simp⟩
  · dsimp only at hb
    split_ifs at hb with hbase
    · cases best with
      | none =>
        obtain rfl := Option.some.inj hb
        exact ⟨List.mem_cons_self, hbase⟩
      | some m =>
        obtain ⟨hm, hmle⟩ := h.best m rfl
        obtain rfl := Option.some.inj hb
        change max m base ∈ base :: seen ∧ max m base ≤ offset
        refine ⟨?_, max_le hmle hbase⟩
        rcases max_choice m base with hmax | hmax <;> rw [hmax]
        · exact List.mem_cons_of_mem _ hm
        · exact List.mem_cons_self
    · obtain ⟨hm, hmle⟩ := h.best b hb
      exact ⟨List.mem_cons_of_mem _ hm, hmle⟩
  · rcases List.mem_cons.mp hb with rfl | hb
    · rw [if_pos hle]
      cases best with
      | none => exact ⟨b, rfl, le_rfl⟩
      | some m => exact ⟨_, rfl, le_max_right m b⟩
    · obtain ⟨m, hm, hbm⟩ := h.greatest b hb hle
      obtain rfl : best = some m := hm
      split_ifs
      · exact ⟨_, rfl, hbm.trans (le_max_left m base)⟩
      · exact ⟨m, rfl, hbm⟩

/-- A listing that began in the world `w`, with these slots still to come. -/
structure Listed (w : World) (offset n : ℕ) (slots : List (Slot FileName)) (seen : List ℕ)
    (found : Option ℕ × Option ℕ) (x : Sight c) : Prop where
  later : Later w x.world
  shows : Shows offset seen found
  sound : ∀ b ∈ seen, evictedCount w ≤ b ∧ ∃ s ∈ x.world.ghost.segments, s.base = b
  complete : ∀ b, (w.disk.find (.seg b)).isSome = true →
    .known (.seg b) ∈ slots ∨ b ∈ seen ∨ b < evictedCount x.world
  known : ∀ y, .known y ∈ slots → (w.disk.find y).isSome = true
  sweep : x.sweep = ⟨n, !seen.isEmpty⟩

namespace Listed

variable {w : World} {offset n : ℕ} {slots : List (Slot FileName)} {seen : List ℕ}
  {found : Option ℕ × Option ℕ} {x y : Sight c}

theorem next (h : Listed w offset n slots seen found x) (hxy : (watching c fails).rely x y) :
    Listed w offset n slots seen found y where
  later := h.later.trans hxy.1
  shows := h.shows
  sound b hb := by
    obtain ⟨hle, s, hs, rfl⟩ := h.sound b hb
    obtain ⟨s₁, hs₁, hg⟩ := hxy.1.segment s hs
    exact ⟨hle, s₁, hs₁, hg.base⟩
  complete b hb := by
    rcases h.complete b hb with hslot | hseen | hlt
    · exact Or.inl hslot
    · exact Or.inr (Or.inl hseen)
    · exact Or.inr (Or.inr (hlt.trans_le (hxy.1.evictedCount_le x.good)))
  known := h.known
  sweep := hxy.2.trans h.sweep

/-- A slot that shows no segment file: none was there, or it has been deleted. -/
theorem skip {slot : Slot FileName} (h : Listed w offset n (slot :: slots) seen found x)
    (hslot : ∀ b, slot = .known (.seg b) → b < evictedCount x.world) :
    Listed w offset n slots seen found x where
  later := h.later
  shows := h.shows
  sound := h.sound
  complete b hb := by
    rcases h.complete b hb with hmem | hrest
    · rcases List.mem_cons.mp hmem with heq | hmem
      · exact Or.inr (Or.inr (hslot b heq.symm))
      · exact Or.inl hmem
    · exact Or.inr hrest
  known y hy := h.known y (List.mem_cons_of_mem _ hy)
  sweep := h.sweep

theorem add {slot : Slot FileName} (h : Listed w offset n (slot :: slots) seen found x)
    {base : ℕ} (hslot : ∀ b, slot = .known (.seg b) → b = base)
    (hle : evictedCount w ≤ base) (hmem : ∃ s ∈ x.world.ghost.segments, s.base = base) :
    Listed w offset n slots (base :: seen) (scanEntry offset found base)
      ⟨x.world, x.good, ⟨n, true⟩⟩ where
  later := h.later
  shows := h.shows.entry base
  sound b hb := by
    rcases List.mem_cons.mp hb with rfl | hb
    · exact ⟨hle, hmem⟩
    · exact h.sound b hb
  complete b hb := by
    rcases h.complete b hb with hm | hseen | hlt
    · rcases List.mem_cons.mp hm with heq | hm
      · rw [hslot b heq.symm]
        exact Or.inr (Or.inl List.mem_cons_self)
      · exact Or.inl hm
    · exact Or.inr (Or.inl (List.mem_cons_of_mem _ hseen))
    · exact Or.inr (Or.inr hlt)
  known y hy := h.known y (List.mem_cons_of_mem _ hy)
  sweep := rfl

end Listed

theorem segBase?_eq_some {x : FileName} {base : ℕ} (h : x.segBase? = some base) :
    x = .seg base := by
  cases x with
  | seg b =>
    obtain rfl := Option.some.inj h
    rfl
  | _ => cases h

theorem safe_scanEntries {σ : Type} {st : σ} {w : World} (hw : Good c w) {offset n : ℕ}
    {Q : Except StorageError (Option ℕ × Option ℕ) × σ → Sight c → Prop}
    (hok : ∀ seen found x, Listed w offset n [] seen found x → Q (.ok found, st) x)
    (herr : (∃ o, fails o) → ∀ k x, Q (.error (.io k), st) x) {slots : List (Slot FileName)}
    {seen : List ℕ} {found : Option ℕ × Option ℕ} {x : Sight c}
    (h : Listed w offset n slots seen found x) :
    Safe (watching c fails) (scanEntries offset slots found st) Q x := by
  induction slots generalizing seen found x with
  | nil => exact hok seen found x h
  | cons slot rest ih =>
    rw [scanEntries]
    refine Safe.bindP (Safe.mapError (Safe.liftE fun x₁ hx₁ r d' hs => ?_))
    have h₁ := h.next hx₁
    have hmem : ∀ b, (w.disk.find (.seg b)).isSome = true →
        evictedCount w ≤ b ∧ ∃ s ∈ x₁.world.ghost.segments, s.base = b := by
      intro b hb
      obtain ⟨s, hs, rfl, hle⟩ := (hw.linked_iff b).mp hb
      obtain ⟨s₁, hs₁, hg⟩ := h₁.later.segment s hs
      exact ⟨hle, s₁, hs₁, hg.base⟩
    -- What the listing answers is a linked segment file, something else, or nothing.
    have hentry : ∀ entry : Option FileName,
        (entry.bind FileName.segBase? = none →
          ∀ b, slot = .known (.seg b) → b < evictedCount x₁.world) →
        (∀ base, entry.bind FileName.segBase? = some base →
          (∀ b, slot = .known (.seg b) → b = base) ∧ evictedCount w ≤ base ∧
            ∃ s ∈ x₁.world.ghost.segments, s.base = base) →
        ∃ y : Sight c, y.world.disk = x₁.world.disk ∧
          (watching c fails).guar x₁ (.dirEntry slot) (.ok entry) y ∧
          Safe (watching c fails) (scanEntries offset rest
            ((entry.bind FileName.segBase?).elim found (scanEntry offset found)) st) Q y := by
      intro entry hother hsegment
      refine ⟨⟨x₁.world, x₁.good, x₁.sweep.see (.dirEntry slot) (.ok entry)⟩, rfl, ⟨rfl, rfl⟩, ?_⟩
      cases hb : entry.bind FileName.segBase? with
      | none =>
        rw [Sweep.see_other _ _ hb]
        exact ih (h₁.skip (hother hb))
      | some base =>
        obtain ⟨hslot, hle, hs⟩ := hsegment base hb
        rw [Sweep.see_segment _ _ hb, h₁.sweep]
        exact ih (h₁.add hslot hle hs)
    cases slot with
    | known y =>
      obtain ⟨rfl, rfl | ⟨hnone, rfl⟩ | ⟨hf, rfl⟩⟩ := hs
      · refine hentry (some y) (fun hb b hslot => ?_) fun base hb => ?_
        · obtain rfl := Slot.known.inj hslot
          cases hb
        · obtain rfl := segBase?_eq_some hb
          refine ⟨fun b hslot => ?_, hmem base (h₁.known _ List.mem_cons_self)⟩
          exact FileName.seg.inj (Slot.known.inj hslot).symm
      · refine hentry none (fun _ b hslot => ?_) fun base hb => by cases hb
        obtain rfl := Slot.known.inj hslot
        obtain ⟨-, s, hs, rfl⟩ := hmem b (h₁.known _ List.mem_cons_self)
        by_contra hlt
        have hlinked := (x₁.good.linked_iff s.base).mpr ⟨s, hs, rfl, Nat.le_of_not_lt hlt⟩
        rw [show x₁.world.disk.find (.seg s.base) = none from hnone] at hlinked
        cases hlinked
      · exact ⟨_, rfl, ⟨rfl, rfl⟩, herr ⟨_, hf⟩ _ _⟩
    | fresh present =>
      obtain ⟨rfl, rfl | ⟨y, -, hy, rfl⟩ | ⟨hf, rfl⟩⟩ := hs
      · exact hentry none (fun _ b hslot => by cases hslot) fun base hb => by cases hb
      · refine hentry (some y) (fun _ b hslot => by cases hslot) fun base hb => ?_
        obtain rfl := segBase?_eq_some hb
        obtain ⟨s, hs, hbase, hle⟩ := (x₁.good.linked_iff base).mp hy
        exact ⟨fun b hslot => (by cases hslot),
          (h₁.later.evictedCount_le hw).trans hle, s, hs, hbase⟩
      · exact ⟨_, rfl, ⟨rfl, rfl⟩, herr ⟨_, hf⟩ _ _⟩

/-- What a listing that lasted from one world to another has found. -/
structure Survey (w w₁ : World) (offset : ℕ) (found : Option ℕ × Option ℕ) : Prop where
  later : Later w w₁
  sound : ∀ b, found.1 = some b → evictedCount w ≤ b ∧ b ≤ offset ∧
    ∃ s ∈ w₁.ghost.segments, s.base = b
  complete : offset < w.ghost.total.length → offset < evictedCount w₁ ∨
    ∃ s ∈ w₁.ghost.segments, found.1 = some s.base ∧ s.base ≤ offset ∧ offset < s.stop
  empty : found.2 = none → w.ghost.total ≠ [] → MarkedTo w₁ w.ghost.total.length

theorem Listed.survey {w : World} (hw : Good c w) {offset n : ℕ} {seen : List ℕ}
    {found : Option ℕ × Option ℕ} {x : Sight c} (h : Listed w offset n [] seen found x) :
    Survey w x.world offset found where
  later := h.later
  sound b hb := by
    obtain ⟨hseen, hle⟩ := h.shows.best b hb
    obtain ⟨hge, hs⟩ := h.sound b hseen
    exact ⟨hge, hle, hs⟩
  complete hlt := by
    obtain ⟨s, hs, hle, hstop⟩ := hw.exists_holding hlt
    obtain ⟨s₁, hs₁, hg⟩ := h.later.segment s hs
    have hstop₁ : offset < s₁.stop := by
      have hlen := hg.entries.length_le
      rw [Segment.stop] at hstop ⊢
      rw [hg.base]
      omega
    rw [← hg.base] at hle
    rcases Nat.lt_or_ge s₁.base (evictedCount x.world) with hgone | hleft
    · exact Or.inl (hstop₁.trans_le (x.good.stop_le_of_base_lt hs₁ hgone))
    · have hlinked := (hw.linked_iff s.base).mpr ⟨s, hs, rfl,
        hg.base ▸ (h.later.evictedCount_le hw).trans hleft⟩
      rcases h.complete _ hlinked with hslot | hseen | hlt'
      · cases hslot
      · obtain ⟨m, hm, hbm⟩ := h.shows.greatest _ hseen (hg.base ▸ hle)
        obtain ⟨hmseen, hmle⟩ := h.shows.best m hm
        obtain ⟨-, t, ht, rfl⟩ := h.sound m hmseen
        refine Or.inr ⟨s₁, hs₁, ?_, hle, hstop₁⟩
        -- No segment begins between this one and the offset.
        rcases Nat.lt_or_ge s₁.base t.base with hlt'' | hge
        · have hbehind := x.good.stop_le_base hs₁ ht hlt''
          omega
        · rw [hm, Nat.le_antisymm (hg.base ▸ hbm) hge]
      · have hbase := hg.base
        omega
  empty hnone hne := by
    have hseen := h.shows.least.mp hnone
    subst hseen
    by_cases hlinked : ∃ b, (w.disk.find (.seg b)).isSome = true
    · obtain ⟨b, hb⟩ := hlinked
      obtain ⟨s, hs, rfl, hle⟩ := (hw.linked_iff b).mp hb
      rcases h.complete _ hb with hslot | hseen | hlt
      · cases hslot
      · cases hseen
      · exact h.later.markedTo_of_lt hw (hle.trans_lt hlt)
    · refine h.later.marked _ (hw.marked_of_unlinked (fun b => ?_) hne)
      rw [not_exists] at hlinked
      simpa using hlinked b

theorem mem_knownNames {slots : List (Slot FileName)} {y : FileName} :
    y ∈ knownNames slots ↔ .known y ∈ slots := by
  rw [knownNames, List.mem_filterMap]
  constructor
  · rintro ⟨slot, hslot, hy⟩
    cases slot with
    | known z =>
      obtain rfl := Option.some.inj hy
      exact hslot
    | fresh present => cases hy
  · exact fun hslot => ⟨_, hslot, rfl⟩

theorem Listed.first {offset n : ℕ} {slots : List (Slot FileName)} (x : Sight c)
    (hslots : (knownNames slots).Perm x.world.disk.dir.keys) (hsweep : x.sweep = ⟨n, false⟩) :
    Listed x.world offset n slots [] (none, none) x where
  later := .refl _
  shows := .nil _
  sound b hb := by cases hb
  complete b hb := by
    rw [← Disk.mem_keys, ← hslots.mem_iff, mem_knownNames] at hb
    exact Or.inl hb
  known y hy := by rwa [← Disk.mem_keys, ← hslots.mem_iff, mem_knownNames]
  sweep := hsweep

theorem safe_scanSegments {σ : Type} {st : σ} {offset : ℕ}
    {Q : Except StorageError (Option ℕ × Option ℕ) × σ → Sight c → Prop} {x : Sight c}
    (hok : ∀ w found (y : Sight c), Good c w → Later x.world w → Survey w y.world offset found →
      y.sweep = ⟨x.sweep.listings + 1, found.2.isSome⟩ → Q (.ok found, st) y)
    (herr : (∃ o, fails o) → ∀ k y, Q (.error (.io k), st) y) :
    Safe (watching c fails) (scanSegments offset st) Q x := by
  refine Safe.bindP (Safe.mapError (Safe.liftE fun x₁ hx₁ r d' hs => ?_))
  obtain ⟨rfl, ⟨slots, rfl, hperm, -⟩ | ⟨hf, rfl⟩⟩ := hs
  · let y₁ : Sight c := ⟨x₁.world, x₁.good, ⟨x₁.sweep.listings + 1, false⟩⟩
    have hfirst : Listed y₁.world offset (x₁.sweep.listings + 1) slots [] (none, none) y₁ :=
      .first y₁ hperm rfl
    refine ⟨y₁, rfl, ⟨rfl, rfl⟩, safe_scanEntries x₁.good (fun seen found y hy => ?_) herr hfirst⟩
    refine hok x₁.world found y x₁.good hx₁.1 (hy.survey x₁.good) ?_
    have hfound : found.2.isSome = !seen.isEmpty := by
      have hleast := hy.shows.least
      cases hfound : found.2 <;> cases seen <;> simp [hfound] at hleast ⊢
    rw [hy.sweep, hx₁.2, hfound]
  · exact ⟨⟨x₁.world, x₁.good, ⟨x₁.sweep.listings + 1, false⟩⟩, rfl, ⟨rfl, rfl⟩,
      herr ⟨_, hf⟩ _ _⟩

/-- Skipping entries ends behind them, or where the log or the segment ends before. -/
theorem safe_scanRecords {base ino n : ℕ} {Q : Except StorageError Scan × File → Sight c → Prop}
    (herr : (∃ o, fails o) → ∀ (y : Sight c) f, Q (.error (.io .other), f) y)
    {x : Sight c} {k pos p : ℕ} (h : Stands c x.world base ino k pos)
    (hreached : ∀ y pos' p', (watching c fails).rely x y →
      Stands c y.world base ino (k + n) pos' → Q (.ok (.reached pos'), ⟨ino, p'⟩) y)
    (hended : ∀ y j pos' p', (watching c fails).rely x y → j ≤ k + n →
      Stands c y.world base ino j pos' → Q (.ok (.ended pos'), ⟨ino, p'⟩) y)
    (hrolled : ∀ (y : Sight c) s p', (watching c fails).rely x y → s ∈ y.world.ghost.segments →
      s.base = base → s.stop < base + (k + n) → Q (.ok .rolled, ⟨ino, p'⟩) y) :
    Safe (watching c fails) (scanRecords c n pos ⟨ino, p⟩) Q x := by
  induction n generalizing x k pos p with
  | zero => exact hreached x pos p (shared_watching.refl x) h
  | succ n ih =>
    rw [scanRecords]
    refine Safe.bindP (Safe.attempt (h.readRecord (fun y e pos' hy _ h' => ?_)
      (fun y s q hy hs hb hstop => ?_) (fun y s q hy _ _ _ => ?_) fun hf y q => ?_))
    · refine Safe.bindP (Safe.mapError (shared_watching.streamPosition (fun z hz => ?_)
        fun z _ hf => herr hf z _))
      have hxz := shared_watching.trans hy hz
      have hk : k + 1 + n = k + (n + 1) := by omega
      refine ih (h'.later hz.1) (fun v pos₁ p₁ hv h₁ => ?_) (fun v j pos₁ p₁ hv hj h₁ => ?_)
        fun v s p₁ hv hs hb hlt => ?_
      · exact hreached v pos₁ p₁ (shared_watching.trans hxz hv) (hk ▸ h₁)
      · exact hended v j pos₁ p₁ (shared_watching.trans hxz hv) (hk ▸ hj) h₁
      · exact hrolled v s p₁ (shared_watching.trans hxz hv) hs hb (hk ▸ hlt)
    · exact hrolled y s q hy hs hb (by omega)
    · exact hended y k pos q hy (by omega) (h.later hy.1)
    · exact herr hf y _

/-- Of `total` entries none is at offset `n` or later; or a listing has missed that
they are all deleted. -/
def Idle (total n : ℕ) (x : Sight c) : Prop :=
  total ≤ n ∨ x.sweep.Blind ∧ MarkedTo x.world total

/-- The place to read offset `n` from, or a place before it that is reached by
reading on. In a file that counts as closed it is the place itself. -/
def Placed (c : Codec) (w : World) (n : ℕ) (opened : File × ℕ × Bool) : Prop :=
  ∃ base k, Stands c w base opened.1.ino k opened.2.1 ∧ base + k ≤ n ∧
    (opened.2.2 = false → base + k = n ∧ ∃ s ∈ w.ghost.closed, s.base = base)

theorem Placed.later {w w₁ : World} {n : ℕ} {opened : File × ℕ × Bool}
    (h : Placed c w n opened) (hlater : Later w w₁) : Placed c w₁ n opened := by
  obtain ⟨base, k, hs, hle, hclosed⟩ := h
  refine ⟨base, k, hs.later hlater, hle, fun hactive => ?_⟩
  obtain ⟨heq, s, hcl, hb⟩ := hclosed hactive
  exact ⟨heq, s, hlater.closed.subset hcl, hb⟩

/-- The errors a subscription may report at offset `n`, when there were `total`
entries: the offset is gone, the index of a segment that begins before it is too
large to be read, or an operation has failed. -/
def Excused (fails : Op FileName → Prop) (total n : ℕ) (err : StorageError) (w : World) : Prop :=
  (∃ earliest, err = .retentionExpired n earliest ∧ (n < total → n < evictedCount w)) ∨
    (∃ dir, ∃ s ∈ w.ghost.closed, s.base ≤ n ∧ maxIndexBytes < 8 * s.entries.length ∧
      err = oversizedIndex dir s.base (8 * s.entries.length)) ∨
    ∃ o, fails o

/-- What opening at offset `n` answers, when there were `total` entries. -/
def Answered (fails : Op FileName → Prop) (total n : ℕ) :
    Except StorageError Opened → Sight c → Prop
  | .ok none, x => Idle total n x
  | .ok (some opened), x => Placed c x.world n opened
  | .error err, x => Excused fails total n err x.world

section Open

variable {σ : Type} {st : σ} {total n : ℕ} {Q : Except StorageError Opened × σ → Sight c → Prop}
  {x : Sight c}

theorem safe_rescan (hQ : ∀ r y, Answered fails total n r y → Q (r, st) y)
    (hlist : x.sweep.listings = 1) (htotal : total ≤ x.world.ghost.total.length)
    (hgone : n < total → n < evictedCount x.world) :
    Safe (watching c fails) (rescan n st) Q x := by
  refine Safe.bindP (safe_scanSegments (fun w found y hw hlater hsurvey hsweep => ?_)
    fun hf k y => hQ _ y (Or.inr (Or.inr hf)))
  obtain ⟨best, least⟩ := found
  cases best with
  | none =>
    cases least with
    | none =>
      refine hQ (.ok none) y ?_
      rcases Nat.lt_or_ge n total with hlt | hge
      · have hle := htotal.trans hlater.total.length_le
        have hne : w.ghost.total ≠ [] := by
          intro hnil
          rw [hnil, List.length_nil] at hle
          omega
        refine Or.inr ⟨?_, (hsurvey.empty rfl hne).mono hle⟩
        rw [hsweep, hlist]
        decide
      · exact Or.inl hge
    | some oldest =>
      have hmono := (hlater.trans hsurvey.later).evictedCount_le x.good
      exact hQ (.error _) y (Or.inl ⟨_, rfl, fun hlt => (hgone hlt).trans_le hmono⟩)
  | some base =>
    refine hQ (.ok none) y (Or.inl ?_)
    -- Segments at or before the offset are left, so its entry was not deleted.
    by_contra hlt
    have hevicted := hgone (Nat.lt_of_not_le hlt)
    have hmono := hlater.evictedCount_le x.good
    obtain ⟨hge, hle, -⟩ := hsurvey.sound base rfl
    omega

theorem safe_seekTo (hQ : ∀ r y, Answered fails total n r y → Q (r, st) y) {file : File} {pos : ℕ}
    {active : Bool} (h : Placed c x.world n (file, pos, active)) :
    Safe (watching c fails) (seekTo file pos active st) Q x := by
  refine Safe.bindP (Safe.on (Safe.mapError (shared_watching.seek (fun y hy => ?_)
    fun y _ hf => hQ _ y (Or.inr (Or.inr hf)))))
  exact hQ (.ok (some (⟨file.ino, pos⟩, pos, active))) y (h.later hy.1)

theorem safe_openIndexed (hQ : ∀ r y, Answered fails total n r y → Q (r, st) y) (dir : String)
    (hlist : x.sweep.listings = 1) (htotal : total ≤ x.world.ghost.total.length) {s : Segment}
    (hs : s ∈ x.world.ghost.closed) (hle : s.base ≤ n) (hstop : n < total → n < s.stop) :
    Safe (watching c fails) (openIndexed dir n s.base s.ino st) Q x := by
  refine Safe.bindP (Safe.attempt (safe_readIndex_closed dir hs (fun y hy => ?_)
    (fun y hy hgone => ?_) (fun y hy hlarge => ?_) fun hf y => ?_))
  · dsimp only
    cases hpos : (s.positions c)[n - s.base]? with
    | none =>
      refine hQ (.ok none) y (Or.inl ?_)
      rw [List.getElem?_eq_none_iff, Segment.length_positions] at hpos
      by_contra hlt
      have hlt' := hstop (Nat.lt_of_not_le hlt)
      rw [Segment.stop] at hlt'
      omega
    | some pos =>
      obtain ⟨e, he, rfl⟩ := getElem?_positionsFrom c hpos
      have hcl := hy.1.closed.subset hs
      have hk : n - s.base ≤ s.entries.length := (List.getElem?_eq_some_iff.mp he).1.le
      refine safe_seekTo hQ ⟨s.base, n - s.base,
        ⟨s, Ghost.mem_segments.mpr (Or.inl hcl), rfl, rfl, hk, rfl⟩, by omega, fun _ => ?_⟩
      exact ⟨by omega, s, hcl, rfl⟩
  · have hsweep : y.sweep.listings = 1 := by rw [hy.2, hlist]
    exact safe_rescan hQ hsweep (htotal.trans hy.1.total.length_le)
      fun hlt => (hstop hlt).trans_le hgone
  · exact hQ _ y (Or.inr (Or.inl ⟨dir, s, hy.1.closed.subset hs, hle, hlarge, rfl⟩))
  · exact hQ _ y (Or.inr (Or.inr hf))

theorem safe_openUnindexed (hQ : ∀ r y, Answered fails total n r y → Q (r, st) y) {s : Segment}
    (hs : s ∈ x.world.ghost.segments) (hle : s.base ≤ n) (hstop : n < total → n < s.stop) :
    Safe (watching c fails) (openUnindexed c n s.base s.ino st) Q x := by
  have hstart : Stands c x.world s.base s.ino 0 headerLen :=
    ⟨s, hs, rfl, rfl, Nat.zero_le _, by simp [Segment.position]⟩
  have hsum : s.base + (n - s.base) = n := by omega
  refine Safe.bindP (Safe.on (safe_scanRecords (fun hf y f => hQ (.error _) y (Or.inr (Or.inr hf)))
    hstart
    (fun y pos p _ h => ?_) (fun y j pos p _ hj h => ?_) fun y t p hy ht hb hlt => ?_))
  · rw [Nat.zero_add] at h
    exact safe_seekTo hQ ⟨s.base, _, h, hsum.le, fun hactive => by cases hactive⟩
  · exact safe_seekTo hQ ⟨s.base, j, h, by omega, fun hactive => by cases hactive⟩
  · refine hQ (.ok none) y (Or.inl ?_)
    by_contra hge
    have hlt' := hstop (Nat.lt_of_not_le hge)
    obtain ⟨s₁, hs₁, hg⟩ := hy.1.segment s hs
    obtain rfl := y.good.segment_inj hs₁ ht (hg.base.trans hb.symm)
    have hlen := hg.entries.length_le
    rw [Segment.stop] at hlt hlt'
    omega

theorem safe_idxExists {base : ℕ} {Q : Except StorageError Bool × σ → Sight c → Prop}
    (hyes : ∀ y, (watching c fails).rely x y → (∃ s ∈ y.world.ghost.closed, s.base = base) →
      Q (.ok true, st) y)
    (hno : ∀ y, (watching c fails).rely x y → Q (.ok false, st) y)
    (herr : (∃ o, fails o) → ∀ y, Q (.error (.io .other), st) y) :
    Safe (watching c fails) (idxExists base st) Q x := by
  refine Safe.bindP (Safe.lift (shared_watching.stat (fun y hy j hj => ?_) (fun y hy _ => ?_)
    fun y _ hf => herr hf y))
  · obtain ⟨s, hs, hb, -⟩ := y.good.idxData base j hj
    exact hyes y hy ⟨s, hs, hb⟩
  · exact hno y hy

/-- The segment that the listing has shown holds the offset, if there is an entry
with this offset and it has not been deleted. -/
theorem Survey.holds {w : World} {base : ℕ} {least : Option ℕ}
    (h : Survey w x.world n (some base, least)) (htotal : total ≤ w.ghost.total.length)
    {y : Sight c} (hy : Later x.world y.world) {s : Segment} (hs : s ∈ y.world.ghost.segments)
    (hb : s.base = base) (hlt : n < total) : n < s.stop ∨ n < evictedCount y.world := by
  rcases h.complete (hlt.trans_le htotal) with hgone | ⟨t, ht, hbase, -, hstop⟩
  · exact Or.inr (hgone.trans_le (hy.evictedCount_le x.good))
  · obtain ⟨t₁, ht₁, hg⟩ := hy.segment t ht
    have hbase' : base = t.base := Option.some.inj hbase
    obtain rfl := y.good.segment_inj hs ht₁ (by rw [hb, hbase', hg.base])
    have hlen := hg.entries.length_le
    have hgb := hg.base
    rw [Segment.stop] at hstop ⊢
    omega

theorem safe_openSegment (hQ : ∀ r y, Answered fails total n r y → Q (r, st) y) (dir : String)
    {w : World} {base : ℕ} {least : Option ℕ} (hsurvey : Survey w x.world n (some base, least))
    (htotal : total ≤ w.ghost.total.length) (hlist : x.sweep.listings = 1) :
    Safe (watching c fails) (openSegment c dir n base st) Q x := by
  obtain ⟨-, hle, t, ht, htb⟩ := hsurvey.sound base rfl
  have htotal' : ∀ {y}, (watching c fails).rely x y → total ≤ y.world.ghost.total.length :=
    fun hy => htotal.trans (hsurvey.later.trans hy.1).total.length_le
  refine Safe.bindP (Safe.lift (shared_watching.openRead (fun y hy i hi => ?_)
    (fun y hy hnone => ?_) fun y _ hf => hQ _ y (Or.inr (Or.inr hf))))
  · obtain ⟨s, hs, rfl, rfl, hleft⟩ := y.good.exists_of_find hi
    have hstop : n < total → n < s.stop := fun hlt =>
      (hsurvey.holds htotal hy.1 hs rfl hlt).resolve_right (by omega)
    have hstop' : ∀ {z : Sight c} {s₁ : Segment}, s.Grown y.world z.world s₁ →
        n < total → n < s₁.stop := fun hg hlt => by
      have hlt' := hstop hlt
      have hlen := hg.entries.length_le
      have hgb := hg.base
      rw [Segment.stop] at hlt' ⊢
      omega
    refine Safe.bindP (safe_idxExists (fun z hz hcl => ?_) (fun z hz => ?_)
      fun hf z => hQ _ z (Or.inr (Or.inr hf)))
    · obtain ⟨s₁, hs₁, hg⟩ := hz.1.segment s hs
      obtain ⟨s₂, hs₂, hb⟩ := hcl
      obtain rfl := z.good.segment_inj hs₁ (Ghost.mem_segments.mpr (Or.inl hs₂))
        (hg.base.trans hb.symm)
      have hxz := shared_watching.trans hy hz
      have hlist' : z.sweep.listings = 1 := by rw [hxz.2, hlist]
      have hopen := safe_openIndexed hQ dir hlist' (htotal' hxz) hs₂ (hg.base ▸ hle) (hstop' hg)
      rwa [hg.base, hg.ino] at hopen
    · obtain ⟨s₁, hs₁, hg⟩ := hz.1.segment s hs
      have hopen := safe_openUnindexed hQ hs₁ (hg.base ▸ hle) (hstop' hg)
      rwa [hg.base, hg.ino] at hopen
  · obtain ⟨s, hs, hg⟩ := hy.1.segment t ht
    have hb : s.base = base := hg.base.trans htb
    have hlist' : y.sweep.listings = 1 := by rw [hy.2, hlist]
    refine safe_rescan hQ hlist' (htotal' hy) fun hlt => ?_
    have hgone : s.base < evictedCount y.world := by
      by_contra hleft
      have hlinked := (y.good.linked_iff base).mpr ⟨s, hs, hb, hb ▸ Nat.le_of_not_lt hleft⟩
      rw [show y.world.disk.find (.seg base) = none from hnone] at hlinked
      cases hlinked
    rcases hsurvey.holds htotal hy.1 hs hb hlt with hstop | hgone'
    · exact hstop.trans_le (y.good.stop_le_of_base_lt hs hgone)
    · exact hgone'

theorem safe_openNothing (hQ : ∀ r y, Answered fails total n r y → Q (r, st) y)
    (hmark : n < total → MarkedTo x.world total ∧ n < evictedCount x.world) :
    Safe (watching c fails) (openNothing n st) Q x := by
  refine Safe.bindP (safe_readWatermark_watching (fun y mark hy hmarked => ?_)
    (fun y _ hnever => ?_) fun hf y => hQ _ y (Or.inr (Or.inr hf)))
  · dsimp only
    split_ifs with hlt
    · have hmono := hy.1.evictedCount_le x.good
      exact hQ (.error _) y (Or.inl ⟨_, rfl, fun hlt' => (hmark hlt').2.trans_le hmono⟩)
    · refine hQ (.ok none) y (Or.inl ?_)
      by_contra hlt'
      have hle := hmarked total (hmark (Nat.lt_of_not_le hlt')).1
      omega
  · refine hQ (.ok none) y (Or.inl ?_)
    by_contra hlt
    exact hnever total (hmark (Nat.lt_of_not_le hlt)).1

/-- Opening finds the place of the offset, or nothing because there was nothing; but
it may miss that everything has been deleted. -/
theorem safe_openToOffset (hQ : ∀ r y, Answered fails total n r y → Q (r, st) y) (dir : String)
    (htotal : total ≤ x.world.ghost.total.length) (hsweep : x.sweep = .start) :
    Safe (watching c fails) (openToOffset c dir n st) Q x := by
  refine Safe.bindP (safe_scanSegments (fun w found y hw hlater hsurvey hlist => ?_)
    fun hf k y => hQ (.error _) y (Or.inr (Or.inr hf)))
  have hle := htotal.trans hlater.total.length_le
  rw [hsweep] at hlist
  obtain ⟨best, least⟩ := found
  cases best with
  | some base => exact safe_openSegment hQ dir hsurvey hle (by rw [hlist]; rfl)
  | none =>
    have hgone : n < total → n < evictedCount y.world := fun hlt =>
      (hsurvey.complete (hlt.trans_le hle)).resolve_right (by simp)
    cases least with
    | some oldest => exact hQ (.error _) y (Or.inl ⟨_, rfl, hgone⟩)
    | none =>
      refine safe_openNothing hQ fun hlt => ⟨(hsurvey.empty rfl ?_).mono hle, hgone hlt⟩
      intro hnil
      rw [hnil, List.length_nil] at hle
      omega

end Open

/-- An open file is open at a place to read on from. -/
def Follows (c : Codec) (w : World) (s : Subscription) : Prop :=
  ∀ opened, s.currentFile = some opened → Placed c w s.nextOffset opened

theorem Follows.later {w w₁ : World} {s : Subscription} (h : Follows c w s)
    (hlater : Later w w₁) : Follows c w₁ s :=
  fun opened ho => (h opened ho).later hlater

/-- How a round at offset `n` ends, when there were `total` entries as it began. -/
def Settled (c : Codec) (fails : Op FileName → Prop) (total n : ℕ) :
    Except StorageError Round × Subscription → Sight c → Prop
  | (.ok (.returned e), s), x =>
    s.nextOffset = n + 1 ∧ Follows c x.world s ∧ x.world.ghost.total[n]? = some e
  | (.ok .again, s), x => s.nextOffset = n ∧ Follows c x.world s
  | (.ok .wait, s), x => s.nextOffset = n ∧ Follows c x.world s ∧ Idle total n x
  | (.error err, s), x => s.nextOffset = n ∧ Excused fails total n err x.world

section Rounds

variable {total n : ℕ} {x : Sight c} {s : Subscription}

theorem safe_openNext (hn : s.nextOffset = n) :
    Safe (watching c fails) (openNext s) (Settled c fails total n) x := by
  have herr : ∀ err (y : Sight c), (∃ o, fails o) → Settled c fails total n (.error err, s) y :=
    fun err y hf => ⟨hn, Or.inr (Or.inr hf)⟩
  refine Safe.getP (Safe.bindP (Safe.lift (shared_watching.openRead (fun y hy i hi => ?_)
    (fun y _ _ => ?_) fun y _ hf => herr _ y hf)))
  · obtain ⟨t, ht, hb, rfl, -⟩ := y.good.exists_of_find hi
    have hplaced : ∀ (z : Sight c) active, Later y.world z.world →
        (active = false → ∃ s₁ ∈ z.world.ghost.closed, s₁.base = s.nextOffset) →
        Placed c z.world s.nextOffset (⟨t.ino, 0⟩, headerLen, active) := by
      intro z active hz hactive
      refine ⟨s.nextOffset, 0, Stands.later ⟨t, ht, hb, rfl, Nat.zero_le _, ?_⟩ hz, le_rfl,
        fun hclosed => ⟨rfl, hactive hclosed⟩⟩
      simp [Segment.position]
    refine Safe.bindP (safe_idxExists (fun z hz hcl => ?_) (fun z hz => ?_) fun hf z => herr _ z hf)
    · refine ⟨hn, ?_⟩
      rintro opened ⟨⟩
      exact hplaced z _ hz.1 fun _ => hcl
    · refine ⟨hn, ?_⟩
      rintro opened ⟨⟩
      exact hplaced z _ hz.1 fun hactive => by cases hactive
  · refine ⟨hn, ?_⟩
    rintro opened ⟨⟩

theorem safe_readNext (hn : s.nextOffset = n) (htotal : total ≤ x.world.ghost.total.length)
    {file : File} {pos : ℕ} {active : Bool} (h : Placed c x.world n (file, pos, active)) :
    Safe (watching c fails) (readNext c file pos active s) (Settled c fails total n) x := by
  obtain ⟨base, k, hstands, hle, hclosed⟩ := h
  obtain ⟨ino, p⟩ := file
  refine Safe.bindP (Safe.on (Safe.attempt (hstands.readRecord (fun y e pos' hy he h' => ?_)
    (fun y t q hy _ _ _ => ?_) (fun y t q hy ht hb hstop => ?_) fun hf y q => ?_)))
  · refine Safe.bindP (Safe.on (Safe.mapError (shared_watching.streamPosition (fun z hz => ?_)
      fun z _ hf => ⟨hn, Or.inr (Or.inr hf)⟩)))
    have hoff : e.offset = base + k := by
      have hnum := y.good.numbered_total _ _ he
      omega
    refine Safe.modifyP (Safe.getP ?_)
    dsimp only
    split_ifs with hskip hwrong
    · refine ⟨hn, ?_⟩
      rintro opened ⟨⟩
      have hlt : e.offset < s.nextOffset := hskip.1
      refine ⟨base, k + 1, h'.later hz.1, by dsimp only; omega, fun hactive => ?_⟩
      cases hskip.2.symm.trans hactive
    · refine absurd ?_ hwrong
      rw [hoff, hn]
      cases active with
      | true =>
        have hge : ¬ e.offset < s.nextOffset := fun hlt => hskip ⟨hlt, rfl⟩
        omega
      | false => exact (hclosed rfl).1
    · rw [not_not, hoff, hn] at hwrong
      refine ⟨by rw [← hn], ?_, ?_⟩
      · rintro opened ⟨⟩
        refine ⟨base, k + 1, h'.later hz.1, by dsimp only; omega, fun hactive => ?_⟩
        obtain ⟨-, t, ht, hb⟩ := hclosed hactive
        refine ⟨by dsimp only; omega, t, ?_, hb⟩
        exact (shared_watching.trans hy hz).1.closed.subset ht
      · obtain ⟨more, hmore⟩ := hz.1.total
        rw [← hwrong, ← hmore, List.getElem?_append_left (List.getElem?_eq_some_iff.mp he).1, he]
  · exact safe_openNext hn
  · refine Safe.modifyP ?_
    have hplaced : Placed c y.world n (⟨ino, q⟩, pos, active) :=
      Placed.later ⟨base, k, hstands, hle, hclosed⟩ hy.1
    cases active with
    | true =>
      refine ⟨hn, ?_, Or.inl ?_⟩
      · rintro opened ⟨⟩
        exact hn ▸ hplaced
      · have hlen := hy.1.total.length_le
        rw [← y.good.stop_tail ht, hstop] at hlen
        omega
    | false =>
      -- The newest segment is not a closed one.
      obtain ⟨-, t', ht', hb'⟩ := hclosed rfl
      exact absurd (hb'.trans hb.symm) (y.good.ok.closed_ne (hy.1.closed.subset ht') ht)
  · exact ⟨hn, Or.inr (Or.inr hf)⟩

theorem safe_tryRound (dir : String) (hn : s.nextOffset = n) (hfollows : Follows c x.world s)
    (htotal : total ≤ x.world.ghost.total.length) (hsweep : x.sweep = .start) :
    Safe (watching c fails) (tryRound c dir s) (Settled c fails total n) x := by
  refine Safe.bindP (Safe.getP ?_)
  cases hfile : s.currentFile with
  | some opened =>
    obtain ⟨file, pos, active⟩ := opened
    refine Safe.getP ?_
    rw [hfile]
    exact safe_readNext hn htotal (hn ▸ hfollows _ hfile)
  | none =>
    have hopen : Safe (watching c fails) (openToOffset c dir s.nextOffset s)
        (fun a y => Later x.world y.world ∧ a.2 = s ∧ Answered fails total n a.1 y) x :=
      safe_along_later (safe_openToOffset (fun r y hr => ⟨rfl, hn ▸ hr⟩) dir htotal hsweep)
    refine Safe.bindP (hopen.mono ?_)
    rintro ⟨r, s'⟩ y ⟨hy, hs', hr⟩
    obtain rfl : s' = s := hs'
    cases r with
    | error err => exact ⟨hn, hr⟩
    | ok opened =>
      cases opened with
      | none =>
        refine ⟨hn, ?_, hr⟩
        rintro opened ⟨⟩
      | some opened =>
        obtain ⟨file, pos, active⟩ := opened
        have hn' : ({ s' with currentFile := some (file, pos, active) } :
            Subscription).nextOffset = n := hn
        exact safe_readNext hn' (htotal.trans hy.total.length_le) hr

/-- A round of `next_entry`. -/
theorem safe_round (dir : String) (hn : s.nextOffset = n) (hfollows : Follows c x.world s)
    (htotal : total ≤ x.world.ghost.total.length) (hsweep : x.sweep = .start) :
    Safe (watching c fails) (round c dir s) (Settled c fails total n) x := by
  refine Safe.bind ((safe_tryRound dir hn hfollows htotal hsweep).mono fun a y h => ?_)
  obtain ⟨r, s'⟩ := a
  cases r with
  | ok r => exact h
  | error err => exact h

end Rounds

end Subscription
end OtkCore.SegmentLog
