import OtkCore.SegmentLog.InOrder
import OtkCore.SegmentLog.Records
import OtkCore.SegmentLog.Acceptance

/-!
# Opening any directory

`open` on a directory of arbitrary files. It checks every segment on its own,
but not that one segment begins where the one before it ends; whether the
loaded log is in order is decided by what lies in the directory.
-/
namespace OtkCore.SegmentLog

open Effect FileIO Bytes

variable {c : Codec}

/-- The number of records that recovery keeps from `pos` on, where the next one
has to carry the offset `next`. -/
def recovered (c : Codec) (data : List UInt8) : ℕ → ℕ → ℕ → ℕ
  | 0, _, _ => 0
  | fuel + 1, next, pos =>
    match (recordParser c pos).parse (data.drop pos) with
    | some (.ok entry, _) =>
      let after := pos + ofLe ((data.drop pos).take 4) + 8
      if entry.offset = next then
        1 + if after < 2 ^ 64 then recovered c data fuel (next + 1) after else 0
      else 0
    | _ => 0

/-- A segment file as `open` sees it: its base, the number of its records by the
index or else by recovery, and whether it has an index. -/
structure Part where
  base : ℕ
  count : ℕ
  indexed : Bool
  deriving DecidableEq

def Part.range (p : Part) : ℕ × ℕ := (p.base, p.base + p.count)

def partOf (c : Codec) (d : Disk FileName) (base : ℕ) : Part where
  base := base
  count := match d.find (.idx base) with
    | some j => (d.data j).length / 8
    | none => match d.find (.seg base) with
      | some i => recovered c (d.data i) ((d.data i).length + 1) base headerLen
      | none => 0
  indexed := (d.find (.idx base)).isSome

/-- The segment files of a directory in the order of their bases. -/
def parts (c : Codec) (d : Disk FileName) : List Part :=
  ((d.dir.keys.filterMap FileName.segBase?).mergeSort (· ≤ ·)).map (partOf c d)

/-- A segment after the ones kept so far: with an index it is added unless the
index is empty; without one it takes the place of the unindexed one before it. -/
def keep (ps : List Part) (p : Part) : List Part :=
  if p.indexed then if p.count = 0 then ps else ps ++ [p]
  else ps.filter Part.indexed ++ [p]

/-- The segments that `open` loads. -/
def kept (ps : List Part) : List Part := ps.foldl keep []

/-- Each loaded segment but the last has an index and ends where the next one
begins. -/
def Chains (c : Codec) (d : Disk FileName) : Prop :=
  (kept (parts c d)).IsChain fun p q => p.indexed = true ∧ p.base + p.count = q.base

instance (c : Codec) (d : Disk FileName) : Decidable (Chains c d) :=
  inferInstanceAs (Decidable (List.IsChain _ _))

section Files

variable {d : Disk FileName} {fails : Op FileName → Prop}

theorem safe_read_at {α : Type} {p : Parser StorageError α} {f : File}
    {Q : Except StorageError α × File → Disk FileName → Prop}
    (hok : ∀ r m q, p.parse ((d.data f.ino).drop f.pos) = some (r, m) → Q (r, ⟨f.ino, q⟩) d)
    (heof : p.parse ((d.data f.ino).drop f.pos) = none →
      ∀ q, Q (.error (.io .unexpectedEof), ⟨f.ino, q⟩) d)
    (hfail : (∃ o, fails o) → ∀ q, Q (.error (.io .other), ⟨f.ino, q⟩) d) :
    Safe (bare fails) (p.read FileName .io f) Q d :=
  quiet_bare.read f.ino StorageError.io (fun ⟨_, _, hf⟩ => hfail ⟨_, hf⟩) p f.pos
    (fun r m hm => hok r m _ hm) heof

/-- What a file that is not as it should be, or a failed operation, is reported as. -/
def Rejects (fails : Op FileName → Prop) (err : StorageError) : Prop :=
  (∃ msg, err = .corrupted msg) ∨ ∃ o, fails o

theorem rejects_corrupted (msg : String) : Rejects fails (.corrupted msg) := .inl ⟨msg, rfl⟩

theorem Rejects.of_fails {o : Op FileName} (h : fails o) (err : StorageError) :
    Rejects fails err := .inr ⟨o, h⟩

theorem rejects_recordParser {pos m : ℕ} {bytes : List UInt8} {err : StorageError}
    (h : (recordParser c pos).parse bytes = some (.error err, m)) : Rejects fails err := by
  rcases (within_recordParser (c := c) pos bytes).1 with ⟨e, he, -⟩ | ⟨hnone, -⟩ | ⟨msg, m', hm⟩
  · cases h.symm.trans he
  · cases h.symm.trans hnone
  · have heq := (Prod.mk.inj (Option.some.inj (h.symm.trans hm))).1
    exact .inl ⟨msg, Except.error.inj heq⟩

theorem rejects_headerParser {m : ℕ} {bytes : List UInt8} {err : StorageError}
    (h : SegmentHeader.parser.parse bytes = some (.error err, m)) : Rejects fails err := by
  rw [SegmentHeader.parser] at h
  by_cases hlen : headerLen ≤ bytes.length
  · rw [Parser.parse_take_bind hlen] at h
    split_ifs at h
    · simp only [Parser.parse_fail, Option.map_some, Option.some.injEq, Prod.mk.injEq,
        Except.error.injEq] at h
      exact .inl ⟨_, h.1.symm⟩
    · simp only [Parser.parse_fail, Option.map_some, Option.some.injEq, Prod.mk.injEq,
        Except.error.injEq] at h
      exact .inl ⟨_, h.1.symm⟩
    · simp at h
  · rw [Parser.parse_take_bind_none (by omega)] at h
    cases h

theorem parse_header_isSome {bytes : List UInt8} (h : headerLen ≤ bytes.length) :
    SegmentHeader.parser.parse bytes ≠ none := by
  rw [SegmentHeader.parser, Parser.parse_take_bind h]
  split_ifs <;> simp

theorem length_chunks8 (bytes : List UInt8) : (chunks8 bytes).length = bytes.length / 8 := by
  fun_induction chunks8 bytes with
  | case1 a b c d e f g h rest ih =>
    simp only [List.length_cons, ih]
    omega
  | case2 bytes hshort =>
    have hlt : bytes.length < 8 := by
      by_contra hge
      rcases bytes with _ | ⟨a, _ | ⟨b, _ | ⟨c, _ | ⟨d, _ | ⟨e, _ | ⟨f, _ | ⟨g, _ | ⟨h, rest⟩⟩⟩⟩⟩⟩⟩⟩
      · simp at hge
      · simp at hge
      · simp at hge
      · simp at hge
      · simp at hge
      · simp at hge
      · simp at hge
      · simp at hge
      · exact hshort _ _ _ _ _ _ _ _ _ rfl
    rw [List.length_nil]
    omega

/-- An index is read unless it is too large or holds no whole number of
positions. -/
theorem safe_readIndex_at {base j : ℕ} (hidx : d.find (.idx base) = some j) (dir : String)
    {σ : Type} {st : σ} {Q : Except StorageError (List ℕ) × σ → Disk FileName → Prop}
    (hok : (d.data j).length ≤ maxIndexBytes → (d.data j).length % 8 = 0 →
      Q (.ok (chunks8 (d.data j)), st) d)
    (hbad : (d.data j).length > maxIndexBytes ∨ (d.data j).length % 8 ≠ 0 →
      ∀ msg, Q (.error (.corrupted msg), st) d)
    (hfail : (∃ o, fails o) → Q (.error (.io .other), st) d) :
    Safe (bare fails) (readIndex dir base st) Q d := by
  unfold readIndex
  refine Safe.bindP (Safe.mapError (Safe.liftE (quiet_bare.stat (fun i hi => ?_) (fun hnone => ?_)
    fun hf => hfail ⟨_, hf⟩)))
  · obtain rfl : j = i := Option.some.inj (hidx.symm.trans hi)
    dsimp only [Except.mapError]
    split_ifs with hlarge
    · exact hbad (.inl hlarge) _
    refine Safe.bindP (Safe.mapError (Safe.liftE (quiet_bare.openRead (fun i' hi' => ?_)
      (fun hnone => ?_) fun hf => hfail ⟨_, hf⟩)))
    · obtain rfl : j = i' := Option.some.inj (hidx.symm.trans hi')
      refine Safe.bindP (Safe.mapError (Safe.liftE (safe_bare fun r d' hs => ?_)))
      obtain ⟨rfl, rfl | ⟨hf, rfl⟩⟩ := hs
      · simp only [Safe, Except.mapError]
        split_ifs with hmod
        · exact hbad (.inr hmod) _
        · exact hok (not_lt.mp hlarge) (not_not.mp hmod)
      · exact hfail ⟨_, hf⟩
    · rw [show d.find (.idx base) = none from hnone] at hidx
      cases hidx
  · rw [show d.find (.idx base) = none from hnone] at hidx
    cases hidx

/-- A segment file with an index that ends within its header or within the record
that the index names last. -/
def CutShort (c : Codec) (d : Disk FileName) (base : ℕ) : Prop :=
  ∃ i j, d.find (.seg base) = some i ∧ d.find (.idx base) = some j ∧
    (SegmentHeader.parser.parse (d.data i) = none ∨ ∃ pos, (chunks8 (d.data j)).getLast? = some pos ∧
      (recordParser c pos).parse ((d.data i).drop pos) = none)

/-- Loading a segment through its index: an empty index skips it. -/
theorem safe_openClosed_any {base i j : ℕ} (hseg : d.find (.seg base) = some i)
    (hidx : d.find (.idx base) = some j) (dir : String) {st : OpenState}
    {Q : Except StorageError Unit × OpenState → Disk FileName → Prop}
    (hskip : (d.data j).length / 8 = 0 → Q (.ok (), st) d)
    (hok : ∀ cs : ClosedSegment, cs.baseOffset = base → cs.path = .seg base → cs.positions ≠ [] →
      cs.positions.length = (d.data j).length / 8 →
      base + cs.positions.length = cs.lastOffset + 1 → base + cs.positions.length < 2 ^ 64 →
      Q (.ok (), { st with
        closed := st.closed ++ [cs], nextOffset := base + cs.positions.length }) d)
    (herr : ∀ err, Rejects fails err ∨
      CutShort c d base ∧ base + (d.data j).length / 8 < 2 ^ 64 → Q (.error err, st) d) :
    Safe (bare fails) (openClosed c dir base st) Q d := by
  have hfail : ∀ err, (∃ o, fails o) → Q (.error err, st) d :=
    fun err hf => herr err (.inl (.inr hf))
  have hbad : ∀ msg, Q (.error (.corrupted msg), st) d :=
    fun msg => herr _ (.inl (rejects_corrupted msg))
  unfold openClosed
  refine Safe.bindP (Safe.lift (quiet_bare.openRead (fun i' hi' => ?_) (fun hnone => ?_)
    fun hf => hfail _ ⟨_, hf⟩))
  swap
  · rw [show d.find (.seg base) = none from hnone] at hseg
    cases hseg
  obtain rfl : i = i' := Option.some.inj (hseg.symm.trans hi')
  dsimp only
  refine Safe.bindP (safe_readIndex_at hidx dir (fun _ _ => ?_) (fun _ => hbad) fun hf => hfail _ hf)
  dsimp only
  have hlen := length_chunks8 (d.data j)
  cases hlast : (chunks8 (d.data j)).getLast? with
  | none =>
    rw [List.getLast?_eq_none_iff.mp hlast] at hlen
    exact hskip hlen.symm
  | some lastPos =>
    have hne : chunks8 (d.data j) ≠ [] := fun hnil => by
      rw [hnil] at hlast
      cases hlast
    have hpos := List.length_pos_of_ne_nil hne
    dsimp only
    split_ifs with hend
    · exact hbad _
    rw [not_le, hlen] at hend
    have hshort : CutShort c d base → ∀ err, Q (.error err, st) d :=
      fun hcut err => herr err (.inr ⟨hcut, hend⟩)
    refine Safe.bindP (Safe.on (safe_read_at (fun r m q hm => ?_) (fun hnone q => ?_)
      fun hf q => hfail _ hf))
    · cases r with
      | error err => exact herr err (.inl (rejects_headerParser hm))
      | ok hdr =>
        dsimp only [Except.map]
        split_ifs
        · exact hbad _
        refine Safe.bindP (Safe.on (safe_readRecord_at (fun r m hm => ?_) (fun hnone q => ?_)
          fun hf q => hfail _ hf))
        · cases r with
          | error err => exact herr err (.inl (rejects_recordParser hm))
          | ok lastEntry =>
            dsimp only [Except.map]
            split_ifs
            · exact hbad _
            refine Safe.bindP (Safe.mapError (Safe.liftE (quiet_bare.stat (fun i'' _ => ?_)
              (fun hnone => ?_) fun hf => hfail _ ⟨_, hf⟩)))
            · exact hok ⟨base, _, _, _, _, _⟩ rfl rfl hne hlen (by simp; omega)
                (by simpa [hlen] using hend)
            · rw [show d.find (.seg base) = none from hnone] at hseg
              cases hseg
        · exact hshort ⟨i, j, hseg, hidx, .inr ⟨lastPos, hlast, hnone⟩⟩ _
    · exact hshort ⟨i, j, hseg, hidx, .inl hnone⟩ _

def Changes (ino : ℕ) (d d' : Disk FileName) : Prop :=
  d'.dir = d.dir ∧ ∀ j, j ≠ ino → d'.data j = d.data j

theorem Changes.refl (ino : ℕ) (d : Disk FileName) : Changes ino d d := ⟨rfl, fun _ _ => rfl⟩

theorem Changes.trans {ino : ℕ} {d₁ d₂ d₃ : Disk FileName} (h₁ : Changes ino d₁ d₂)
    (h₂ : Changes ino d₂ d₃) : Changes ino d₁ d₃ :=
  ⟨h₂.1.trans h₁.1, fun j hj => (h₂.2 j hj).trans (h₁.2 j hj)⟩

theorem changes_setData (ino : ℕ) (d : Disk FileName) (bytes : List UInt8) :
    Changes ino d (d.setData ino bytes) :=
  ⟨rfl, fun j hj => by simp [hj]⟩

theorem safe_cutAt_at {pos : ℕ} {f : File}
    {Q : Except StorageError Unit × File → Disk FileName → Prop}
    (hok : Q (.ok (), ⟨f.ino, pos⟩) (d.setData f.ino (resize (d.data f.ino) pos)))
    (herr : ∀ err f' d', Rejects fails err → Q (.error err, f') d') :
    Safe (bare fails) (cutAt pos f) Q d := by
  refine Safe.bindP (Safe.mapError (safe_bare fun r d' hs => ?_))
  obtain ⟨rfl, rfl⟩ | ⟨hf, rfl, rfl⟩ := hs
  · exact Safe.mapError (quiet_bare.seek hok fun hf => herr _ _ _ (.of_fails hf _))
  · exact herr _ _ _ (.of_fails hf _)

/-- At each position a record is complete, right or wrong, before the byte `stop`. -/
def Complete (c : Codec) (bytes : List UInt8) (stop : ℕ) (positions : List ℕ) : Prop :=
  stop ≤ bytes.length ∧
    ∀ pos ∈ positions, (recordParser c pos).parse ((bytes.take stop).drop pos) ≠ none

namespace Complete

variable {bytes bytes' : List UInt8} {stop stop' pos : ℕ} {ps qs : List ℕ}

/-- Whatever follows `stop` does not matter. -/
theorem parse_eq (h : Complete c bytes stop ps) (hpos : pos ∈ ps)
    (hfront : bytes'.take stop = bytes.take stop) :
    (recordParser c pos).parse (bytes'.drop pos) = (recordParser c pos).parse (bytes.drop pos) := by
  have hfound := h.2 pos hpos
  cases hparse : (recordParser c pos).parse ((bytes.take stop).drop pos) with
  | none => exact absurd hparse hfound
  | some found =>
    obtain ⟨r, m⟩ := found
    have hle : pos ≤ (bytes.take stop).length := by
      by_contra hgt
      have hnil : (bytes.take stop).drop pos = [] := List.drop_eq_nil_of_le (by omega)
      rw [hnil, parse_short c pos (by simp)] at hparse
      cases hparse
    have hall : ∀ xs : List UInt8, xs.take stop = bytes.take stop →
        (recordParser c pos).parse (xs.drop pos) = some (r, m) := by
      intro xs hxs
      rw [← List.take_append_drop stop xs, hxs, List.drop_append_of_le_length hle]
      exact Parser.parse_append hparse _
    rw [hall bytes' hfront, hall bytes rfl]

theorem parse_ne_none (h : Complete c bytes stop ps) (hpos : pos ∈ ps) :
    (recordParser c pos).parse (bytes.drop pos) ≠ none := by
  have hfront : (bytes.take stop).take stop = bytes.take stop := by
    rw [List.take_take, min_self]
  rw [← h.parse_eq hpos hfront]
  exact h.2 pos hpos

theorem congr (h : Complete c bytes stop ps) (hlen : stop ≤ bytes'.length)
    (hfront : bytes'.take stop = bytes.take stop) : Complete c bytes' stop ps :=
  ⟨hlen, fun pos hpos => by rw [hfront]; exact h.2 pos hpos⟩

theorem append (h : Complete c bytes stop ps) (h' : Complete c bytes stop' qs)
    (hle : stop ≤ stop') : Complete c bytes stop' (ps ++ qs) := by
  refine ⟨h'.1, fun pos hpos => ?_⟩
  rcases List.mem_append.mp hpos with hps | hqs
  · have hfront : (bytes.take stop').take stop = bytes.take stop := by
      rw [List.take_take, min_eq_left hle]
    rw [h.parse_eq hps hfront]
    exact h.parse_ne_none hps
  · exact h'.2 pos hqs

theorem nil (h : stop ≤ bytes.length) : Complete c bytes stop [] := ⟨h, by simp⟩

theorem single {r : Except StorageError LogEntry} {m : ℕ}
    (h : (recordParser c pos).parse (bytes.drop pos) = some (r, m)) (hpos : pos ≤ bytes.length) :
    Complete c bytes (pos + m) [pos] := by
  have hle := Parser.parse_consumed_le h
  rw [List.length_drop] at hle
  refine ⟨by omega, fun q hq => ?_⟩
  obtain rfl := List.mem_singleton.mp hq
  rw [List.drop_take, Nat.add_sub_cancel_left, Parser.parse_take h le_rfl]
  simp

end Complete

section Chains

variable {data : List UInt8} {next pos stop : ℕ} {positions : List ℕ}

theorem RecordChain.complete (h : RecordChain c data next pos positions stop)
    (hpos : pos ≤ data.length) : Complete c data stop positions := by
  induction h with
  | nil => exact .nil hpos
  | cons hp _ hrest ih =>
    have hsingle := Complete.single hp hpos
    exact hsingle.append (ih hsingle.1) hrest.le_stop

theorem recovered_end (h : ChainEnd c data next pos) (fuel : ℕ) :
    recovered c data fuel next pos = 0 := by
  cases fuel with
  | zero => rfl
  | succ fuel =>
    rw [recovered]
    split
    · rw [if_neg (h _ _ ‹_›)]
    · rfl

/-- Recovery counts the records of a chain, and goes on behind it. -/
theorem RecordChain.recovered_eq (h : RecordChain c data next pos positions stop)
    (hstop : stop < 2 ^ 64) (fuel : ℕ) :
    recovered c data (fuel + positions.length) next pos =
      positions.length + recovered c data fuel (next + positions.length) stop := by
  induction h with
  | nil => simp
  | @cons next pos m stop e positions hp hoff hrest ih =>
    have hsize : ofLe ((data.drop pos).take 4) + 8 = m := (parse_ok hp).1.symm
    have hle := hrest.le_stop
    rw [List.length_cons, ← Nat.add_assoc, recovered, hp]
    dsimp only
    rw [if_pos hoff, Nat.add_assoc, hsize, if_pos (by omega), ih hstop, Nat.add_right_comm next,
      Nat.add_assoc next, Nat.add_comm 1, Nat.add_right_comm]

end Chains

theorem safe_openHeader_any {base ino : ℕ} {Q : Except StorageError ℕ × File → Disk FileName → Prop}
    (hok : ∀ created q d', Changes ino d d' →
      (d' = d ∧ headerLen ≤ (d.data ino).length ∨
        (d.data ino).length < headerLen ∧ (d'.data ino).length = headerLen) →
      Q (.ok created, ⟨ino, q⟩) d')
    (herr : ∀ err f' d', Rejects fails err → Q (.error err, f') d') :
    Safe (bare fails) (openHeader base ⟨ino, 0⟩) Q d := by
  unfold openHeader
  refine Safe.bindP (Safe.mapError (quiet_bare.len ?_ fun hf => herr _ _ _ (.of_fails hf _)))
  dsimp only [Except.mapError]
  rw [view_bare]
  by_cases hlen : (d.data ino).length ≥ headerLen
  · rw [if_pos hlen]
    refine Safe.bindP (safe_read_at (fun r m q hm => ?_) (fun hnone q => ?_)
      fun ⟨_, hf⟩ q => herr _ _ _ (.of_fails hf _))
    · cases r with
      | error err => exact herr _ _ _ (rejects_headerParser hm)
      | ok hdr =>
        dsimp only
        split_ifs
        · exact herr _ _ _ (rejects_corrupted _)
        · exact hok _ _ _ (Changes.refl _ _) (Or.inl ⟨rfl, hlen⟩)
    · exact absurd hnone (parse_header_isSome hlen)
  · rw [if_neg hlen]
    refine Safe.bindP (Safe.lift (safe_bare fun ts d' hs => ?_))
    obtain ⟨-, rfl⟩ := hs
    refine Safe.bindP (Safe.mapError (safe_bare fun r d₁ hs => ?_))
    obtain ⟨rfl, rfl⟩ | ⟨hf, rfl, rfl⟩ := hs
    · refine Safe.bindP (Safe.mapError (quiet_bare.seek ?_ fun hf => herr _ _ _ (.of_fails hf _)))
      refine Safe.bindP (Safe.mapError (quiet_bare.writeAll
        (P := fun j w => Changes ino d' w ∧ (w.data ino).length = j) ?_ ?_ ?_ ?_))
      · rintro j k w ⟨hw, hj⟩ hk hkl -
        refine ⟨_, rfl, trivial, hw.trans (changes_setData _ _ _), ?_⟩
        have hlength := length_patch (w.data ino) (0 + j)
          (((SegmentHeader.bytes ⟨base, ts⟩).drop j).take k)
        rw [List.length_take, List.length_drop] at hlength
        simp only [view_bare, Function.update_self]
        omega
      · rintro w ⟨hw, hj⟩
        exact hok _ _ _ hw (Or.inr ⟨by omega, by simpa [headerLen] using hj⟩)
      · intro j w _ _ hf k
        exact herr _ _ _ (.of_fails hf _)
      · exact ⟨changes_setData _ _ _, by simp [resize]⟩
    · exact herr _ _ _ (.of_fails hf _)

theorem recovered_short {data : List UInt8} {fuel next pos : ℕ} (h : data.length ≤ pos) :
    recovered c data fuel next pos = 0 :=
  recovered_end (fun e m hread => by
    rw [List.drop_eq_nil_of_le h, parse_short c pos (by simp)] at hread
    cases hread) fuel

theorem safe_recoverActive_any {base ino p : ℕ}
    {Q : Except StorageError (List ℕ × ℕ × ℕ) × File → Disk FileName → Prop}
    (hheader : headerLen ≤ (d.data ino).length)
    (hok : ∀ positions pos q d', Changes ino d d' →
      ((d.data ino).length ≤ maxFileLen → Complete c (d'.data ino) pos positions) →
      positions.length = recovered c (d.data ino) ((d.data ino).length + 1) base headerLen →
      Q (.ok (positions, pos, positions.length), ⟨ino, q⟩) d')
    (herr : ∀ err f' d', Rejects fails err → Q (.error err, f') d') :
    Safe (bare fails) (recoverActive c base ⟨ino, p⟩) Q d := by
  refine Safe.bindP (Safe.mapError (quiet_bare.len ?_ fun hf => herr _ _ _ (.of_fails hf _)))
  -- Behind a chain the rest of the rounds finds nothing more.
  have hcount : ∀ {more stop}, RecordChain c (d.data ino) base headerLen more stop →
      stop < 2 ^ 64 → ∃ fuel, recovered c (d.data ino) ((d.data ino).length + 1) base headerLen =
        more.length + recovered c (d.data ino) (fuel + 1) (base + more.length) stop := by
    intro more stop hmore hlt
    have hlen := hmore.length_le
    have hle := hmore.le_length hheader
    refine ⟨(d.data ino).length - more.length, ?_⟩
    rw [← hmore.recovered_eq hlt]
    congr 1
    omega
  have hkept : ∀ positions stop q, stop ≤ (d.data ino).length →
      ((d.data ino).length ≤ maxFileLen → Complete c (d.data ino) stop positions) →
      positions.length = recovered c (d.data ino) ((d.data ino).length + 1) base headerLen →
      Q (.ok (positions, stop, positions.length), ⟨ino, q⟩)
        (d.setData ino (resize (d.data ino) stop)) := by
    intro positions stop q hstop hcomp hlen
    refine hok _ _ _ _ (changes_setData _ _ _) (fun hsmall => ?_) hlen
    rw [Disk.data_setData, if_pos rfl, resize_le hstop]
    exact (hcomp hsmall).congr (by simp [hstop]) (by rw [List.take_take, min_self])
  refine Safe.bindP (quiet_recoverLoop quiet_bare (d.data ino) rfl (Nat.add_zero base) hheader
    (Nat.lt_add_left _ (Nat.lt_succ_self _)) (by decide) (fun more q hmore hlt => ?_)
    (fun more stop hmore hend hlt q => ?_)
    (fun more stop e m _ _ _ msg q => herr _ _ _ (rejects_corrupted _))
    (fun more stop e m hmore hread hoff hlt hwide q => ?_)
    fun ⟨_, hf⟩ k q => herr _ _ _ (.of_fails hf _))
  · obtain ⟨fuel, hfuel⟩ := hcount hmore hlt
    rw [recovered_end (chainEnd_length _), Nat.add_zero] at hfuel
    exact hok _ _ _ _ (Changes.refl _ _) (fun _ => hmore.complete hheader) hfuel.symm
  · obtain ⟨fuel, hfuel⟩ := hcount hmore hlt
    rw [recovered_end hend, Nat.add_zero] at hfuel
    exact Safe.bindP (safe_cutAt_at (hkept _ _ _ (hmore.le_length hheader)
      (fun _ => hmore.complete hheader) hfuel.symm) herr)
  · obtain ⟨fuel, hfuel⟩ := hcount hmore hlt
    have hstop : stop ≤ (d.data ino).length := hmore.le_length hheader
    have hsize : ofLe (((d.data ino).drop stop).take 4) + 8 = m := (parse_ok hread).1.symm
    refine Safe.bindP (safe_cutAt_at (hkept _ _ _ hstop (fun hsmall => ?_) ?_) herr)
    · -- A file of this size cannot be addressed.
      have hfit := Parser.parse_consumed_le hread
      rw [List.length_drop] at hfit
      unfold maxFileLen at hsmall
      omega
    · rw [hfuel, recovered, hread]
      dsimp only
      rw [if_pos hoff, Nat.add_assoc stop, hsize, if_neg (Nat.not_lt.mpr hwide)]
      simp

theorem safe_recoverFile_any {base ino : ℕ}
    {Q : Except StorageError (ℕ × List ℕ × ℕ × ℕ × ℕ) × File → Disk FileName → Prop}
    (hok : ∀ created positions pos last q d', Changes ino d d' →
      ((d.data ino).length ≤ maxFileLen → Complete c (d'.data ino) pos positions) →
      positions.length = recovered c (d.data ino) ((d.data ino).length + 1) base headerLen →
      Q (.ok (created, positions, pos, positions.length, last), ⟨ino, q⟩) d')
    (herr : ∀ err f' d', ((d.data ino).length ≤ maxFileLen → Rejects fails err) →
      Q (.error err, f') d') :
    Safe (bare fails) (recoverFile c base ⟨ino, 0⟩) Q d := by
  unfold recoverFile
  refine Safe.bindP (safe_openHeader_any (fun created q d₁ hd₁ hheader => ?_)
    fun _ _ _ h => herr _ _ _ fun _ => h)
  have hcount : recovered c (d₁.data ino) ((d₁.data ino).length + 1) base headerLen =
      recovered c (d.data ino) ((d.data ino).length + 1) base headerLen := by
    obtain ⟨rfl, -⟩ | ⟨hlt, hle⟩ := hheader
    · rfl
    · rw [recovered_short hle.le, recovered_short (by omega)]
  have hlen₁ : headerLen ≤ (d₁.data ino).length ∧
      ((d.data ino).length ≤ maxFileLen → (d₁.data ino).length ≤ maxFileLen) := by
    obtain ⟨rfl, hle⟩ | ⟨-, hlen⟩ := hheader
    · exact ⟨hle, id⟩
    · rw [hlen]
      exact ⟨le_rfl, fun _ => by decide⟩
  refine Safe.bindP (safe_recoverActive_any hlen₁.1 (fun positions pos q d₂ hd₂ hcomp hlen => ?_)
    fun _ _ _ h => herr _ _ _ fun _ => h)
  rw [hcount] at hlen
  have hd := hd₁.trans hd₂
  have hcomp := fun hsmall => hcomp (hlen₁.2 hsmall)
  dsimp only
  cases hlast : positions.getLast? with
  | none => exact hok _ _ _ _ _ _ hd hcomp hlen
  | some lastPos =>
    refine Safe.bindP (safe_readRecord_at (fun r m hm => ?_) (fun hnone q => ?_)
      fun ⟨_, hf⟩ q => herr _ _ _ fun _ => .of_fails hf _)
    · cases r with
      | error err => exact herr _ _ _ fun _ => rejects_recordParser hm
      | ok entry => exact hok _ _ _ _ _ _ hd hcomp hlen
    · exact herr _ _ _ fun hsmall =>
        absurd hnone ((hcomp hsmall).parse_ne_none (List.mem_of_getLast? hlast))

end Files

/-- What has been loaded after the segments `ps`. -/
structure Collected (st : OpenState) (ps : List Part) : Prop where
  closed : st.closed.map (fun cs => (cs.baseOffset, cs.lastOffset + 1)) =
    (ps.filter Part.indexed).map Part.range
  active : (st.active.map fun a => (a.baseOffset, a.baseOffset + a.positions.length)).toList =
    (ps.filter fun p => !p.indexed).map Part.range
  next : ∀ p, ps.getLast? = some p → st.nextOffset = p.base + p.count
  sized : Sized st.closed

theorem Collected.addClosed {st : OpenState} {ps : List Part} (h : Collected st ps) {p : Part}
    (hp : p.indexed = true) {cs : ClosedSegment} (hbase : cs.baseOffset = p.base)
    (hne : cs.positions ≠ []) (hcount : cs.positions.length = p.count)
    (hlast : p.base + cs.positions.length = cs.lastOffset + 1) :
    Collected { st with
      closed := st.closed ++ [cs], nextOffset := p.base + cs.positions.length } (keep ps p) := by
  have hpos := List.length_pos_of_ne_nil hne
  have hkeep : keep ps p = ps ++ [p] := by
    rw [keep, if_pos hp, if_neg (by omega)]
  rw [hkeep]
  constructor
  · simp [h.closed, hp, Part.range, hbase, ← hlast, hcount]
  · simp [h.active, hp]
  · intro q hq
    obtain rfl : p = q := by simpa using hq
    rw [hcount]
  · intro cs' hmem
    rcases List.mem_append.mp hmem with hold | hnew
    · exact h.sized cs' hold
    · obtain rfl := List.mem_singleton.mp hnew
      exact ⟨hne, by rw [hbase, hlast]⟩

theorem Collected.addActive {st : OpenState} {ps : List Part} (h : Collected st ps) {p : Part}
    (hp : p.indexed = false) {a : ActiveSegment} (hbase : a.baseOffset = p.base)
    (hcount : a.positions.length = p.count) :
    Collected { st with nextOffset := p.base + p.count, active := some a } (keep ps p) := by
  have hkeep : keep ps p = ps.filter Part.indexed ++ [p] := by simp [keep, hp]
  rw [hkeep]
  constructor
  · simp [h.closed, hp]
  · simp [hp, Part.range, hbase, hcount]
  · intro q hq
    obtain rfl : p = q := by simpa using hq
    rfl
  · exact h.sized

/-- The files of these segments are as they were. -/
def Intact (d d' : Disk FileName) (bases : List ℕ) : Prop :=
  ∀ base ∈ bases, ∀ x ∈ [FileName.seg base, .idx base],
    d'.find x = d.find x ∧ ∀ i, d.find x = some i → d'.data i = d.data i

theorem Intact.partOf {d d' : Disk FileName} {bases : List ℕ} (h : Intact d d' bases) {base : ℕ}
    (hb : base ∈ bases) : partOf c d' base = partOf c d base := by
  obtain ⟨hseg, hsegData⟩ := h base hb (.seg base) (by simp)
  obtain ⟨hidx, hidxData⟩ := h base hb (.idx base) (by simp)
  unfold SegmentLog.partOf
  rw [hseg, hidx]
  cases hi : d.find (.idx base) with
  | some j => simp [hidxData j hi]
  | none =>
    cases hs : d.find (.seg base) with
    | some i => simp [hsegData i hs]
    | none => rfl

def Unshared (d : Disk FileName) : Prop :=
  ∀ x y i, d.find x = some i → d.find y = some i → x = y

theorem Intact.changes {d₀ d d' : Disk FileName} {bases : List ℕ} (h : Intact d₀ d bases)
    (hown : Unshared d₀) {base i : ℕ} (hi : d₀.find (.seg base) = some i) (hb : base ∉ bases)
    (hd : Changes i d d') : Intact d₀ d' bases := by
  intro b hmem x hx
  obtain ⟨hfind, hdata⟩ := h b hmem x hx
  refine ⟨(congrArg (AList.lookup x) hd.1).trans hfind, fun j hj => ?_⟩
  rw [← hdata j hj]
  refine hd.2 j ?_
  rintro rfl
  obtain rfl := hown _ _ _ hi hj
  simp only [List.mem_cons, FileName.seg.injEq, reduceCtorEq, List.not_mem_nil, or_false] at hx
  exact hb (hx ▸ hmem)

theorem Intact.unlink {d₀ d : Disk FileName} {bases : List ℕ} (h : Intact d₀ d bases) {base : ℕ}
    (hb : base ∉ bases) : Intact d₀ (d.unlink (.seg base)) bases := by
  intro b hmem x hx
  obtain ⟨hfind, hdata⟩ := h b hmem x hx
  refine ⟨?_, hdata⟩
  rw [Disk.find_unlink, if_neg, hfind]
  rintro rfl
  simp only [List.mem_cons, FileName.seg.injEq, reduceCtorEq, List.not_mem_nil, or_false] at hx
  exact hb (hx ▸ hmem)

section Opened

variable {fails : Op FileName → Prop} {d₀ d : Disk FileName} {bases : List ℕ} {st : OpenState}
  {Q : Except StorageError Unit × OpenState → Disk FileName → Prop}

theorem safe_discardOrphan_any
    (hok : ∀ d', (d' = d ∨ ∃ a, st.active = some a ∧ d' = d.unlink a.path) →
      Q (.ok (), { st with active := none }) d')
    (herr : ∀ err st' d', Rejects fails err → Q (.error err, st') d') :
    Safe (bare fails) (discardOrphan st) Q d := by
  refine Safe.getP ?_
  cases ha : st.active with
  | none =>
    have hst : st = { st with active := none } := by rw [← ha]
    rw [hst]
    exact hok d (Or.inl rfl)
  | some prev =>
    refine Safe.modifyP ?_
    split_ifs
    · exact herr _ _ _ (rejects_corrupted _)
    · refine Safe.bindP (Safe.lift (safe_bare fun r d' hs => ?_))
      obtain hs | ⟨-, rfl, rfl⟩ := hs
      · cases hfind : d.find prev.path with
        | some i =>
          rw [hfind] at hs
          obtain ⟨rfl, rfl⟩ := hs
          exact hok _ (Or.inr ⟨prev, ha, rfl⟩)
        | none =>
          rw [hfind] at hs
          obtain ⟨rfl, rfl⟩ := hs
          exact hok _ (Or.inl rfl)
      · exact hok _ (Or.inl rfl)

/-- The active segment has its file, and its records are complete there. -/
structure Owns (c : Codec) (d : Disk FileName) (a : ActiveSegment) : Prop where
  path : a.path = .seg a.baseOffset
  file : d.find (.seg a.baseOffset) = some a.file.ino
  complete : Complete c (d.data a.file.ino) a.nextFilePos a.positions

/-- Loading a segment without an index: it becomes the active one. -/
theorem safe_openActive_any {base i : ℕ} (hseg : d.find (.seg base) = some i)
    (hother : ∀ a, st.active = some a → ∃ b, a.path = .seg b ∧ b ≠ base)
    (hok : ∀ a d₁ d', (d₁ = d ∨ ∃ prev, st.active = some prev ∧ d₁ = d.unlink prev.path) →
      Changes i d₁ d' → a.baseOffset = base → a.path = .seg base →
      ((d.data i).length ≤ maxFileLen → Owns c d' a) →
      a.positions.length = recovered c (d.data i) ((d.data i).length + 1) base headerLen →
      base + a.positions.length < 2 ^ 64 →
      Q (.ok (), { st with nextOffset := base + a.positions.length, active := some a }) d')
    (herr : ∀ err st' d', ((d.data i).length ≤ maxFileLen → Rejects fails err) →
      Q (.error err, st') d') :
    Safe (bare fails) (openActive c base st) Q d := by
  unfold openActive
  refine Safe.bindP (safe_discardOrphan_any (fun d₁ hd₁ => ?_)
    fun err st' d' h => herr err st' d' fun _ => h)
  have hkeep : d₁.find (.seg base) = some i ∧ d₁.data = d.data := by
    obtain rfl | ⟨prev, hprev, rfl⟩ := hd₁
    · exact ⟨hseg, rfl⟩
    · obtain ⟨b, hb, hne⟩ := hother prev hprev
      rw [hb, Disk.find_unlink, if_neg (by simp [Ne.symm hne])]
      exact ⟨hseg, rfl⟩
  refine Safe.bindP (Safe.mapError (Safe.liftE (safe_bare fun r d' hs => ?_)))
  obtain hs | ⟨hf, rfl, rfl⟩ := hs
  · rw [hkeep.1] at hs
    obtain ⟨rfl, rfl⟩ := hs
    refine Safe.bindP (Safe.on (safe_recoverFile_any
      (fun created positions pos last q d₂ hd₂ hcomp hlen => ?_) fun err _ d' h => ?_))
    · dsimp only [Except.map]
      rw [hkeep.2] at hlen hcomp
      split_ifs with hend
      · exact herr _ _ _ fun _ => rejects_corrupted _
      · have hfind : d₂.find (.seg base) = some i := (congrArg (AList.lookup _) hd₂.1).trans hkeep.1
        exact hok ⟨base, .seg base, _, positions, _, created, pos, last⟩ _ d₂ hd₁ hd₂ rfl rfl
          (fun hsmall => ⟨rfl, hfind, hcomp hsmall⟩) hlen (not_le.mp hend)
    · rw [hkeep.2] at h
      exact herr err _ d' h
  · exact herr _ _ _ fun _ => .of_fails hf _

theorem safe_openSegments_any (hown : Unshared d₀) (dir : String) {ps : List Part}
    (hnodup : bases.Nodup) (hsegs : ∀ b ∈ bases, (d₀.find (.seg b)).isSome = true)
    (hin : Intact d₀ d bases) (hc : Collected st ps)
    (hpath : ∀ a, st.active = some a → ∃ b, a.path = .seg b ∧ b ∉ bases) :
    Safe (bare fails) (openSegments c dir bases st) (fun x _ => ∀ u, x.1 = .ok u →
      Collected x.2 ((bases.map (partOf c d₀)).foldl keep ps)) d := by
  induction bases generalizing d st ps with
  | nil => exact fun _ _ => hc
  | cons base rest ih =>
    obtain ⟨hbase, hnodup⟩ := List.nodup_cons.mp hnodup
    obtain ⟨i, hi⟩ := Option.isSome_iff_exists.mp (hsegs base List.mem_cons_self)
    obtain ⟨hseg, hsegData⟩ := hin base List.mem_cons_self (.seg base) (by simp)
    have hpart := hin.partOf (c := c) List.mem_cons_self
    have hrest : Intact d₀ d rest := fun b hb => hin b (List.mem_cons_of_mem _ hb)
    have ih := fun {d st ps} => @ih d st ps hnodup fun b hb => hsegs b (List.mem_cons_of_mem _ hb)
    rw [hi] at hseg
    rw [openSegments]
    refine Safe.bindP (Safe.bindP (Safe.lift (quiet_bare.stat (fun j hj => ?_) (fun hnone => ?_)
      fun _ => by simp [Safe])))
    · have hj : d.find (.idx base) = some j := hj
      have hindexed : (partOf c d base).indexed = true := by simp [partOf, hj]
      have hcount : (partOf c d base).count = (d.data j).length / 8 := by simp [partOf, hj]
      refine Safe.bindP (safe_openClosed_any hseg hj dir (fun hzero => ?_)
        (fun cs hcs _ hne hlen hlast _ => ?_) fun err _ => by simp)
      · refine (ih hrest ?_ fun a ha => ?_).mono fun x _ hx => hx
        · rw [← hpart, keep, if_pos hindexed, if_pos (by omega)]
          exact hc
        · obtain ⟨b, hb, hnot⟩ := hpath a ha
          exact ⟨b, hb, fun hmem => hnot (List.mem_cons_of_mem _ hmem)⟩
      · refine (ih hrest ?_ fun a ha => ?_).mono fun x _ hx => hx
        · rw [← hpart]
          exact hc.addClosed hindexed hcs hne (by omega) hlast
        · obtain ⟨b, hb, hnot⟩ := hpath a ha
          exact ⟨b, hb, fun hmem => hnot (List.mem_cons_of_mem _ hmem)⟩
    · have hnone : d.find (.idx base) = none := hnone
      have hindexed : (partOf c d base).indexed = false := by simp [partOf, hnone]
      have hcount : (partOf c d base).count =
          recovered c (d.data i) ((d.data i).length + 1) base headerLen := by
        simp [partOf, hnone, hseg]
      refine Safe.bindP (safe_openActive_any hseg (fun a ha => ?_)
        (fun a d₁ d₂ hd₁ hd₂ habase hapath _ hlen _ => ?_) fun err st' d' _ => by simp)
      · obtain ⟨b, hb, hnot⟩ := hpath a ha
        exact ⟨b, hb, fun hbb => hnot (hbb ▸ List.mem_cons_self)⟩
      · refine (ih ?_ ?_ fun a' ha' => ?_).mono fun x _ hx => hx
        · have hin₁ : Intact d₀ d₁ rest := by
            obtain rfl | ⟨prev, hprev, rfl⟩ := hd₁
            · exact hrest
            · obtain ⟨b, hb, hnot⟩ := hpath prev hprev
              rw [hb]
              exact hrest.unlink fun hmem => hnot (List.mem_cons_of_mem _ hmem)
          exact hin₁.changes hown hi hbase hd₂
        · rw [← hpart, hlen, ← hcount]
          exact hc.addActive hindexed habase (by rw [hlen, hcount])
        · obtain rfl := Option.some.inj ha'
          exact ⟨base, hapath, hbase⟩

end Opened

theorem keep_sublist (ps : List Part) (p : Part) : (keep ps p).Sublist (ps ++ [p]) := by
  unfold keep
  split_ifs
  · exact List.sublist_append_left ps [p]
  · exact List.Sublist.refl _
  · exact List.filter_sublist.append_right [p]

theorem foldl_keep_sublist (qs ps : List Part) : (qs.foldl keep ps).Sublist (ps ++ qs) := by
  induction qs generalizing ps with
  | nil => simp
  | cons q qs ih =>
    have hq := (ih (keep ps q)).trans ((keep_sublist ps q).append_right qs)
    simpa using hq

theorem sorted_parts (c : Codec) (d : Disk FileName) :
    (parts c d).Pairwise fun p q => p.base < q.base := by
  have hle := List.pairwise_mergeSort' (· ≤ ·) (d.dir.keys.filterMap FileName.segBase?)
  have hne : ((d.dir.keys.filterMap FileName.segBase?).mergeSort (· ≤ ·)).Nodup :=
    (List.mergeSort_perm _ _).nodup_iff.mpr (nodup_segBases d)
  rw [parts, List.pairwise_map]
  exact hle.imp₂ (fun a b hab hne => lt_of_le_of_ne hab hne) hne

theorem sorted_kept (c : Codec) (d : Disk FileName) :
    (kept (parts c d)).Pairwise fun p q => p.base < q.base :=
  (sorted_parts c d).sublist (by simpa [kept] using foldl_keep_sublist (parts c d) [])

/-- Segments in a row cover their offsets exactly if each one ends where the
next one begins. -/
theorem covers_iff (p : Part) (ps : List Part) (e : ℕ) :
    (∃ s, Covers s ((p :: ps).map Part.range) e) ↔
      (p :: ps).IsChain (fun p q => p.base + p.count = q.base) ∧
        ∀ q, (p :: ps).getLast? = some q → e = q.base + q.count := by
  induction ps generalizing p with
  | nil =>
    constructor
    · rintro ⟨s, hbase, hle, hend⟩
      refine ⟨.singleton p, fun q hq => ?_⟩
      obtain rfl : p = q := by simpa using hq
      exact hend.symm
    · rintro ⟨-, hend⟩
      exact ⟨p.base, rfl, Nat.le_add_right _ _, (hend p rfl).symm⟩
  | cons q ps ih =>
    rw [List.isChain_cons_cons, List.getLast?_cons_cons, and_assoc, ← ih q]
    constructor
    · rintro ⟨s, hbase, hle, hrest⟩
      exact ⟨hrest.1.symm, _, hrest⟩
    · rintro ⟨hstep, s, hrest⟩
      have hs : q.base = s := hrest.1
      refine ⟨p.base, rfl, Nat.le_add_right _ _, ?_⟩
      rw [hstep, hs]
      exact hrest

theorem Covers.fst_le {s e : ℕ} {xs : List (ℕ × ℕ)} (h : Covers s xs e) {x : ℕ × ℕ}
    (hx : x ∈ xs) : x.1 ≤ e := by
  induction xs generalizing s with
  | nil => cases hx
  | cons y ys ih =>
    have hend : y.2 ≤ e := h.2.2.le
    have hle : y.1 ≤ y.2 := h.2.1
    rcases List.mem_cons.mp hx with rfl | hx
    · omega
    · exact ih h.2.2 hx

theorem isChain_iff (p : Part) (ps : List Part) :
    (p :: ps).IsChain (fun p q => p.indexed = true ∧ p.base + p.count = q.base) ↔
      (∀ q ∈ (p :: ps).dropLast, q.indexed = true) ∧
        (p :: ps).IsChain fun p q => p.base + p.count = q.base := by
  induction ps generalizing p with
  | nil => simp
  | cons q ps ih =>
    rw [List.isChain_cons_cons, List.isChain_cons_cons, ih q, List.dropLast_cons_cons,
      List.forall_mem_cons]
    tauto

/-- What has been loaded is in order exactly if the segments form a chain. -/
theorem Collected.inOrder_iff {st : OpenState} {p : Part} {ps : List Part}
    (h : Collected st (p :: ps)) (hsorted : (p :: ps).Pairwise fun p q => p.base < q.base) {l : Log}
    (hclosed : l.closed = st.closed) (hactive : l.active = st.active)
    (hnext : l.nextOffset = st.nextOffset) :
    InOrder l ↔
      (p :: ps).IsChain fun p q => p.indexed = true ∧ p.base + p.count = q.base := by
  have hlast := (p :: ps).dropLast_append_getLast (List.cons_ne_nil p ps)
  generalize hfront : (p :: ps).dropLast = front at hlast
  generalize hz : (p :: ps).getLast (List.cons_ne_nil p ps) = z at hlast
  have hranges : l.ranges = ((p :: ps).filter Part.indexed).map Part.range ++
      ((p :: ps).filter fun p => !p.indexed).map Part.range := by
    rw [Log.ranges, hclosed, hactive, h.closed, h.active]
  have hend : ∀ q, (p :: ps).getLast? = some q → l.nextOffset = q.base + q.count := by
    intro q hq
    rw [hnext, h.next q hq]
  have hall : (∀ q ∈ front, q.indexed = true) → l.ranges = (p :: ps).map Part.range := by
    intro hfr
    have hfilter : front.filter Part.indexed = front := List.filter_eq_self.mpr hfr
    have hnone : (front.filter fun p => !p.indexed) = [] := by
      rw [List.filter_eq_nil_iff]
      intro q hq
      simp [hfr q hq]
    rw [hranges, ← hlast, List.filter_append, List.filter_append, hfilter, hnone]
    cases hzi : z.indexed <;> simp [hzi]
  rw [isChain_iff, hfront]
  constructor
  · rintro ⟨s, hcov⟩
    have hfr : ∀ q ∈ front, q.indexed = true := by
      intro q hq
      by_contra hidx
      have hlt : q.base < z.base := by
        rw [← hlast, List.pairwise_append] at hsorted
        exact hsorted.2.2 q hq z (List.mem_singleton_self z)
      -- An unindexed segment below the last one is the active one.
      have hmem : q.range ∈ ((p :: ps).filter fun p => !p.indexed).map Part.range :=
        List.mem_map_of_mem (List.mem_filter.mpr ⟨by simp [← hlast, hq], by simp [hidx]⟩)
      have hone : ((p :: ps).filter fun p => !p.indexed).map Part.range = [q.range] := by
        rw [← h.active] at hmem ⊢
        rw [Option.mem_toList] at hmem
        rw [hmem]
        rfl
      rw [hranges, hone] at hcov
      obtain ⟨mid, hold, hnew⟩ := hcov.split
      have hmid : q.base = mid := hnew.1
      cases hzi : z.indexed with
      | true =>
        have hle := hold.fst_le (x := z.range) (List.mem_map_of_mem (List.mem_filter.mpr
          ⟨by simp [← hlast], hzi⟩))
        have hbase : z.range.1 = z.base := rfl
        omega
      | false =>
        have hz' : z.range ∈ [q.range] := by
          rw [← hone]
          exact List.mem_map_of_mem (List.mem_filter.mpr ⟨by simp [← hlast], by simp [hzi]⟩)
        have hbase : z.base = q.base := congrArg Prod.fst (List.mem_singleton.mp hz')
        omega
    rw [hall hfr] at hcov
    exact ⟨hfr, ((covers_iff p ps l.nextOffset).mp ⟨s, hcov⟩).1⟩
  · rintro ⟨hfr, hchain⟩
    rw [InOrder, hall hfr]
    exact (covers_iff p ps l.nextOffset).mpr ⟨hchain, hend⟩

theorem inOrder_empty {l : Log} (hclosed : l.closed = []) (hactive : l.active = none) :
    InOrder l := by
  refine ⟨l.nextOffset, ?_⟩
  rw [Log.ranges, hclosed, hactive]
  rfl

theorem Collected.nil_iff {st : OpenState} {ps : List Part} (h : Collected st ps) :
    st.closed = [] ∧ st.active = none ↔ ps = [] := by
  have hclosed := h.closed
  have hactive := h.active
  constructor
  · rintro ⟨hc, ha⟩
    rw [hc] at hclosed
    rw [ha] at hactive
    have hindexed := List.filter_eq_nil_iff.mp (List.map_eq_nil_iff.mp hclosed.symm)
    have hothers := List.filter_eq_nil_iff.mp (List.map_eq_nil_iff.mp hactive.symm)
    refine List.eq_nil_iff_forall_not_mem.mpr fun p hp => ?_
    exact hothers p hp (by simpa using hindexed p hp)
  · rintro rfl
    refine ⟨List.map_eq_nil_iff.mp hclosed, ?_⟩
    cases ha : st.active with
    | none => rfl
    | some a =>
      rw [ha] at hactive
      cases hactive

/-- Opening loads the segments in the order of their bases; the watermark counts
only where there is none. -/
theorem safe_openDir_of {fails : Op FileName → Prop} {d : Disk FileName}
    {config : SegmentLogConfig}
    {Q : Except StorageError Log → Disk FileName → Prop}
    (herr : ∀ err d', (∃ o, fails o) → Q (.error err) d')
    (hload : Safe (bare fails) (openSegments c config.dir
      ((d.dir.keys.filterMap FileName.segBase?).mergeSort (· ≤ ·)) ⟨[], none, 0⟩) (fun x d' =>
        (∀ err, x.1 = .error err → Q (.error err) d') ∧ ∀ u, x.1 = .ok u → ∀ n,
          (n = x.2.nextOffset ∨ n < 2 ^ 64 ∧ x.2.closed = [] ∧ x.2.active = none) →
          Q (.ok ⟨config, x.2.closed, x.2.active, n, false⟩) d') d) :
    Safe (bare fails) (openDir c config) Q d := by
  unfold openDir
  refine Safe.bind ?_
  unfold openLog
  refine Safe.bindP (Safe.mapError (Safe.liftE (safe_bare fun r d' hs => ?_)))
  obtain ⟨rfl, rfl | ⟨hf, rfl⟩⟩ := hs
  swap
  · exact herr _ _ ⟨_, hf⟩
  refine Safe.bindP (Safe.mapError (Safe.liftE (safe_bare fun r d' hs => ?_)))
  obtain ⟨rfl, ⟨slots, rfl, hperm, hfresh⟩ | ⟨hf, rfl⟩⟩ := hs
  swap
  · exact herr _ _ ⟨_, hf⟩
  refine Safe.bindP (safe_scanDir quiet_bare (fun x hx => ?_) hfresh ?_
    fun _ hf => herr _ _ ⟨_, hf⟩)
  · refine (d'.mem_keys x).mp (hperm.mem_iff.mp ?_)
    exact List.mem_filterMap.mpr ⟨_, hx, rfl⟩
  dsimp only
  have hsort : ((knownNames slots).filterMap FileName.segBase?).mergeSort (· ≤ ·) =
      (d'.dir.keys.filterMap FileName.segBase?).mergeSort (· ≤ ·) :=
    List.Perm.eq_of_pairwise' (List.pairwise_mergeSort' (· ≤ ·) _)
      (List.pairwise_mergeSort' (· ≤ ·) _) ((List.mergeSort_perm _ _).trans
        ((hperm.filterMap _).trans (List.mergeSort_perm _ _).symm))
  rw [hsort]
  refine Safe.bindP (hload.mono ?_)
  rintro ⟨r, st⟩ w ⟨hfailed, hloaded⟩
  cases r with
  | error err => exact hfailed err rfl
  | ok u =>
    have hloaded := hloaded u rfl
    refine Safe.getP ?_
    by_cases hempty : st.nextOffset = 0 ∧ st.closed = [] ∧ st.active = none
    · rw [if_pos hempty]
      refine Safe.bindP (bare_readWatermark (fun mark hmark => ?_) fun err hf => herr _ _ hf)
      cases mark with
      | some wm => exact hloaded wm (.inr ⟨hmark wm rfl, hempty.2⟩)
      | none => exact hloaded _ (.inl rfl)
    · rw [if_neg hempty]
      exact hloaded _ (.inl rfl)

/-- What `open` makes of a directory. -/
theorem safe_openDir_any {fails : Op FileName → Prop} {d : Disk FileName} (hown : Unshared d)
    (config : SegmentLogConfig) :
    Safe (bare fails) (openDir c config) (fun r _ => ∀ l, r = .ok l →
      Sized l.closed ∧ (InOrder l ↔ Chains c d)) d := by
  have hbases := List.mergeSort_perm (d.dir.keys.filterMap FileName.segBase?) (· ≤ ·)
  have hnone : Collected ⟨[], none, 0⟩ [] := ⟨rfl, rfl, by simp, by simp [Sized]⟩
  refine safe_openDir_of (by simp) ((safe_openSegments_any hown config.dir
    (hbases.nodup_iff.mpr (nodup_segBases d)) (fun b hb => ?_)
    (fun _ _ _ _ => ⟨rfl, fun _ _ => rfl⟩) hnone (by simp)).mono ?_)
  · exact (mem_segBases d b).mp (hbases.mem_iff.mp hb)
  rintro ⟨r, st⟩ w hst
  refine ⟨fun _ _ l hl => (by cases hl), ?_⟩
  intro u hr n hn l hl
  obtain rfl := Except.ok.inj hl
  have hc : Collected st (kept (parts c d)) := hst u hr
  refine ⟨hc.sized, ?_⟩
  have hsorted := sorted_kept c d
  unfold Chains
  cases hkept : kept (parts c d) with
  | nil =>
    obtain ⟨hclosed, hactive⟩ := hc.nil_iff.mpr hkept
    exact iff_of_true (inOrder_empty hclosed hactive) .nil
  | cons p ps =>
    have hsome : ¬ (st.closed = [] ∧ st.active = none) := fun hempty => by
      cases hkept.symm.trans (hc.nil_iff.mp hempty)
    rw [hkept] at hc hsorted
    exact hc.inOrder_iff hsorted rfl rfl (hn.resolve_right fun h => hsome h.2)

/-- What a loaded log owes its users: segments in order, range reads without a
gap, and a batch that commits stands at the places its offsets say. -/
structure Orderly (c : Codec) (l : Log) : Prop where
  order : InOrder l
  reads : ∀ fails d d' start stop es l',
    Finishes (Step fails) d (readRange c start stop l) d' (.ok es, l') →
      es.map LogEntry.offset = List.range' start es.length
  appends : ∀ fails d d' producerId events l',
    Finishes (Step fails) d (appendCommit c producerId events l) d' (.ok (), l') →
      l'.nextOffset = l.nextOffset + events.length ∧
        ∃ a, l'.active = some a ∧ a.baseOffset + a.positions.length = l'.nextOffset

theorem InOrder.ends {l : Log} (h : InOrder l) : Ends l := by
  obtain ⟨start, hcov⟩ := h
  intro a ha
  rw [Log.ranges, ha] at hcov
  obtain ⟨mid, -, hactive⟩ := hcov.split
  exact hactive.2.2

theorem InOrder.orderly {l : Log} (h : InOrder l) (hsized : Sized l.closed) : Orderly c l := by
  constructor
  · exact h
  · intro fails d d' start stop es l' hx
    exact (h.says_readRange hsized start stop).finishes hx es rfl
  · intro fails d d' producerId events l' hx
    obtain ⟨hends, hsome, hnext⟩ := (h.ends.says_appendCommit producerId events).finishes hx () rfl
    obtain ⟨a, ha⟩ := Option.isSome_iff_exists.mp hsome
    exact ⟨hnext, a, ha, hends a ha⟩

/-- A directory opens to an orderly log exactly if its segments form a chain. -/
theorem open_orderly_iff {fails : Op FileName → Prop} {d d' : Disk FileName} (hown : Unshared d)
    {config : SegmentLogConfig} {l : Log}
    (hopen : Finishes (Step fails) d (openDir c config) d' (.ok l)) :
    Orderly c l ↔ Chains c d := by
  obtain ⟨hsized, hiff⟩ := finishes_bare hopen (safe_openDir_any hown config) l rfl
  constructor
  · intro h
    exact hiff.mp h.order
  · intro h
    exact (hiff.mpr h).orderly hsized

def oneRecord (base : ℕ) : List UInt8 :=
  SegmentHeader.bytes ⟨base, 0⟩ ++ recordBytes sampleCodec ⟨base, 0, "p", sampleHealth⟩ ++ sentinel

/-- The directory of two closed segments with one entry each. -/
def twoSegments (base : ℕ) : Disk FileName where
  dir := ((((∅ : AList fun _ : FileName => ℕ).insert (.idx base) 3).insert (.seg base) 2).insert
    (.idx 0) 1).insert (.seg 0) 0
  data i := match i with
    | 0 => oneRecord 0
    | 1 | 3 => indexBytes [headerLen]
    | 2 => oneRecord base
    | _ => []
  next := 4

def twoClosed (base : ℕ) : Log :=
  ⟨{}, [⟨0, 0, 0, (oneRecord 0).length, .seg 0, [headerLen]⟩,
    ⟨base, base, 0, (oneRecord base).length, .seg base, [headerLen]⟩], none, base + 1, false⟩

theorem simulate_twoSegments {base : ℕ} (h : base = 1 ∨ base = 5) :
    ((simulate 0 (openDir sampleCodec {}) [] (twoSegments base)).map fun x =>
      (x.2, (simulate 0 (readRange sampleCodec 0 none (twoClosed base)) [] x.1).map fun y =>
        y.2.1.map (List.map LogEntry.offset))) =
      some (.ok (twoClosed base), some (.ok [0, base])) := by
  unfold openDir openLog
  simp only [List.mergeSort_eq_insertionSort]
  rcases h with rfl | rfl <;> decide +kernel

theorem unshared_of_nodup {d : Disk FileName} (h : (d.dir.entries.map Sigma.snd).Nodup) :
    Unshared d := by
  intro x y i hx hy
  have hxi := AList.mem_lookup_iff.mp (Option.mem_def.mpr hx)
  have hyi := AList.mem_lookup_iff.mp (Option.mem_def.mpr hy)
  exact congrArg Sigma.fst (List.inj_on_of_nodup_map h hxi hyi rfl)

theorem unshared_twoSegments {base : ℕ} (h : base = 1 ∨ base = 5) :
    Unshared (twoSegments base) :=
  unshared_of_nodup (by rcases h with rfl | rfl <;> decide)

theorem parts_one : parts sampleCodec (twoSegments 1) = [⟨0, 1, true⟩, ⟨1, 1, true⟩] := by
  rw [parts, List.mergeSort_eq_insertionSort]
  decide +kernel

/-- The second segment continues the first one. -/
theorem open_orderly_chained :
    ∃ d l, Finishes (Step NoFail) (twoSegments 1) (openDir sampleCodec {}) d (.ok l) ∧
      Orderly sampleCodec l := by
  obtain ⟨⟨d, r⟩, hsim, hx⟩ := Option.map_eq_some_iff.mp (simulate_twoSegments (Or.inl rfl))
  obtain rfl : r = .ok (twoClosed 1) := congrArg Prod.fst hx
  have hopen : Finishes (Step NoFail) (twoSegments 1) (openDir sampleCodec {}) d
      (.ok (twoClosed 1)) := finishes_of_simulate (by simp) hsim
  refine ⟨d, _, hopen, (open_orderly_iff (unshared_twoSegments (Or.inl rfl)) hopen).mpr ?_⟩
  rw [Chains, parts_one]
  decide

/-- Between the two segments four offsets are missing; the directory opens, and
a range read passes over them. -/
theorem open_leaves_gap :
    Unshared (twoSegments 5) ∧
      ∃ d l, Finishes (Step NoFail) (twoSegments 5) (openDir sampleCodec {}) d (.ok l) ∧
        ¬ InOrder l ∧ ∃ d' es l', Finishes (Step NoFail) d (readRange sampleCodec 0 none l) d'
          (.ok es, l') ∧ es.map LogEntry.offset = [0, 5] := by
  obtain ⟨⟨d, r⟩, hsim, hx⟩ := Option.map_eq_some_iff.mp (simulate_twoSegments (Or.inr rfl))
  obtain rfl : r = .ok (twoClosed 5) := congrArg Prod.fst hx
  obtain ⟨⟨d', r, l'⟩, hread, hes⟩ := Option.map_eq_some_iff.mp (congrArg Prod.snd hx)
  refine ⟨unshared_twoSegments (Or.inr rfl), d, _, finishes_of_simulate (by simp) hsim, ?_, ?_⟩
  · rintro ⟨start, -, -, hsecond, -⟩
    exact absurd hsecond (by decide)
  · cases r with
    | error err => cases hes
    | ok es => exact ⟨d', es, l', finishes_of_simulate (by simp) hread, Except.ok.inj hes⟩

end OtkCore.SegmentLog
