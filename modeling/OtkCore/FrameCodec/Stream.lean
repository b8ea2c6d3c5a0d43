import OtkCore.OtkProtocol
import OtkCore.Lib.Bytes
import OtkCore.Lib.Decoding
import Mathlib.Data.List.Forall2

/-!
# Stream frames

Length-prefixed frames of a reliable transport: `u32_be(len)` and `len` bytes
of CBOR. The decoder is the source's cursor loop with its two skip paths; it is
compared with a one-shot parser of the frame grammar. `usize` is at least 32
bits wide, so a `u32` length always converts.
-/
namespace OtkCore.FrameCodec

open Bytes Decoding

inductive FrameError
  | oversizeFrame (len : Option ℕ) (max : ℕ)
  | corruptFrame
  | lostSync
  | encodeFailed
  | decodeFailed (error : String)
  deriving DecidableEq, Repr

/-- The `Display` text. -/
def FrameError.toText : FrameError → String
  | oversizeFrame (some len) max =>
    "frame too large: " ++ toString len ++ " bytes exceeds maximum of " ++ toString max
  | oversizeFrame none max =>
    "frame too large: exceeded maximum of " ++ toString max ++ " bytes before delimiter"
  | corruptFrame => "corrupt frame: CRC-16/CCITT-FALSE mismatch"
  | lostSync => "lost sync: COBS decoding failed"
  | encodeFailed => "CBOR encoding of envelope failed"
  | decodeFailed e => "CBOR decoding of envelope failed: " ++ e

abbrev FrameResult : Type := Except FrameError OtkEnvelope

def u32Max : ℕ := 2 ^ 32 - 1

def defaultMaxFrameSize : ℕ := 65535

section Codec

variable (c : Cbor OtkEnvelope)

def encodeStream (envelope : OtkEnvelope) (maxFrameSize : ℕ) : Except FrameError (List UInt8) :=
  match c.encode envelope with
  | .error _ => .error .encodeFailed
  | .ok payload =>
    let effectiveMax := min maxFrameSize u32Max
    if payload.length > effectiveMax then
      .error (.oversizeFrame (some payload.length) effectiveMax)
    else .ok (be 4 payload.length ++ payload)

/-- `minicbor::decode::<OtkEnvelope>` with the error wrapped. -/
def decodePayload (payload : List UInt8) : FrameResult :=
  (c.decode payload).mapError .decodeFailed

structure StreamFrameDecoder where
  buf : List UInt8
  maxFrameSize : ℕ
  /-- Bytes still to be skipped of an oversize frame's payload. -/
  skipBytes : ℕ
  deriving DecidableEq

namespace StreamFrameDecoder

def new (maxFrameSize : ℕ) : StreamFrameDecoder := ⟨[], maxFrameSize, 0⟩

def hasPending (d : StreamFrameDecoder) : Bool := !d.buf.isEmpty || decide (0 < d.skipBytes)

/-- The loop of `push`: `pos` is the cursor into `buf`. Nothing is skipped when
`skip` is zero. -/
def pushLoop (max : ℕ) (buf : List UInt8) (pos skip : ℕ) (results : List FrameResult) :
    List FrameResult × ℕ × ℕ :=
  let skipped := min (buf.length - pos) skip
  let pos' := pos + skipped
  if 0 < skip - skipped then (results, pos', skip - skipped)
  else if buf.length - pos' < 4 then (results, pos', 0)
  else
    let len := ofBe ((buf.drop pos').take 4)
    if len > max then
      pushLoop max buf (pos' + 4) len (results ++ [.error (.oversizeFrame (some len) max)])
    else if buf.length - pos' < 4 + len then (results, pos', 0)
    else
      pushLoop max buf (pos' + (4 + len)) 0
        (results ++ [decodePayload c ((buf.drop (pos' + 4)).take len)])
termination_by buf.length - pos

def push (d : StreamFrameDecoder) (bytes : List UInt8) : List FrameResult × StreamFrameDecoder :=
  -- Bytes of an oversize payload are dropped from the input without buffering.
  let skip := min bytes.length d.skipBytes
  let buf := d.buf ++ bytes.drop skip
  let (results, pos, skipBytes) := pushLoop c d.maxFrameSize buf 0 (d.skipBytes - skip) []
  (results, ⟨buf.drop pos, d.maxFrameSize, skipBytes⟩)

end StreamFrameDecoder

/-- One-shot parser: the results, the bytes of the unfinished last frame, and
the bytes still missing of an oversize last frame. -/
def parseFrames (max : ℕ) (bytes : List UInt8) : List FrameResult × List UInt8 × ℕ :=
  if bytes.length < 4 then ([], bytes, 0)
  else
    let len := ofBe (bytes.take 4)
    let rest := bytes.drop 4
    if len > max then
      let (results, state) :=
        if rest.length < len then ([], [], len - rest.length) else parseFrames max (rest.drop len)
      (.error (.oversizeFrame (some len) max) :: results, state)
    else if rest.length < len then ([], bytes, 0)
    else
      let (results, state) := parseFrames max (rest.drop len)
      (decodePayload c (rest.take len) :: results, state)
termination_by bytes.length

end Codec

/-- A whole number of frames, whatever their payloads. -/
inductive WholeFrames : List UInt8 → Prop
  | nil : WholeFrames []
  | frame {header payload rest : List UInt8} : header.length = 4 →
      payload.length = ofBe header → WholeFrames rest → WholeFrames (header ++ payload ++ rest)

section Parsing

variable (c : Cbor OtkEnvelope) (max : ℕ)

/-- The parser started inside the payload of an oversize frame. -/
def parseFrom (skip : ℕ) (bytes : List UInt8) : List FrameResult × List UInt8 × ℕ :=
  if bytes.length < skip then ([], [], skip - bytes.length)
  else parseFrames c max (bytes.drop skip)

@[simp] theorem parseFrom_zero (bytes : List UInt8) :
    parseFrom c max 0 bytes = parseFrames c max bytes := by
  simp [parseFrom]

theorem parseFrom_of_lt {skip : ℕ} {bytes : List UInt8} (h : bytes.length < skip) :
    parseFrom c max skip bytes = ([], [], skip - bytes.length) := if_pos h

theorem parseFrom_of_le {skip : ℕ} {bytes : List UInt8} (h : skip ≤ bytes.length) :
    parseFrom c max skip bytes = parseFrames c max (bytes.drop skip) := if_neg (Nat.not_lt.mpr h)

theorem parseFrames_short {bytes : List UInt8} (h : bytes.length < 4) :
    parseFrames c max bytes = ([], bytes, 0) := by
  rw [parseFrames, if_pos h]

@[simp] theorem parseFrames_nil : parseFrames c max [] = ([], [], 0) :=
  parseFrames_short c max (by simp)

theorem parseFrames_oversize {bytes : List UInt8} (h : 4 ≤ bytes.length)
    (hlen : max < ofBe (bytes.take 4)) :
    parseFrames c max bytes =
      (.error (.oversizeFrame (some (ofBe (bytes.take 4))) max) ::
          (parseFrom c max (ofBe (bytes.take 4)) (bytes.drop 4)).1,
        (parseFrom c max (ofBe (bytes.take 4)) (bytes.drop 4)).2) := by
  rw [parseFrames, if_neg (Nat.not_lt.mpr h)]
  simp only [gt_iff_lt, hlen, if_true]
  rfl

theorem parseFrames_cut {bytes : List UInt8} (h : 4 ≤ bytes.length)
    (hlen : ofBe (bytes.take 4) ≤ max) (hshort : bytes.length < 4 + ofBe (bytes.take 4)) :
    parseFrames c max bytes = ([], bytes, 0) := by
  have hrest : (bytes.drop 4).length < ofBe (bytes.take 4) := by
    rw [List.length_drop]
    omega
  rw [parseFrames, if_neg (Nat.not_lt.mpr h)]
  simp only [gt_iff_lt, Nat.not_lt.mpr hlen, if_false, hrest, if_true]

theorem parseFrames_frame {bytes : List UInt8} (hlen : ofBe (bytes.take 4) ≤ max)
    (hfull : 4 + ofBe (bytes.take 4) ≤ bytes.length) :
    parseFrames c max bytes =
      (decodePayload c ((bytes.drop 4).take (ofBe (bytes.take 4))) ::
          (parseFrames c max (bytes.drop (4 + ofBe (bytes.take 4)))).1,
        (parseFrames c max (bytes.drop (4 + ofBe (bytes.take 4)))).2) := by
  have hrest : ¬ (bytes.drop 4).length < ofBe (bytes.take 4) := by
    rw [List.length_drop]
    omega
  rw [parseFrames, if_neg (by omega)]
  simp only [gt_iff_lt, Nat.not_lt.mpr hlen, if_false, hrest, List.drop_drop]

theorem frame_cases (bytes : List UInt8) :
    bytes.length < 4 ∨ (4 ≤ bytes.length ∧ max < ofBe (bytes.take 4)) ∨
      (4 ≤ bytes.length ∧ ofBe (bytes.take 4) ≤ max ∧
        bytes.length < 4 + ofBe (bytes.take 4)) ∨
      (ofBe (bytes.take 4) ≤ max ∧ 4 + ofBe (bytes.take 4) ≤ bytes.length) := by
  omega

theorem pushLoop_spec (buf : List UInt8) (pos skip : ℕ) (results : List FrameResult)
    (hpos : pos ≤ buf.length) :
    (StreamFrameDecoder.pushLoop c max buf pos skip results).1 =
        results ++ (parseFrom c max skip (buf.drop pos)).1 ∧
      buf.drop (StreamFrameDecoder.pushLoop c max buf pos skip results).2.1 =
        (parseFrom c max skip (buf.drop pos)).2.1 ∧
      (StreamFrameDecoder.pushLoop c max buf pos skip results).2.2 =
        (parseFrom c max skip (buf.drop pos)).2.2 := by
  fun_induction StreamFrameDecoder.pushLoop c max buf pos skip results with
  | case1 pos skip results skipped pos' hskip =>
    have hlt : (buf.drop pos).length < skip := by
      rw [List.length_drop]
      omega
    have hend : buf.length ≤ pos' := by omega
    rw [parseFrom_of_lt c max hlt]
    refine ⟨by simp, List.drop_eq_nil_of_le hend, ?_⟩
    simp only [List.length_drop]
    omega
  | case2 pos skip results skipped pos' hskip hshort =>
    have hle : skip ≤ (buf.drop pos).length := by
      rw [List.length_drop]
      omega
    have hpos' : pos' = pos + skip := by omega
    have hlen : (buf.drop pos').length < 4 := by rwa [List.length_drop]
    rw [parseFrom_of_le c max hle, List.drop_drop, ← hpos', parseFrames_short c max hlen]
    simp
  | case3 pos skip results skipped pos' hskip hlong len hbig ih =>
    have hle : skip ≤ (buf.drop pos).length := by
      rw [List.length_drop]
      omega
    have hpos' : pos' = pos + skip := by omega
    have hlen : 4 ≤ (buf.drop pos').length := by
      rw [List.length_drop]
      omega
    rw [parseFrom_of_le c max hle, List.drop_drop, ← hpos',
      parseFrames_oversize c max hlen hbig]
    obtain ⟨h1, h2, h3⟩ := ih (by omega)
    rw [List.drop_drop]
    refine ⟨?_, h2, h3⟩
    rw [h1]
    simp [len]
  | case4 pos skip results skipped pos' hskip hlong len hsmall hshort =>
    have hle : skip ≤ (buf.drop pos).length := by
      rw [List.length_drop]
      omega
    have hpos' : pos' = pos + skip := by omega
    rw [parseFrom_of_le c max hle, List.drop_drop, ← hpos', parseFrames_cut c max
      (by rw [List.length_drop]; omega) (Nat.not_lt.mp hsmall) (by rw [List.length_drop]; omega)]
    simp
  | case5 pos skip results skipped pos' hskip hlong len hsmall hfull ih =>
    have hle : skip ≤ (buf.drop pos).length := by
      rw [List.length_drop]
      omega
    have hpos' : pos' = pos + skip := by omega
    rw [parseFrom_of_le c max hle, List.drop_drop, ← hpos', parseFrames_frame c max
      (Nat.not_lt.mp hsmall) (by rw [List.length_drop]; omega)]
    obtain ⟨h1, h2, h3⟩ := ih (by omega)
    rw [List.drop_drop, List.drop_drop]
    rw [parseFrom_zero] at h1 h2 h3
    refine ⟨?_, h2, h3⟩
    rw [h1]
    simp [len]

/-- What the parser leaves over: nothing while bytes are skipped, and otherwise
less than one frame, which the parser would leave over again. -/
structure Leftover (state : List UInt8 × ℕ) : Prop where
  skipping : 0 < state.2 → state.1 = []
  length_lt : state.1.length < 4 + max
  unfinished : parseFrames c max state.1 = ([], state.1, 0)

theorem leftover_nil (skip : ℕ) : Leftover c max ([], skip) :=
  ⟨fun _ => rfl, by simp, parseFrames_short c max (by simp)⟩

theorem leftover_parseFrames (bytes : List UInt8) : Leftover c max (parseFrames c max bytes).2 := by
  induction hn : bytes.length using Nat.strong_induction_on generalizing bytes with
  | _ n ih =>
    obtain h | ⟨h, hbig⟩ | ⟨h, hsmall, hshort⟩ | ⟨hsmall, hfull⟩ := frame_cases max bytes
    · rw [parseFrames_short c max h]
      exact ⟨by simp, by simp; omega, parseFrames_short c max h⟩
    · rw [parseFrames_oversize c max h hbig]
      by_cases hskip : (bytes.drop 4).length < ofBe (bytes.take 4)
      · rw [parseFrom_of_lt c max hskip]
        exact leftover_nil c max _
      · rw [parseFrom_of_le c max (Nat.not_lt.mp hskip)]
        exact ih _ (by simp only [List.length_drop]; omega) _ rfl
    · rw [parseFrames_cut c max h hsmall hshort]
      exact ⟨by simp, by simp; omega, parseFrames_cut c max h hsmall hshort⟩
    · rw [parseFrames_frame c max hsmall hfull]
      exact ih _ (by simp only [List.length_drop]; omega) _ rfl

theorem leftover_parseFrom (skip : ℕ) (bytes : List UInt8) :
    Leftover c max (parseFrom c max skip bytes).2 := by
  by_cases h : bytes.length < skip
  · rw [parseFrom_of_lt c max h]
    exact leftover_nil c max _
  · rw [parseFrom_of_le c max (Nat.not_lt.mp h)]
    exact leftover_parseFrames c max _

def Resumes (first : List FrameResult × List UInt8 × ℕ) (bytes' : List UInt8)
    (whole : List FrameResult × List UInt8 × ℕ) : Prop :=
  whole = (first.1 ++ (parseFrom c max first.2.2 (first.2.1 ++ bytes')).1,
    (parseFrom c max first.2.2 (first.2.1 ++ bytes')).2)

theorem Resumes.cons {first whole : List FrameResult × List UInt8 × ℕ} {bytes' : List UInt8}
    (h : Resumes c max first bytes' whole) (r : FrameResult) :
    Resumes c max (r :: first.1, first.2) bytes' (r :: whole.1, whole.2) := by
  rw [Resumes] at h ⊢
  rw [h]
  rfl

theorem resumes_skip {skip : ℕ} {bytes bytes' : List UInt8} (h : bytes.length < skip) :
    Resumes c max (parseFrom c max skip bytes) bytes' (parseFrom c max skip (bytes ++ bytes')) := by
  have hjoin : parseFrom c max skip (bytes ++ bytes') =
      parseFrom c max (skip - bytes.length) bytes' := by
    by_cases h' : bytes'.length < skip - bytes.length
    · rw [parseFrom_of_lt c max (by simp; omega), parseFrom_of_lt c max h', List.length_append,
        Nat.sub_sub]
    · rw [parseFrom_of_le c max (by simp; omega), parseFrom_of_le c max (Nat.not_lt.mp h'),
        List.drop_append, List.drop_eq_nil_of_le (Nat.le_of_lt h), List.nil_append]
  rw [hjoin, parseFrom_of_lt c max h]
  rfl

theorem resumes_parseFrames (bytes bytes' : List UInt8) :
    Resumes c max (parseFrames c max bytes) bytes' (parseFrames c max (bytes ++ bytes')) := by
  induction hn : bytes.length using Nat.strong_induction_on generalizing bytes with
  | _ n ih =>
    obtain h | ⟨h, hbig⟩ | ⟨h, hsmall, hshort⟩ | ⟨hsmall, hfull⟩ := frame_cases max bytes
    · rw [parseFrames_short c max h]
      simp [Resumes]
    · have htake : (bytes ++ bytes').take 4 = bytes.take 4 := List.take_append_of_le_length h
      have hdrop : (bytes ++ bytes').drop 4 = bytes.drop 4 ++ bytes' :=
        List.drop_append_of_le_length h
      rw [parseFrames_oversize c max h hbig,
        parseFrames_oversize c max (by simp; omega) (by rwa [htake]), htake, hdrop]
      apply Resumes.cons
      by_cases hskip : (bytes.drop 4).length < ofBe (bytes.take 4)
      · exact resumes_skip c max hskip
      · have hle := Nat.not_lt.mp hskip
        rw [parseFrom_of_le c max hle, parseFrom_of_le c max (by simp at hle ⊢; omega),
          List.drop_append_of_le_length hle]
        exact ih _ (by simp only [List.length_drop]; omega) _ rfl
    · rw [parseFrames_cut c max h hsmall hshort]
      simp [Resumes]
    · have h : 4 ≤ bytes.length := by omega
      have htake : (bytes ++ bytes').take 4 = bytes.take 4 := List.take_append_of_le_length h
      have hdrop : (bytes ++ bytes').drop 4 = bytes.drop 4 ++ bytes' :=
        List.drop_append_of_le_length h
      have hpay : ((bytes ++ bytes').drop 4).take (ofBe (bytes.take 4)) =
          (bytes.drop 4).take (ofBe (bytes.take 4)) := by
        rw [hdrop]
        exact List.take_append_of_le_length (by rw [List.length_drop]; omega)
      have hfull' : 4 + ofBe ((bytes ++ bytes').take 4) ≤ (bytes ++ bytes').length := by
        rw [htake, List.length_append]
        omega
      have hwhole := parseFrames_frame c max (by rwa [htake]) hfull'
      rw [htake, hpay, List.drop_append_of_le_length hfull] at hwhole
      rw [hwhole, parseFrames_frame c max hsmall hfull]
      exact (ih _ (by simp only [List.length_drop]; omega) _ rfl).cons c max _

theorem resumes_parseFrom (skip : ℕ) (bytes bytes' : List UInt8) :
    Resumes c max (parseFrom c max skip bytes) bytes' (parseFrom c max skip (bytes ++ bytes')) := by
  by_cases h : bytes.length < skip
  · exact resumes_skip c max h
  · have hle := Nat.not_lt.mp h
    rw [parseFrom_of_le c max hle, parseFrom_of_le c max (by simp; omega),
      List.drop_append_of_le_length hle]
    exact resumes_parseFrames c max _ bytes'

/-- A nonempty whole number of frames starts with a header and its payload. -/
theorem WholeFrames.head {bytes : List UInt8} (h : WholeFrames bytes) (hne : bytes ≠ []) :
    4 + ofBe (bytes.take 4) ≤ bytes.length ∧
      WholeFrames (bytes.drop (4 + ofBe (bytes.take 4))) := by
  cases h with
  | nil => exact absurd rfl hne
  | @frame header payload rest hh hp hr =>
    have htake : (header ++ payload ++ rest).take 4 = header := by
      rw [List.append_assoc, ← hh, List.take_left]
    have hlen : (header ++ payload).length = 4 + ofBe header := by simp [hh, hp]
    rw [htake]
    refine ⟨by simp [hh, hp], ?_⟩
    rw [← hlen, List.drop_left]
    exact hr

theorem wholeFrames_iff_drop {bytes : List UInt8}
    (hfull : 4 + ofBe (bytes.take 4) ≤ bytes.length) :
    WholeFrames bytes ↔ WholeFrames (bytes.drop (4 + ofBe (bytes.take 4))) := by
  constructor
  · intro hw
    exact (hw.head (by rintro rfl; simp at hfull)).2
  · intro hw
    have hsplit : bytes = bytes.take 4 ++ (bytes.drop 4).take (ofBe (bytes.take 4)) ++
        bytes.drop (4 + ofBe (bytes.take 4)) := by
      rw [← List.drop_drop, List.append_assoc, List.take_append_drop, List.take_append_drop]
    rw [hsplit]
    exact .frame (by simp; omega) (by simp; omega) hw

theorem wholeFrames_iff (bytes : List UInt8) :
    WholeFrames bytes ↔ (parseFrames c max bytes).2 = ([], 0) := by
  induction hn : bytes.length using Nat.strong_induction_on generalizing bytes with
  | _ n ih =>
    obtain h | ⟨h, hbig⟩ | ⟨h, hsmall, hshort⟩ | ⟨hsmall, hfull⟩ := frame_cases max bytes
    · rw [parseFrames_short c max h]
      simp only [Prod.mk.injEq, and_true]
      constructor
      · intro hw
        by_contra hne
        have := (hw.head hne).1
        omega
      · rintro rfl
        exact .nil
    · have hne : bytes ≠ [] := by
        rintro rfl
        simp at h
      rw [parseFrames_oversize c max h hbig]
      by_cases hskip : (bytes.drop 4).length < ofBe (bytes.take 4)
      · rw [parseFrom_of_lt c max hskip]
        simp only [List.length_drop] at hskip
        simp only [List.length_drop, Prod.mk.injEq, true_and]
        constructor
        · intro hw
          have := (hw.head hne).1
          omega
        · omega
      · rw [parseFrom_of_le c max (Nat.not_lt.mp hskip), List.drop_drop]
        simp only [List.length_drop, Nat.not_lt] at hskip
        rw [wholeFrames_iff_drop (by omega)]
        exact ih _ (by simp only [List.length_drop]; omega) _ rfl
    · rw [parseFrames_cut c max h hsmall hshort]
      have hne : bytes ≠ [] := by
        rintro rfl
        simp at h
      simp only [Prod.mk.injEq, and_true, hne, iff_false]
      intro hw
      have := (hw.head hne).1
      omega
    · rw [parseFrames_frame c max hsmall hfull, wholeFrames_iff_drop hfull]
      exact ih _ (by simp only [List.length_drop]; omega) _ rfl

end Parsing

namespace StreamFrameDecoder

variable (c : Cbor OtkEnvelope)

/-- The states a decoder can be in between two pushes. -/
def Settled (max : ℕ) (d : StreamFrameDecoder) : Prop :=
  d.maxFrameSize = max ∧ Leftover c max (d.buf, d.skipBytes)

theorem settled_new (max : ℕ) : Settled c max (new max) := ⟨rfl, leftover_nil c max 0⟩

theorem push_eq (d : StreamFrameDecoder) (hd : 0 < d.skipBytes → d.buf = [])
    (bytes : List UInt8) :
    push c d bytes =
      ((parseFrom c d.maxFrameSize d.skipBytes (d.buf ++ bytes)).1,
        ⟨(parseFrom c d.maxFrameSize d.skipBytes (d.buf ++ bytes)).2.1, d.maxFrameSize,
          (parseFrom c d.maxFrameSize d.skipBytes (d.buf ++ bytes)).2.2⟩) := by
  -- Skipping from the input first leaves the same parse as skipping inside the buffer.
  have hskip : parseFrom c d.maxFrameSize (d.skipBytes - min bytes.length d.skipBytes)
        (d.buf ++ bytes.drop (min bytes.length d.skipBytes)) =
      parseFrom c d.maxFrameSize d.skipBytes (d.buf ++ bytes) := by
    obtain h0 | hpos := Nat.eq_zero_or_pos d.skipBytes
    · simp [h0]
    · rw [hd hpos, List.nil_append, List.nil_append]
      by_cases hlt : bytes.length < d.skipBytes
      · rw [Nat.min_eq_left (Nat.le_of_lt hlt), List.drop_length,
          parseFrom_of_lt c _ hlt, parseFrom_of_lt c _ (by simpa using hlt)]
        rfl
      · rw [Nat.min_eq_right (Nat.not_lt.mp hlt), Nat.sub_self, parseFrom_zero,
          parseFrom_of_le c _ (Nat.not_lt.mp hlt)]
  obtain ⟨h1, h2, h3⟩ := pushLoop_spec c d.maxFrameSize
    (d.buf ++ bytes.drop (min bytes.length d.skipBytes)) 0
    (d.skipBytes - min bytes.length d.skipBytes) [] (Nat.zero_le _)
  rw [List.drop_zero, hskip] at h1 h2 h3
  rw [List.nil_append] at h1
  rw [← h1, ← h2, ← h3]
  rfl

theorem incremental_push (max : ℕ) : Incremental (push c) (Settled c max) where
  keeps d bytes hd := by
    rw [push_eq c d hd.2.skipping]
    exact ⟨hd.1, hd.1 ▸ leftover_parseFrom c _ _ _⟩
  nil d hd := by
    rw [push_eq c d hd.2.skipping, List.append_nil, hd.1]
    obtain h0 | hpos := Nat.eq_zero_or_pos d.skipBytes
    · rw [h0, parseFrom_zero, hd.2.unfinished, ← hd.1, ← h0]
    · have hbuf : d.buf = [] := hd.2.skipping hpos
      rw [hbuf, parseFrom_of_lt c max (by simpa using hpos), ← hd.1, List.length_nil, Nat.sub_zero,
        ← hbuf]
  append d bytes bytes' hd := by
    have hres := resumes_parseFrom c max d.skipBytes (d.buf ++ bytes) bytes'
    have hleft := leftover_parseFrom c max d.skipBytes (d.buf ++ bytes)
    rw [Resumes, List.append_assoc] at hres
    rw [push_eq c d hd.2.skipping, push_eq c d hd.2.skipping bytes, hd.1, hres,
      push_eq c _ hleft.skipping]

/-- Fed to a fresh decoder, however it is cut, a byte string gives what the
parser gives. -/
theorem feed_new (max : ℕ) (chunks : List (List UInt8)) :
    feed (push c) (new max) chunks =
      ((parseFrames c max chunks.flatten).1,
        ⟨(parseFrames c max chunks.flatten).2.1, max, (parseFrames c max chunks.flatten).2.2⟩) := by
  rw [(incremental_push c max).feed_eq (settled_new c max), push_eq c _ (fun _ => rfl)]
  simp [new]

theorem hasPending_eq_false_iff (d : StreamFrameDecoder) :
    d.hasPending = false ↔ (d.buf, d.skipBytes) = ([], 0) := by
  simp [hasPending]

end StreamFrameDecoder

section RoundTrip

variable {c : Cbor OtkEnvelope}

theorem encodeStream_eq_ok {envelope : OtkEnvelope} {max : ℕ} {frame : List UInt8}
    (h : encodeStream c envelope max = .ok frame) :
    ∃ payload, c.encode envelope = .ok payload ∧ payload.length ≤ max ∧
      payload.length < 256 ^ 4 ∧ frame = be 4 payload.length ++ payload := by
  unfold encodeStream at h
  cases hp : c.encode envelope with
  | error e => simp [hp] at h
  | ok payload =>
    simp only [hp] at h
    split_ifs at h with hbig
    injection h with h
    have hu : u32Max = 2 ^ 32 - 1 := rfl
    refine ⟨payload, rfl, by omega, by omega, h.symm⟩

theorem parseFrames_framed (max : ℕ) {payload : List UInt8} (hmax : payload.length ≤ max)
    (hlen : payload.length < 256 ^ 4) (rest : List UInt8) :
    parseFrames c max (be 4 payload.length ++ payload ++ rest) =
      (decodePayload c payload :: (parseFrames c max rest).1, (parseFrames c max rest).2) := by
  have htake : (be 4 payload.length ++ payload ++ rest).take 4 = be 4 payload.length := by
    rw [List.append_assoc]
    exact List.take_left' (length_be 4 _)
  have hdrop : (be 4 payload.length ++ payload ++ rest).drop 4 = payload ++ rest := by
    rw [List.append_assoc]
    exact List.drop_left' (length_be 4 _)
  have hof : ofBe (be 4 payload.length) = payload.length := ofBe_be hlen
  rw [parseFrames_frame c max (by rwa [htake, hof]) (by rw [htake, hof]; simp), htake, hof, hdrop,
    List.take_left, ← List.drop_drop, hdrop, List.drop_left]

theorem parseFrames_encoded (hc : c.Inverts) (max : ℕ) {envelopes : List OtkEnvelope}
    {frames : List (List UInt8)}
    (h : List.Forall₂ (fun e f => encodeStream c e max = .ok f) envelopes frames)
    (rest : List UInt8) :
    parseFrames c max (frames.flatten ++ rest) =
      (envelopes.map .ok ++ (parseFrames c max rest).1, (parseFrames c max rest).2) := by
  induction h with
  | nil => simp
  | @cons envelope frame envelopes frames hhead htail ih =>
    obtain ⟨payload, henc, hmax, hlen, rfl⟩ := encodeStream_eq_ok hhead
    rw [List.flatten_cons, List.append_assoc (be 4 _ ++ _), parseFrames_framed max hmax hlen, ih,
      decodePayload, hc _ _ henc]
    rfl

end RoundTrip

/-- However a byte string is cut, the decoder gives what one push of it gives
and what the one-shot parser gives. After any number of pushes the buffer is
empty while bytes are skipped, it is shorter than a largest frame, and nothing
is pending exactly at the frame boundaries. Concatenated frames of the encoder
are decoded to their envelopes. -/
theorem streamFrameDecoder_exact (c : Cbor OtkEnvelope) (max : ℕ) (chunks : List (List UInt8)) :
    feed (StreamFrameDecoder.push c) (.new max) chunks =
        StreamFrameDecoder.push c (.new max) chunks.flatten ∧
      StreamFrameDecoder.push c (.new max) chunks.flatten =
        ((parseFrames c max chunks.flatten).1,
          ⟨(parseFrames c max chunks.flatten).2.1, max,
            (parseFrames c max chunks.flatten).2.2⟩) ∧
      (∀ k, let d := (feed (StreamFrameDecoder.push c) (.new max) (chunks.take k)).2
        (0 < d.skipBytes → d.buf = []) ∧ d.buf.length < 4 + max ∧
          (d.hasPending = false ↔ WholeFrames (chunks.take k).flatten)) ∧
      (c.Inverts → ∀ envelopes frames,
        List.Forall₂ (fun e f => encodeStream c e max = .ok f) envelopes frames →
        chunks.flatten = frames.flatten →
        feed (StreamFrameDecoder.push c) (.new max) chunks = (envelopes.map .ok, .new max)) := by
  have hfeed := (StreamFrameDecoder.incremental_push c max).feed_eq
    (StreamFrameDecoder.settled_new c max) chunks
  refine ⟨hfeed, ?_, ?_, ?_⟩
  · rw [← hfeed, StreamFrameDecoder.feed_new]
  · intro k d
    have hd : Leftover c max (d.buf, d.skipBytes) := ((StreamFrameDecoder.incremental_push c
      max).keeps_feed (StreamFrameDecoder.settled_new c max) (chunks.take k)).2
    refine ⟨hd.skipping, hd.length_lt, ?_⟩
    rw [StreamFrameDecoder.hasPending_eq_false_iff, wholeFrames_iff c max]
    simp only [d, StreamFrameDecoder.feed_new]
  · intro hc envelopes frames hframes hbytes
    have hparse := parseFrames_encoded hc max hframes []
    rw [List.append_nil, parseFrames_nil] at hparse
    rw [StreamFrameDecoder.feed_new, hbytes, hparse]
    simp [StreamFrameDecoder.new]

/-- A `Disconnect` of the producer `p`, and its encoding. -/
def disconnectEnvelope : OtkEnvelope :=
  ⟨0, .disconnect, ⟨"p"⟩, none, none, none, none, none⟩

def disconnectCodec : Cbor OtkEnvelope :=
  .ofTable [(disconnectEnvelope, [0x83, 0x00, 0x82, 0x06, 0x80, 0x61, 0x70])]

theorem disconnectCodec_inverts : disconnectCodec.Inverts := Cbor.inverts_ofTable (by simp)

/-- Two frames, cut inside the first header and inside the second payload. -/
theorem streamFrameDecoder_exact_two_frames :
    feed (StreamFrameDecoder.push disconnectCodec) (.new 16)
        [[0, 0], [0, 7, 0x83, 0x00, 0x82, 0x06, 0x80, 0x61, 0x70, 0, 0, 0, 7, 0x83], [0x00, 0x82],
          [0x06, 0x80, 0x61, 0x70]] =
      ([.ok disconnectEnvelope, .ok disconnectEnvelope], .new 16) := by
  refine (streamFrameDecoder_exact disconnectCodec 16 _).2.2.2 disconnectCodec_inverts
    [disconnectEnvelope, disconnectEnvelope]
    [[0, 0, 0, 7, 0x83, 0x00, 0x82, 0x06, 0x80, 0x61, 0x70],
      [0, 0, 0, 7, 0x83, 0x00, 0x82, 0x06, 0x80, 0x61, 0x70]] ?_ rfl
  have henc : encodeStream disconnectCodec disconnectEnvelope 16 =
      .ok [0, 0, 0, 7, 0x83, 0x00, 0x82, 0x06, 0x80, 0x61, 0x70] := by
    rfl
  exact .cons henc (.cons henc .nil)

end OtkCore.FrameCodec
