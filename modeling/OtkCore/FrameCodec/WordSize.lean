import OtkCore.FrameCodec.Serial

/-!
# The decoders at a word size

`push` and `SerialFrameDecoder::new` in the arithmetic of a `usize` of `w` bits. An
operation that overflows and a slice outside the buffer are panics. Where none
happens, the machine's `push` is the unbounded one, except that an oversize length
beyond `usize` is not reported.
-/
namespace OtkCore.FrameCodec

open Bytes Decoding

inductive Panic
  | overflow
  | underflow
  | bounds
  | fuel
  deriving DecidableEq, Repr

namespace Machine

variable (w : ℕ)

/-- `usize::MAX`. -/
def maxUsize : ℕ := 2 ^ w - 1

def add (a b : ℕ) : Except Panic ℕ := if a + b < 2 ^ w then .ok (a + b) else .error .overflow

def sub (a b : ℕ) : Except Panic ℕ := if b ≤ a then .ok (a - b) else .error .underflow

/-- `&bytes[start..stop]`. -/
def slice (bytes : List UInt8) (start stop : ℕ) : Except Panic (List UInt8) :=
  if start ≤ stop ∧ stop ≤ bytes.length then .ok ((bytes.drop start).take (stop - start))
  else .error .bounds

/-- How one turn of the loop of `push` ends. -/
inductive Turn
  | leave (pos skip : ℕ)
  | next (result : FrameResult) (pos skip : ℕ)

variable (c : Cbor OtkEnvelope)

def turn (max : ℕ) (buf : List UInt8) (pos skip : ℕ) : Except Panic Turn := do
  let available ← sub buf.length pos
  let skipped := min available (min skip (maxUsize w))
  let pos ← add w pos skipped
  let skip := skip - skipped
  if 0 < skip then return .leave pos skip
  let available ← sub buf.length pos
  if available < 4 then return .leave pos 0
  let stop ← add w pos 4
  let header ← slice buf pos stop
  let len := ofBe header
  if len > max then
    let pos ← add w pos 4
    return .next (.error (.oversizeFrame (if len ≤ maxUsize w then some len else none) max)) pos len
  let size ← add w 4 len
  if available < size then return .leave pos 0
  let start ← add w pos 4
  let stop ← add w start len
  let payload ← slice buf start stop
  let pos ← add w pos size
  return .next (decodePayload c payload) pos 0

/-- The loop of `push`. Every turn but the last one moves the cursor, so a turn for
each byte is enough. -/
def pushLoop (max : ℕ) (buf : List UInt8) :
    ℕ → ℕ → ℕ → List FrameResult → Except Panic (List FrameResult × ℕ × ℕ)
  | 0, _, _, _ => .error .fuel
  | fuel + 1, pos, skip, results => do
    match ← turn w c max buf pos skip with
    | .leave pos skip => pure (results, pos, skip)
    | .next result pos skip => pushLoop max buf fuel pos skip (results ++ [result])

def push (d : StreamFrameDecoder) (bytes : List UInt8) :
    Except Panic (List FrameResult × StreamFrameDecoder) := do
  let skip := min bytes.length (min d.skipBytes (maxUsize w))
  let rest ← slice bytes skip bytes.length
  let buf := d.buf ++ rest
  let (results, pos, skipBytes) ←
    pushLoop w c d.maxFrameSize buf (buf.length + 1) 0 (d.skipBytes - skip) []
  pure (results, ⟨buf.drop pos, d.maxFrameSize, skipBytes⟩)

/-- `cobs::max_encoding_length`. -/
def maxEncodingLength (n : ℕ) : Except Panic ℕ := do
  let sum ← add w n (n / 254)
  add w sum (if n % 254 > 0 then 1 else 0)

/-- The on-wire limit that `SerialFrameDecoder::new` computes. -/
def maxWireSize (maxFrameSize : ℕ) : Except Panic ℕ :=
  maxEncodingLength w (min (maxFrameSize + 2) (maxUsize w))

end Machine

/-- The lengths in the headers of the frames, one after another. -/
def announced (bytes : List UInt8) : List ℕ :=
  if bytes.length < 4 then []
  else ofBe (bytes.take 4) :: announced (bytes.drop (4 + ofBe (bytes.take 4)))
termination_by bytes.length

theorem announced_short {bytes : List UInt8} (h : bytes.length < 4) : announced bytes = [] := by
  rw [announced, if_pos h]

theorem announced_long {bytes : List UInt8} (h : ¬ bytes.length < 4) :
    announced bytes =
      ofBe (bytes.take 4) :: announced (bytes.drop (4 + ofBe (bytes.take 4))) := by
  rw [announced, if_neg h]

/-- Every accepted length leaves room for its header. -/
def Roomy (w max : ℕ) (bytes : List UInt8) : Prop :=
  ∀ len ∈ announced bytes, len ≤ max → 4 + len < 2 ^ w

instance (w max : ℕ) (bytes : List UInt8) : Decidable (Roomy w max bytes) :=
  inferInstanceAs (Decidable (∀ len ∈ announced bytes, len ≤ max → 4 + len < 2 ^ w))

theorem roomy_short {w max : ℕ} {bytes : List UInt8} (h : bytes.length < 4) : Roomy w max bytes := by
  intro len hlen
  rw [announced_short h] at hlen
  cases hlen

theorem roomy_long {w max : ℕ} {bytes : List UInt8} (h : ¬ bytes.length < 4) :
    Roomy w max bytes ↔ (ofBe (bytes.take 4) ≤ max → 4 + ofBe (bytes.take 4) < 2 ^ w) ∧
      Roomy w max (bytes.drop (4 + ofBe (bytes.take 4))) := by
  rw [Roomy, announced_long h, List.forall_mem_cons]
  rfl

def narrow (w : ℕ) : FrameResult → FrameResult
  | .error (.oversizeFrame (some len) max) =>
    .error (.oversizeFrame (if len ≤ Machine.maxUsize w then some len else none) max)
  | r => r

theorem narrow_decodePayload (w : ℕ) (c : Cbor OtkEnvelope) (payload : List UInt8) :
    narrow w (decodePayload c payload) = decodePayload c payload := by
  unfold decodePayload
  cases c.decode payload <;> rfl

theorem ofBe_take_lt (bytes : List UInt8) : ofBe (bytes.take 4) < 2 ^ 32 := by
  have h := ofLe_lt (bytes.take 4).reverse
  have hlen : (bytes.take 4).reverse.length ≤ 4 := by simp
  calc ofBe (bytes.take 4) < 256 ^ (bytes.take 4).reverse.length := h
    _ ≤ 256 ^ 4 := Nat.pow_le_pow_right (by decide) hlen
    _ = 2 ^ 32 := by norm_num

theorem announced_lt {bytes : List UInt8} {len : ℕ} (h : len ∈ announced bytes) : len < 2 ^ 32 := by
  fun_induction announced bytes with
  | case1 => cases h
  | case2 bytes hlong ih =>
    rcases List.mem_cons.mp h with rfl | hmem
    · exact ofBe_take_lt bytes
    · exact ih hmem

namespace Machine

variable {w max : ℕ} {c : Cbor OtkEnvelope} {buf : List UInt8} {pos skip : ℕ}

theorem add_ok {a b : ℕ} (h : a + b < 2 ^ w) : add w a b = .ok (a + b) := if_pos h

theorem add_zero_ok {a : ℕ} (h : a < 2 ^ w) : add w a 0 = .ok a := if_pos h

theorem add_overflow {a b : ℕ} (h : ¬ a + b < 2 ^ w) : add w a b = .error .overflow := if_neg h

theorem sub_ok {a b : ℕ} (h : b ≤ a) : sub a b = .ok (a - b) := if_pos h

theorem slice_ok {bytes : List UInt8} {start stop : ℕ} (h : start ≤ stop)
    (h' : stop ≤ bytes.length) :
    slice bytes start stop = .ok ((bytes.drop start).take (stop - start)) :=
  if_pos ⟨h, h'⟩

theorem ok_bind {α β : Type} (a : α) (f : α → Except Panic β) : (Except.ok a >>= f) = f a := rfl

theorem error_bind {α β : Type} (e : Panic) (f : α → Except Panic β) :
    ((Except.error e : Except Panic α) >>= f) = .error e := rfl

theorem turn_skip (hpos : pos ≤ buf.length) (hbuf : buf.length < 2 ^ w)
    (hskip : 0 < skip - min (buf.length - pos) skip) :
    turn w c max buf pos skip =
      .ok (.leave (pos + min (buf.length - pos) skip) (skip - min (buf.length - pos) skip)) := by
  have hmin : min (buf.length - pos) (min skip (maxUsize w)) = min (buf.length - pos) skip := by
    unfold maxUsize
    omega
  rw [turn, sub_ok hpos, ok_bind]
  dsimp only
  rw [hmin, add_ok (by omega), ok_bind, if_pos hskip]
  rfl

theorem turn_behind (hpos : pos ≤ buf.length) (hbuf : buf.length < 2 ^ w)
    (hskip : ¬ 0 < skip - min (buf.length - pos) skip) :
    turn w c max buf pos skip = turn w c max buf (pos + min (buf.length - pos) skip) 0 := by
  have hmin : min (buf.length - pos) (min skip (maxUsize w)) = min (buf.length - pos) skip := by
    unfold maxUsize
    omega
  have hzero : skip - min (buf.length - pos) skip = 0 := by omega
  have hpos' : pos + min (buf.length - pos) skip ≤ buf.length := by omega
  rw [turn, turn, sub_ok hpos, sub_ok hpos', ok_bind, ok_bind]
  dsimp only
  rw [hmin, add_ok (by omega), ok_bind, hzero, Nat.zero_min, Nat.min_zero,
    add_zero_ok (by omega), ok_bind]

/-- The turns that skip nothing, by what stands at the cursor. -/
theorem turn_short (hpos : pos ≤ buf.length) (hbuf : buf.length < 2 ^ w)
    (hshort : buf.length - pos < 4) : turn w c max buf pos 0 = .ok (.leave pos 0) := by
  rw [turn, sub_ok hpos, ok_bind]
  dsimp only
  rw [Nat.zero_min, Nat.min_zero, add_zero_ok (by omega), ok_bind, if_neg (by simp),
    sub_ok hpos, ok_bind, if_pos hshort]
  rfl

theorem turn_long (hbuf : buf.length < 2 ^ w) (hlong : pos + 4 ≤ buf.length) :
    turn w c max buf pos 0 =
      if ofBe ((buf.drop pos).take 4) > max then
        .ok (.next (narrow w (.error (.oversizeFrame (some (ofBe ((buf.drop pos).take 4))) max)))
          (pos + 4) (ofBe ((buf.drop pos).take 4)))
      else if 4 + ofBe ((buf.drop pos).take 4) < 2 ^ w then
        if buf.length - pos < 4 + ofBe ((buf.drop pos).take 4) then .ok (.leave pos 0)
        else .ok (.next (decodePayload c
          ((buf.drop (pos + 4)).take (ofBe ((buf.drop pos).take 4))))
          (pos + (4 + ofBe ((buf.drop pos).take 4))) 0)
      else .error .overflow := by
  have hpos : pos ≤ buf.length := by omega
  rw [turn, sub_ok hpos, ok_bind]
  dsimp only
  rw [Nat.zero_min, Nat.min_zero, add_zero_ok (by omega), ok_bind, if_neg (by simp),
    sub_ok hpos, ok_bind, if_neg (by omega), add_ok (by omega), ok_bind,
    slice_ok (by omega) hlong, ok_bind, Nat.add_sub_cancel_left]
  by_cases hbig : ofBe ((buf.drop pos).take 4) > max
  · rw [if_pos hbig, if_pos hbig, ok_bind]
    rfl
  · rw [if_neg hbig, if_neg hbig]
    by_cases hroom : 4 + ofBe ((buf.drop pos).take 4) < 2 ^ w
    · rw [if_pos hroom, add_ok hroom, ok_bind]
      by_cases hcut : buf.length - pos < 4 + ofBe ((buf.drop pos).take 4)
      · rw [if_pos hcut, if_pos hcut]
        rfl
      · rw [if_neg hcut, if_neg hcut, ok_bind, add_ok (by omega), ok_bind,
          slice_ok (by omega) (by omega), ok_bind, add_ok (by omega), Nat.add_sub_cancel_left]
        rfl
    · rw [if_neg hroom, add_overflow hroom, error_bind]

theorem pushLoop_leave {fuel : ℕ} {results : List FrameResult} {pos' skip' : ℕ}
    (h : turn w c max buf pos skip = .ok (.leave pos' skip')) :
    pushLoop w c max buf (fuel + 1) pos skip results = .ok (results, pos', skip') := by
  rw [pushLoop, h]
  rfl

theorem pushLoop_next {fuel : ℕ} {results : List FrameResult} {r : FrameResult} {pos' skip' : ℕ}
    (h : turn w c max buf pos skip = .ok (.next r pos' skip')) :
    pushLoop w c max buf (fuel + 1) pos skip results =
      pushLoop w c max buf fuel pos' skip' (results ++ [r]) := by
  rw [pushLoop, h]
  rfl

theorem pushLoop_error {fuel : ℕ} {results : List FrameResult} {e : Panic}
    (h : turn w c max buf pos skip = .error e) :
    pushLoop w c max buf (fuel + 1) pos skip results = .error e := by
  rw [pushLoop, h]
  rfl

/-- The loop of a machine does what the unbounded loop does, or overflows at the first
accepted length that leaves no room for its header. -/
theorem pushLoop_eq (hbuf : buf.length < 2 ^ w) (pos skip : ℕ) (results : List FrameResult)
    (fuel : ℕ) (hpos : pos ≤ buf.length) (hfuel : buf.length - pos < fuel) :
    pushLoop w c max buf fuel pos skip (results.map (narrow w)) =
      if Roomy w max (buf.drop (pos + skip)) then
        .ok ((StreamFrameDecoder.pushLoop c max buf pos skip results).1.map (narrow w),
          (StreamFrameDecoder.pushLoop c max buf pos skip results).2)
      else .error .overflow := by
  obtain ⟨fuel, rfl⟩ : ∃ n, fuel = n + 1 := ⟨fuel - 1, by omega⟩
  fun_induction StreamFrameDecoder.pushLoop c max buf pos skip results generalizing fuel with
  | case1 pos skip results skipped pos' hskip =>
    have hnil : buf.drop (pos + skip) = [] := List.drop_eq_nil_of_le (by omega)
    rw [pushLoop_leave (turn_skip hpos hbuf hskip), hnil, if_pos (roomy_short (by simp))]
  | case2 pos skip results skipped pos' hskip hshort =>
    have hplace : pos + skip = pos' := by omega
    have hlen : (buf.drop pos').length < 4 := by rwa [List.length_drop]
    have hturn : turn w c max buf pos skip = _ := turn_behind hpos hbuf hskip
    rw [turn_short (by omega) hbuf hshort] at hturn
    rw [pushLoop_leave hturn, hplace, if_pos (roomy_short hlen)]
  | case3 pos skip results skipped pos' hskip hlong len hbig ih =>
    have hplace : pos + skip = pos' := by omega
    have hturn : turn w c max buf pos skip = _ := turn_behind hpos hbuf hskip
    rw [turn_long hbuf (show pos' + 4 ≤ buf.length by omega), if_pos hbig] at hturn
    have hroomy : Roomy w max (buf.drop pos') ↔ Roomy w max (buf.drop (pos' + 4 + len)) := by
      have hbehind : pos' + 4 + len = pos' + (4 + len) := by omega
      rw [roomy_long (by rw [List.length_drop]; omega), List.drop_drop, hbehind]
      exact and_iff_right fun h => absurd h (Nat.not_le.mpr hbig)
    obtain ⟨fuel, rfl⟩ : ∃ n, fuel = n + 1 := ⟨fuel - 1, by omega⟩
    have hrest := ih (by omega) fuel (by omega)
    rw [List.map_append] at hrest
    rw [pushLoop_next hturn, hplace, if_congr hroomy rfl rfl]
    exact hrest
  | case4 pos skip results skipped pos' hskip hlong len hsmall hshort =>
    have hplace : pos + skip = pos' := by omega
    have hturn : turn w c max buf pos skip = _ := turn_behind hpos hbuf hskip
    rw [turn_long hbuf (show pos' + 4 ≤ buf.length by omega), if_neg hsmall] at hturn
    have hroomy : Roomy w max (buf.drop pos') ↔ 4 + len < 2 ^ w := by
      rw [roomy_long (by rw [List.length_drop]; omega), List.drop_drop]
      have hnil : buf.drop (pos' + (4 + len)) = [] := List.drop_eq_nil_of_le (by omega)
      rw [show ofBe ((buf.drop pos').take 4) = len from rfl, hnil,
        and_iff_left (roomy_short (by simp))]
      exact ⟨fun h => h (by omega), fun h _ => h⟩
    rw [hplace, if_congr hroomy rfl rfl]
    by_cases hroom : 4 + len < 2 ^ w
    · rw [if_pos hroom, if_pos hshort] at hturn
      rw [pushLoop_leave hturn, if_pos hroom]
    · rw [if_neg hroom] at hturn
      rw [pushLoop_error hturn, if_neg hroom]
  | case5 pos skip results skipped pos' hskip hlong len hsmall hfull ih =>
    have hplace : pos + skip = pos' := by omega
    have hturn : turn w c max buf pos skip = _ := turn_behind hpos hbuf hskip
    have hroom : 4 + len < 2 ^ w := by omega
    rw [turn_long hbuf (show pos' + 4 ≤ buf.length by omega), if_neg hsmall, if_pos hroom,
      if_neg hfull] at hturn
    have hroomy : Roomy w max (buf.drop pos') ↔ Roomy w max (buf.drop (pos' + (4 + len) + 0)) := by
      rw [roomy_long (by rw [List.length_drop]; omega), List.drop_drop]
      exact and_iff_right fun _ => hroom
    obtain ⟨fuel, rfl⟩ : ∃ n, fuel = n + 1 := ⟨fuel - 1, by omega⟩
    have hrest := ih (by omega) fuel (by omega)
    rw [List.map_append, List.map_singleton, narrow_decodePayload] at hrest
    rw [pushLoop_next hturn, hplace, if_congr hroomy rfl rfl]
    exact hrest

theorem push_eq {d : StreamFrameDecoder} {bytes : List UInt8} (hd : 0 < d.skipBytes → d.buf = [])
    (hfit : (d.buf ++ bytes).length < 2 ^ w) :
    push w c d bytes =
      if Roomy w d.maxFrameSize ((d.buf ++ bytes).drop d.skipBytes) then
        .ok ((StreamFrameDecoder.push c d bytes).1.map (narrow w),
          (StreamFrameDecoder.push c d bytes).2)
      else .error .overflow := by
  rw [List.length_append] at hfit
  have hmin : min bytes.length (min d.skipBytes (maxUsize w)) = min bytes.length d.skipBytes := by
    unfold maxUsize
    omega
  have hrest : slice bytes (min bytes.length d.skipBytes) bytes.length =
      .ok (bytes.drop (min bytes.length d.skipBytes)) := by
    rw [slice_ok (Nat.min_le_left _ _) le_rfl]
    congr 1
    exact List.take_of_length_le (by rw [List.length_drop])
  have hplace : (d.buf ++ bytes.drop (min bytes.length d.skipBytes)).drop
      (0 + (d.skipBytes - min bytes.length d.skipBytes)) = (d.buf ++ bytes).drop d.skipBytes := by
    rcases Nat.eq_zero_or_pos d.skipBytes with hzero | hpos
    · simp [hzero]
    · rw [hd hpos, List.nil_append, List.nil_append, List.drop_drop]
      rcases Nat.le_total bytes.length d.skipBytes with hle | hle
      · rw [List.drop_eq_nil_of_le (by omega), List.drop_eq_nil_of_le hle]
      · rw [Nat.min_eq_right hle, Nat.sub_self, Nat.zero_add, Nat.add_zero]
  have hsmall : (d.buf ++ bytes.drop (min bytes.length d.skipBytes)).length < 2 ^ w := by
    rw [List.length_append, List.length_drop]
    omega
  have hloop : pushLoop w c d.maxFrameSize _ _ 0 (d.skipBytes - min bytes.length d.skipBytes) _ = _ :=
    pushLoop_eq hsmall 0 _ [] _ (Nat.zero_le _) (Nat.lt_succ_self _)
  rw [hplace, List.map_nil] at hloop
  rw [push, hmin, hrest, ok_bind]
  dsimp only
  rw [Nat.sub_zero] at hloop
  rw [hloop]
  by_cases hroomy : Roomy w d.maxFrameSize ((d.buf ++ bytes).drop d.skipBytes)
  · rw [if_pos hroomy, if_pos hroomy]
    rfl
  · rw [if_neg hroomy, if_neg hroomy]
    rfl

/-- Between two pushes bytes are skipped only when none are buffered. -/
theorem feed_skipping (max : ℕ) (chunks : List (List UInt8)) :
    let d := (feed (StreamFrameDecoder.push c) (.new max) chunks).2
    d.maxFrameSize = max ∧ (0 < d.skipBytes → d.buf = []) := by
  rw [StreamFrameDecoder.feed_new]
  exact ⟨rfl, (leftover_parseFrames c max chunks.flatten).skipping⟩

/-- Whatever arrives, no push overflows, if and only if the largest length that can be
accepted leaves room for its header. -/
theorem push_never_overflows_iff (hw : 16 ≤ w) :
    (∀ chunks bytes, let d := (feed (StreamFrameDecoder.push c) (.new max) chunks).2
      (d.buf ++ bytes).length < 2 ^ w → ∃ r, push w c d bytes = .ok r) ↔
      4 + min max u32Max < 2 ^ w := by
  have hword : 2 ^ 16 ≤ 2 ^ w := Nat.pow_le_pow_right (by decide) hw
  constructor
  · intro h
    obtain ⟨r, hr⟩ := h [] (be 4 (min max u32Max)) (by simp [feed, StreamFrameDecoder.new]; omega)
    have hlen : ofBe ((be 4 (min max u32Max)).take 4) = min max u32Max := by
      rw [List.take_of_length_le (by simp), ofBe_be]
      have : min max u32Max ≤ 2 ^ 32 - 1 := Nat.min_le_right _ _
      omega
    rw [push_eq (by simp [feed, StreamFrameDecoder.new])
      (by simp [feed, StreamFrameDecoder.new]; omega)] at hr
    split_ifs at hr with hroomy
    have hfirst := (roomy_long (by simp [feed, StreamFrameDecoder.new])).mp hroomy
    simp only [feed, StreamFrameDecoder.new, List.nil_append, List.drop_zero, hlen] at hfirst
    exact hfirst.1 (Nat.min_le_left _ _)
  · intro h chunks bytes d hfit
    obtain ⟨hmax, hskip⟩ := feed_skipping (c := c) max chunks
    rw [push_eq hskip hfit, if_pos]
    · exact ⟨_, rfl⟩
    · intro len hlen hle
      have hsmall := announced_lt hlen
      rw [hmax] at hle
      have : u32Max = 2 ^ 32 - 1 := rfl
      omega

end Machine

/-- The most bytes that COBS needs for `n` bytes. -/
def cobsBound (n : ℕ) : ℕ := n + (n + 253) / 254

theorem cobsBound_mono {m n : ℕ} (h : m ≤ n) : cobsBound m ≤ cobsBound n := by
  unfold cobsBound
  omega

namespace Machine

variable {w max : ℕ}

theorem maxEncodingLength_eq (n : ℕ) :
    maxEncodingLength w n = if cobsBound n < 2 ^ w then .ok (cobsBound n) else .error .overflow := by
  have hround : n / 254 + (if n % 254 > 0 then 1 else 0) = (n + 253) / 254 := by
    split_ifs <;> omega
  have hsum : n + n / 254 + (if n % 254 > 0 then 1 else 0) = cobsBound n := by
    rw [Nat.add_assoc, hround, cobsBound]
  unfold maxEncodingLength
  by_cases hfirst : n + n / 254 < 2 ^ w
  · rw [add_ok hfirst, ok_bind, add, hsum]
  · rw [add_overflow hfirst, error_bind, if_neg (by omega)]

/-- The on-wire limit is computed, or it does not fit into the word. -/
theorem maxWireSize_eq (hw : 16 ≤ w) (hmax : max < 2 ^ w) :
    maxWireSize w max =
      if cobsBound (max + 2) < 2 ^ w then .ok (cobsBound (max + 2)) else .error .overflow := by
  have hword : 2 ^ 16 ≤ 2 ^ w := Nat.pow_le_pow_right (by decide) hw
  rw [maxWireSize, maxEncodingLength_eq]
  by_cases hle : max + 2 ≤ maxUsize w
  · rw [Nat.min_eq_left hle]
  · unfold maxUsize at hle
    have hsat : min (max + 2) (maxUsize w) = maxUsize w := Nat.min_eq_right (by unfold maxUsize; omega)
    have hbound : ¬ cobsBound (maxUsize w) < 2 ^ w := by
      unfold cobsBound maxUsize
      omega
    rw [hsat, if_neg hbound, if_neg]
    unfold cobsBound
    omega

end Machine

open Machine in
/-- At a word size the decoders compute what they should, for the input at hand: no
push overflows if and only if no accepted length is too large for its header, and
the on-wire limit is there and lets every accepted frame through if and only if
the worst-case encoding fits into the word. -/
theorem codec_arithmetic_iff {w max : ℕ} (hw : w = 16 ∨ w = 32 ∨ w = 64) (hmax : max < 2 ^ w)
    (c : Cbor OtkEnvelope) (k : Cobs)
    (hk : ∀ data, (k.encode data).length ≤ cobsBound data.length) (chunks : List (List UInt8))
    (bytes : List UInt8) :
    let d := (feed (StreamFrameDecoder.push c) (.new max) chunks).2
    (d.buf ++ bytes).length < 2 ^ w →
      (((∃ r, push w c d bytes = .ok r) ∧
          ∃ wire, maxWireSize w max = .ok wire ∧ ∀ envelope frame,
            encodeSerial c k envelope max = .ok frame → frame.length ≤ wire + 1) ↔
        Roomy w max ((d.buf ++ bytes).drop d.skipBytes) ∧ cobsBound (max + 2) < 2 ^ w) := by
  intro d hfit
  obtain ⟨hsize, hskip⟩ := feed_skipping (c := c) max chunks
  have hpush : (∃ r, push w c d bytes = .ok r) ↔
      Roomy w max ((d.buf ++ bytes).drop d.skipBytes) := by
    rw [push_eq hskip hfit, hsize]
    split_ifs with hroomy
    · exact iff_of_true ⟨_, rfl⟩ hroomy
    · exact iff_of_false (by simp) hroomy
  have hwire : (∃ wire, maxWireSize w max = .ok wire ∧ ∀ envelope frame,
      encodeSerial c k envelope max = .ok frame → frame.length ≤ wire + 1) ↔
        cobsBound (max + 2) < 2 ^ w := by
    rw [maxWireSize_eq (by omega) hmax]
    split_ifs with hbound
    · refine iff_of_true ⟨_, rfl, fun envelope frame hframe => ?_⟩ hbound
      obtain ⟨payload, -, hlen, rfl⟩ := SerialFrameDecoder.encodeSerial_eq_ok hframe
      have henc := hk (withCrc payload)
      have hmono := cobsBound_mono (m := payload.length + 2) (n := max + 2) (by omega)
      rw [length_withCrc] at henc
      rw [List.length_append, List.length_singleton]
      omega
    · exact iff_of_false (by simp) hbound
  rw [hpush, hwire]

theorem disconnectCobs_bounded (data : List UInt8) :
    (disconnectCobs.encode data).length ≤ cobsBound data.length := by
  simp only [disconnectCobs, withCrc_disconnect]
  split_ifs with h
  · subst h
    decide
  · exact Nat.zero_le _

/-- A fresh decoder with the default limit on 64 bits. -/
theorem codec_arithmetic_iff_sample :
    (∃ r, Machine.push 64 disconnectCodec (.new 65535) [0, 0, 0xFF, 0xFD] = .ok r) ∧
      ∃ wire, Machine.maxWireSize 64 65535 = .ok wire ∧ ∀ envelope frame,
        encodeSerial disconnectCodec disconnectCobs envelope 65535 = .ok frame →
          frame.length ≤ wire + 1 :=
  have hroomy : Roomy 64 65535 [0, 0, 0xFF, 0xFD] :=
    (roomy_long (by decide)).mpr ⟨fun _ => by decide, roomy_short (by decide)⟩
  (codec_arithmetic_iff (by decide) (by decide) disconnectCodec disconnectCobs
    disconnectCobs_bounded [] [0, 0, 0xFF, 0xFD] (by decide)).mpr ⟨hroomy, by decide⟩

/-- On 16 bits with the default limit, and on 32 bits with the largest one, a header
overflows the decoder; on 16 bits the default limit has no on-wire limit. -/
theorem codec_overflows :
    Machine.push 16 disconnectCodec (.new defaultMaxFrameSize) [0, 0, 0xFF, 0xFD] =
        .error .overflow ∧
      Machine.maxWireSize 16 defaultMaxFrameSize = .error .overflow ∧
      Machine.push 32 disconnectCodec (.new (2 ^ 32 - 1)) [0xFF, 0xFF, 0xFF, 0xFD] =
        .error .overflow := by
  exact ⟨rfl, rfl, rfl⟩

end OtkCore.FrameCodec
