import OtkCore.FrameCodec.Stream

/-!
# Serial frames

Frames of an unreliable transport: COBS of the CBOR payload and its CRC-16,
ended by a zero byte. The COBS pair comes from another crate and is a parameter
(`Cobs`). The decoder works byte by byte; what it yields is read off the runs of
bytes between the zeros.
-/
namespace OtkCore.FrameCodec

open Bytes Decoding

def usizeMax : ℕ := 2 ^ 64 - 1

/-- What the decoder and the encoder take from the COBS crate. Decoding gets a
target as long as its input. -/
structure Cobs where
  maxEncodingLength : ℕ → ℕ
  encode : List UInt8 → List UInt8
  decode : List UInt8 → Option (List UInt8)

namespace Cobs

/-- The pair is correct at `data`. -/
structure CorrectAt (k : Cobs) (data : List UInt8) : Prop where
  zero_free : 0 ∉ k.encode data
  length_le : (k.encode data).length ≤ k.maxEncodingLength data.length
  decode_encode : k.decode (k.encode data) = some data

/-- No decoding is longer than its input, and longer data may need longer
encodings. -/
structure Sized (k : Cobs) : Prop where
  decode_length_le : ∀ bytes data, k.decode bytes = some data → data.length ≤ bytes.length
  monotone : ∀ m n, m ≤ n → k.maxEncodingLength m ≤ k.maxEncodingLength n

end Cobs

def crc16Bit (crc : UInt16) : UInt16 :=
  if crc &&& 0x8000 ≠ 0 then (crc <<< 1) ^^^ 0x1021 else crc <<< 1

def crc16Byte (crc : UInt16) (byte : UInt8) : UInt16 :=
  Nat.repeat crc16Bit 8 (crc ^^^ (byte.toUInt16 <<< 8))

def crc16CcittFalse (data : List UInt8) : UInt16 := data.foldl crc16Byte 0xFFFF

def withCrc (payload : List UInt8) : List UInt8 :=
  payload ++ be 2 (crc16CcittFalse payload).toNat

@[simp] theorem length_withCrc (payload : List UInt8) :
    (withCrc payload).length = payload.length + 2 := by
  simp [withCrc]

section Codec

variable (c : Cbor OtkEnvelope) (k : Cobs)

def encodeSerial (envelope : OtkEnvelope) (maxFrameSize : ℕ) : Except FrameError (List UInt8) :=
  match c.encode envelope with
  | .error _ => .error .encodeFailed
  | .ok payload =>
    if payload.length > maxFrameSize then
      .error (.oversizeFrame (some payload.length) maxFrameSize)
    else .ok (k.encode (withCrc payload) ++ [0])

/-- The source's scratch buffer is overwritten by every decoding and is left
out. -/
structure SerialFrameDecoder where
  buf : List UInt8
  maxFrameSize : ℕ
  maxWireSize : ℕ
  discarding : Bool
  deriving DecidableEq

namespace SerialFrameDecoder

def hasPending (d : SerialFrameDecoder) : Bool := !d.buf.isEmpty || d.discarding

def new (maxFrameSize : ℕ) : SerialFrameDecoder :=
  ⟨[], maxFrameSize, k.maxEncodingLength (min (maxFrameSize + 2) usizeMax), false⟩

/-- The result of a frame ended by its delimiter. -/
def finish (maxFrameSize : ℕ) (buf : List UInt8) : FrameResult :=
  match k.decode buf with
  | none => .error .lostSync
  | some decoded =>
    if decoded.length < 2 then .error .corruptFrame
    else
      let payload := decoded.take (decoded.length - 2)
      if (crc16CcittFalse payload).toNat ≠ ofBe (decoded.drop (decoded.length - 2)) then
        .error .corruptFrame
      else if payload.length > maxFrameSize then
        .error (.oversizeFrame (some payload.length) maxFrameSize)
      else decodePayload c payload

def pushByte (d : SerialFrameDecoder) (b : UInt8) : List FrameResult × SerialFrameDecoder :=
  if b = 0 then
    if d.buf.isEmpty then ([], { d with discarding := false })
    else ([finish c k d.maxFrameSize d.buf], { d with buf := [], discarding := false })
  else if d.discarding then ([], d)
  else if d.buf.length ≥ d.maxWireSize then
    ([.error (.oversizeFrame none d.maxFrameSize)], { d with buf := [], discarding := true })
  else ([], { d with buf := d.buf ++ [b] })

def push : SerialFrameDecoder → List UInt8 → List FrameResult × SerialFrameDecoder :=
  passes (pushByte c k)

end SerialFrameDecoder

end Codec

/-- The nonempty runs that a zero ends, and the run that is still open; `run`
is what has been read of the first one. -/
def splitRuns : List UInt8 → List UInt8 → List (List UInt8) × List UInt8
  | run, [] => ([], run)
  | run, b :: bytes =>
    if b = 0 then
      ((if run = [] then [] else [run]) ++ (splitRuns [] bytes).1, (splitRuns [] bytes).2)
    else splitRuns (run ++ [b]) bytes

namespace SerialFrameDecoder

section Runs

variable (c : Cbor OtkEnvelope) (k : Cobs) (m : ℕ)

/-- The on-wire limit of a decoder for payloads of `m` bytes. -/
def wireSize : ℕ := k.maxEncodingLength (min (m + 2) usizeMax)

def runResult (run : List UInt8) : FrameResult :=
  if wireSize k m < run.length then .error (.oversizeFrame none m) else finish c k m run

def openResults (run : List UInt8) : List FrameResult :=
  if wireSize k m < run.length then [.error (.oversizeFrame none m)] else []

/-- The state of a decoder that has read `run` since the last zero. -/
def stateAt (run : List UInt8) : SerialFrameDecoder :=
  if wireSize k m < run.length then ⟨[], m, wireSize k m, true⟩ else ⟨run, m, wireSize k m, false⟩

theorem stateAt_nil : stateAt k m [] = new k m := by
  simp [stateAt, new, wireSize]

theorem openResults_nil : openResults k m [] = [] := by
  simp [openResults]

theorem openResults_length_le (run : List UInt8) : (openResults k m run).length ≤ 1 := by
  unfold openResults
  split <;> simp

theorem stateAt_invariant (run : List UInt8) :
    (stateAt k m run).buf.length ≤ (stateAt k m run).maxWireSize ∧
      ((stateAt k m run).discarding = true → (stateAt k m run).buf = []) := by
  unfold stateAt
  split
  · simp
  · rename_i h
    exact ⟨Nat.not_lt.mp h, by simp⟩

theorem pushByte_zero (run : List UInt8) :
    openResults k m run ++ (pushByte c k (stateAt k m run) 0).1 =
        (if run = [] then [] else [run]).map (runResult c k m) ∧
      (pushByte c k (stateAt k m run) 0).2 = stateAt k m [] := by
  by_cases hlong : wireSize k m < run.length
  · have hne : run ≠ [] := by
      rintro rfl
      simp at hlong
    simp [openResults, stateAt, runResult, pushByte, hlong, hne]
  · by_cases hne : run = []
    · simp [openResults, stateAt, pushByte, hne]
    · simp [openResults, stateAt, runResult, pushByte, hlong, hne]

theorem pushByte_of_ne {b : UInt8} (hb : b ≠ 0) (run : List UInt8) :
    openResults k m run ++ (pushByte c k (stateAt k m run) b).1 = openResults k m (run ++ [b]) ∧
      (pushByte c k (stateAt k m run) b).2 = stateAt k m (run ++ [b]) := by
  by_cases hlong : wireSize k m < run.length
  · have hlong' : wireSize k m < run.length + 1 := by omega
    simp [openResults, stateAt, pushByte, hlong, hlong', hb]
  · by_cases hfull : wireSize k m ≤ run.length
    · have hlong' : wireSize k m < run.length + 1 := by omega
      simp [openResults, stateAt, pushByte, hlong, hlong', hb, hfull]
    · have hshort : ¬ wireSize k m < run.length + 1 := by omega
      simp [openResults, stateAt, pushByte, hlong, hshort, hb, hfull]

/-- The decoder yields one result for each run that ends, in order. -/
theorem push_stateAt (run bytes : List UInt8) :
    openResults k m run ++ (push c k (stateAt k m run) bytes).1 =
        (splitRuns run bytes).1.map (runResult c k m) ++ openResults k m (splitRuns run bytes).2 ∧
      (push c k (stateAt k m run) bytes).2 = stateAt k m (splitRuns run bytes).2 := by
  induction bytes generalizing run with
  | nil => simp [splitRuns, push, passes]
  | cons b bytes ih =>
    rw [push, passes_cons, ← List.append_assoc]
    by_cases hb : b = 0
    · subst hb
      obtain ⟨hres, hstate⟩ := pushByte_zero c k m run
      obtain ⟨hres', hstate'⟩ := ih []
      rw [openResults_nil, List.nil_append] at hres'
      rw [hres, hstate, splitRuns, if_pos rfl, ← push, hres', hstate', List.map_append,
        List.append_assoc]
      exact ⟨rfl, rfl⟩
    · obtain ⟨hres, hstate⟩ := pushByte_of_ne c k m hb run
      rw [hres, hstate, splitRuns, if_neg hb]
      exact ih (run ++ [b])

theorem incremental_push : Incremental (push c k) (fun _ => True) :=
  incremental_passes (pushByte c k) fun _ _ _ => trivial

theorem feed_stateAt (run : List UInt8) (chunks : List (List UInt8)) :
    feed (push c k) (stateAt k m run) chunks = push c k (stateAt k m run) chunks.flatten :=
  (incremental_push c k).feed_eq trivial chunks

theorem feed_new_state (garbage : List (List UInt8)) :
    ∃ run, (feed (push c k) (new k m) garbage).2 = stateAt k m run := by
  rw [← stateAt_nil, feed_stateAt]
  exact ⟨_, (push_stateAt c k m [] garbage.flatten).2⟩

end Runs

section RoundTrip

variable {c : Cbor OtkEnvelope} {k : Cobs} {m : ℕ}

theorem splitRuns_zero_free {bytes : List UInt8} (h : 0 ∉ bytes) (run rest : List UInt8) :
    splitRuns run (bytes ++ rest) = splitRuns (run ++ bytes) rest := by
  induction bytes generalizing run with
  | nil => simp
  | cons b bytes ih =>
    rw [List.mem_cons, not_or] at h
    rw [List.cons_append, splitRuns, if_neg (Ne.symm h.1), ih h.2, List.append_assoc,
      List.singleton_append]

theorem finish_encoded {payload : List UInt8} (hk : k.CorrectAt (withCrc payload))
    (hm : payload.length ≤ m) :
    finish c k m (k.encode (withCrc payload)) = decodePayload c payload := by
  have hlen : (withCrc payload).length - 2 = payload.length := by simp
  have htake : (withCrc payload).take payload.length = payload := by simp [withCrc]
  have hdrop : (withCrc payload).drop payload.length =
      be 2 (crc16CcittFalse payload).toNat := by simp [withCrc]
  have hcrc : ofBe (be 2 (crc16CcittFalse payload).toNat) = (crc16CcittFalse payload).toNat :=
    ofBe_be (crc16CcittFalse payload).toNat_lt
  rw [finish, hk.decode_encode]
  simp only [hlen, htake, hdrop, hcrc, ne_eq, not_true_eq_false, if_false, gt_iff_lt]
  rw [if_neg (by simp), if_neg (Nat.not_lt.mpr hm)]

/-- The run of an encoded frame is nonempty, within the limit, and decodes. -/
theorem runResult_encoded (hc : c.Inverts) (hk : k.Sized) (hm : m + 2 ≤ usizeMax)
    {envelope : OtkEnvelope} {payload : List UInt8} (henc : c.encode envelope = .ok payload)
    (hlen : payload.length ≤ m) (hcorrect : k.CorrectAt (withCrc payload)) :
    k.encode (withCrc payload) ≠ [] ∧
      runResult c k m (k.encode (withCrc payload)) = .ok envelope := by
  have hlow := hk.decode_length_le _ _ hcorrect.decode_encode
  rw [length_withCrc] at hlow
  have hhigh : (k.encode (withCrc payload)).length ≤ wireSize k m := by
    rw [wireSize, Nat.min_eq_left hm]
    exact hcorrect.length_le.trans (hk.monotone _ _ (by simpa using hlen))
  refine ⟨by rintro hnil; simp [hnil] at hlow, ?_⟩
  rw [runResult, if_neg (Nat.not_lt.mpr hhigh), finish_encoded hcorrect hlen, decodePayload,
    hc _ _ henc]
  rfl

theorem encodeSerial_eq_ok {envelope : OtkEnvelope} {frame : List UInt8}
    (h : encodeSerial c k envelope m = .ok frame) :
    ∃ payload, c.encode envelope = .ok payload ∧ payload.length ≤ m ∧
      frame = k.encode (withCrc payload) ++ [0] := by
  unfold encodeSerial at h
  cases hp : c.encode envelope with
  | error e => simp [hp] at h
  | ok payload =>
    simp only [hp] at h
    split_ifs at h with hbig
    injection h with h
    exact ⟨payload, rfl, Nat.not_lt.mp hbig, h.symm⟩

theorem splitRuns_encoded (hc : c.Inverts) (hk : k.Sized) (hm : m + 2 ≤ usizeMax)
    {envelopes : List OtkEnvelope} {frames : List (List UInt8)}
    (hframes : List.Forall₂ (fun e f => encodeSerial c k e m = .ok f) envelopes frames)
    (hcorrect : ∀ e ∈ envelopes, ∀ payload, c.encode e = .ok payload →
      k.CorrectAt (withCrc payload)) :
    (splitRuns [] frames.flatten).1.map (runResult c k m) = envelopes.map .ok ∧
      (splitRuns [] frames.flatten).2 = [] := by
  induction hframes with
  | nil => simp [splitRuns]
  | @cons envelope frame envelopes frames hhead htail ih =>
    obtain ⟨payload, henc, hlen, rfl⟩ := encodeSerial_eq_ok hhead
    have hat := hcorrect envelope List.mem_cons_self payload henc
    obtain ⟨hne, hres⟩ := runResult_encoded hc hk hm henc hlen hat
    obtain ⟨ih1, ih2⟩ := ih fun e he => hcorrect e (List.mem_cons_of_mem _ he)
    rw [List.flatten_cons, List.append_assoc, splitRuns_zero_free hat.zero_free, List.nil_append,
      List.singleton_append, splitRuns, if_pos rfl, if_neg hne]
    refine ⟨?_, ih2⟩
    rw [List.map_append, ih1, List.map_singleton, hres]
    rfl

end RoundTrip

end SerialFrameDecoder

open SerialFrameDecoder in
/-- For any bytes and any cutting, the decoder yields exactly one result for
each nonempty run that a zero ends, and at most one early result for the open
run; the buffer stays within the wire limit and is empty while discarding. From
every reachable state, a zero followed by encoded frames yields at most one
result for the leftover data and then the envelopes. -/
theorem serialFrameDecoder_resynchronises (c : Cbor OtkEnvelope) (k : Cobs) (m : ℕ)
    (garbage : List (List UInt8)) :
    let d := (feed (push c k) (new k m) garbage).2
    ((feed (push c k) (new k m) garbage).1 =
        (splitRuns [] garbage.flatten).1.map (runResult c k m) ++
          openResults k m (splitRuns [] garbage.flatten).2) ∧
      (openResults k m (splitRuns [] garbage.flatten).2).length ≤ 1 ∧
      d.buf.length ≤ d.maxWireSize ∧ (d.discarding = true → d.buf = []) ∧
      (m + 2 ≤ usizeMax → c.Inverts → k.Sized → ∀ envelopes frames chunks,
        (∀ e ∈ envelopes, ∀ payload, c.encode e = .ok payload → k.CorrectAt (withCrc payload)) →
        List.Forall₂ (fun e f => encodeSerial c k e m = .ok f) envelopes frames →
        chunks.flatten = 0 :: frames.flatten →
        ∃ leftover, leftover.length ≤ 1 ∧
          feed (push c k) d chunks = (leftover ++ envelopes.map .ok, new k m)) := by
  intro d
  obtain ⟨run, hrun⟩ := feed_new_state c k m garbage
  have hinv := stateAt_invariant k m run
  have hall := push_stateAt c k m [] garbage.flatten
  refine ⟨?_, openResults_length_le k m _, ?_, ?_, ?_⟩
  · rw [← stateAt_nil, feed_stateAt, ← hall.1, openResults_nil, List.nil_append]
  · simp only [d, hrun]
    exact hinv.1
  · simp only [d, hrun]
    exact hinv.2
  · intro hm hc hk envelopes frames chunks hcorrect hframes hbytes
    obtain ⟨hfirst, hclean⟩ := pushByte_zero c k m run
    obtain ⟨hruns, hopen⟩ := splitRuns_encoded hc hk hm hframes hcorrect
    obtain ⟨hrest, hend⟩ := push_stateAt c k m [] frames.flatten
    rw [openResults_nil, List.nil_append, hruns, hopen, openResults_nil, List.append_nil] at hrest
    refine ⟨(pushByte c k (stateAt k m run) 0).1, ?_, ?_⟩
    · have hle := congrArg List.length hfirst
      rw [List.length_append] at hle
      have : ((if run = [] then [] else [run]).map (runResult c k m)).length ≤ 1 := by
        split <;> simp
      omega
    · simp only [d, hrun]
      rw [feed_stateAt, hbytes, push, passes_cons, hclean, ← push, hrest, hend, hopen, stateAt_nil]

def disconnectFrame : List UInt8 := [0x02, 0x83, 0x08, 0x82, 0x06, 0x80, 0x61, 0x70, 0xbe, 0xa9]

/-- The COBS pair at the one frame of `disconnectEnvelope`, with the documented
worst-case overhead of one byte in 254. -/
def disconnectCobs : Cobs where
  maxEncodingLength n := n + (n + 253) / 254
  encode data :=
    if data = withCrc [0x83, 0x00, 0x82, 0x06, 0x80, 0x61, 0x70] then disconnectFrame else []
  decode bytes :=
    if bytes = disconnectFrame then some (withCrc [0x83, 0x00, 0x82, 0x06, 0x80, 0x61, 0x70]) else none

theorem withCrc_disconnect : withCrc [0x83, 0x00, 0x82, 0x06, 0x80, 0x61, 0x70] =
    [0x83, 0x00, 0x82, 0x06, 0x80, 0x61, 0x70, 0xbe, 0xa9] := by
  decide +kernel

/-- Three stray bytes, a zero, and two frames in one push. -/
theorem serialFrameDecoder_resynchronises_two_frames :
    ∃ leftover, leftover.length ≤ 1 ∧
      feed (SerialFrameDecoder.push disconnectCodec disconnectCobs)
          (feed (SerialFrameDecoder.push disconnectCodec disconnectCobs)
            (.new disconnectCobs 16) [[7, 7], [7]]).2
          [0 :: disconnectFrame ++ [0] ++ disconnectFrame ++ [0]] =
        (leftover ++ [.ok disconnectEnvelope, .ok disconnectEnvelope], .new disconnectCobs 16) := by
  have hsized : disconnectCobs.Sized := by
    refine ⟨?_, ?_⟩
    · intro bytes data h
      simp only [disconnectCobs, withCrc_disconnect] at h
      split_ifs at h with hb
      simp only [Option.some.injEq] at h
      subst hb
      subst h
      decide
    · intro m n h
      simp only [disconnectCobs]
      omega
  have hat : disconnectCobs.CorrectAt (withCrc [0x83, 0x00, 0x82, 0x06, 0x80, 0x61, 0x70]) := by
    refine ⟨?_, ?_, ?_⟩ <;> simp [disconnectCobs, disconnectFrame, withCrc_disconnect]
  have henc : encodeSerial disconnectCodec disconnectCobs disconnectEnvelope 16 =
      .ok (disconnectFrame ++ [0]) := by
    have hpay : disconnectCodec.encode disconnectEnvelope =
        .ok [0x83, 0x00, 0x82, 0x06, 0x80, 0x61, 0x70] := rfl
    simp [encodeSerial, hpay, disconnectCobs]
  have hpay : ∀ payload, disconnectCodec.encode disconnectEnvelope = .ok payload →
      payload = [0x83, 0x00, 0x82, 0x06, 0x80, 0x61, 0x70] := by
    intro payload h
    exact (Except.ok.inj h).symm
  refine (serialFrameDecoder_resynchronises disconnectCodec disconnectCobs 16
    [[7, 7], [7]]).2.2.2.2 (by decide) disconnectCodec_inverts hsized
    [disconnectEnvelope, disconnectEnvelope] [disconnectFrame ++ [0], disconnectFrame ++ [0]] _ ?_
    (.cons henc (.cons henc .nil)) rfl
  intro e he payload h
  have hdis : e = disconnectEnvelope := by simpa using he
  subst hdis
  rw [hpay payload h]
  exact hat

end OtkCore.FrameCodec
