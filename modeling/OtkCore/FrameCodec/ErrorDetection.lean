import OtkCore.FrameCodec.Serial
import OtkCore.Lib.ShiftRegister

/-!
# Errors that the checksum detects

The bitwise loop of the CRC is a linear feedback shift register fed with the
bytes of the data, most significant bit first. A payload followed by its checksum
leaves the register empty, so an error is detected exactly when the register, fed
with the error pattern alone, is not empty.
-/
namespace OtkCore.FrameCodec

open Bytes ShiftRegister

def bitsOfByte (byte : UInt8) : List Bool := (List.range 8).map fun i => byte.toBitVec.getMsbD i

def bitsOf (bytes : List UInt8) : List Bool := bytes.flatMap bitsOfByte

/-- The feedback of the register: the polynomial without its leading term. -/
def crcPoly : BitVec 16 := 0x1021#16

@[simp] theorem length_bitsOfByte (byte : UInt8) : (bitsOfByte byte).length = 8 := by
  simp [bitsOfByte]

theorem bitsOf_cons (byte : UInt8) (bytes : List UInt8) :
    bitsOf (byte :: bytes) = bitsOfByte byte ++ bitsOf bytes := rfl

theorem bitsOf_append (xs ys : List UInt8) : bitsOf (xs ++ ys) = bitsOf xs ++ bitsOf ys :=
  List.flatMap_append

theorem length_bitsOf (bytes : List UInt8) : (bitsOf bytes).length = 8 * bytes.length := by
  induction bytes with
  | nil => rfl
  | cons byte bytes ih =>
    rw [bitsOf_cons, List.length_append, ih, length_bitsOfByte, List.length_cons]
    ring

theorem crc16Bit_toBitVec (crc : UInt16) :
    (crc16Bit crc).toBitVec = shift crcPoly crc.toBitVec := by
  have htop : (crc &&& 0x8000 ≠ 0) ↔ crc.toBitVec.msb = true := by
    have hmask : (crc &&& 0x8000).toBitVec = crc.toBitVec &&& BitVec.twoPow 16 15 := rfl
    rw [ne_eq, ← UInt16.toBitVec_inj, hmask, BitVec.and_twoPow, BitVec.msb_eq_getLsbD_last]
    cases crc.toBitVec.getLsbD (16 - 1) <;> decide
  unfold crc16Bit shift
  by_cases h : crc.toBitVec.msb = true
  · rw [if_pos (htop.mpr h), if_pos h]
    rfl
  · rw [if_neg (htop.not.mpr h), if_neg h]
    rfl

theorem crc16Bits_toBitVec (n : ℕ) (crc : UInt16) :
    (Nat.repeat crc16Bit n crc).toBitVec = (shift crcPoly)^[n] crc.toBitVec := by
  induction n with
  | zero => rfl
  | succ n ih => rw [Nat.repeat, crc16Bit_toBitVec, ih, Function.iterate_succ_apply']

theorem place_bitsOfByte (byte : UInt8) :
    place 16 (bitsOfByte byte) = byte.toBitVec.setWidth 16 <<< 8 := by
  have hall : ∀ b : BitVec 8, place 16 ((List.range 8).map fun i => b.getMsbD i) =
      b.setWidth 16 <<< 8 := by decide +kernel
  exact hall byte.toBitVec

theorem crc16Byte_toBitVec (crc : UInt16) (byte : UInt8) :
    (crc16Byte crc byte).toBitVec = run crcPoly crc.toBitVec (bitsOfByte byte) := by
  rw [run_eq_iterate (by simp), length_bitsOfByte, place_bitsOfByte, crc16Byte, crc16Bits_toBitVec]
  rfl

theorem foldl_crc16Byte (crc : UInt16) (data : List UInt8) :
    (data.foldl crc16Byte crc).toBitVec = run crcPoly crc.toBitVec (bitsOf data) := by
  induction data generalizing crc with
  | nil => rfl
  | cons byte data ih =>
    rw [List.foldl_cons, ih, crc16Byte_toBitVec, bitsOf_cons, run_append]

/-- The two checksum bytes fill the register with the checksum. -/
theorem place_be (crc : UInt16) : place 16 (bitsOf (be 2 crc.toNat)) = crc.toBitVec := by
  have hbytes : bitsOf (be 2 crc.toNat) =
      bitsOfByte (UInt8.ofNat (crc.toNat / 256)) ++ bitsOfByte (UInt8.ofNat crc.toNat) := by
    rw [← List.append_nil (bitsOfByte (UInt8.ofNat crc.toNat))]
    rfl
  have hhigh : (UInt8.ofNat (crc.toNat / 256)).toBitVec = (crc.toBitVec >>> 8).setWidth 8 := by
    apply BitVec.eq_of_toNat_eq
    simp [Nat.shiftRight_eq_div_pow]
  have hlow : (UInt8.ofNat crc.toNat).toBitVec = crc.toBitVec.setWidth 8 := by
    apply BitVec.eq_of_toNat_eq
    simp
  rw [hbytes, place_append, length_bitsOfByte, place_bitsOfByte, place_bitsOfByte, hhigh, hlow]
  ext i hi
  by_cases h : i < 8
  · have hsum : 8 + i < 16 := by omega
    simp [h, hi, hsum]
  · have hadd : 8 + (i - 8) = i := by omega
    have hdiff : i - 8 < 8 := by omega
    simp [h, hadd, hdiff, BitVec.getLsbD_eq_getElem hi]

theorem run_withCrc (payload : List UInt8) :
    run crcPoly 0xFFFF#16 (bitsOf (withCrc payload)) = 0#16 := by
  have hcrc : run crcPoly 0xFFFF#16 (bitsOf payload) = (crc16CcittFalse payload).toBitVec :=
    (foldl_crc16Byte 0xFFFF payload).symm
  rw [withCrc, bitsOf_append, run_append, hcrc, run_eq_iterate (by simp [length_bitsOf]), place_be,
    BitVec.xor_self]
  exact Function.iterate_fixed shift_zero _

/-- The checksum that the decoder computes agrees with the one it has received. -/
def Checks (decoded : List UInt8) : Prop :=
  (crc16CcittFalse (decoded.take (decoded.length - 2))).toNat =
    ofBe (decoded.drop (decoded.length - 2))

theorem Checks.eq_withCrc {decoded : List UInt8} (h : Checks decoded) (hlen : 2 ≤ decoded.length) :
    decoded = withCrc (decoded.take (decoded.length - 2)) := by
  have hdrop : (decoded.drop (decoded.length - 2)).length = 2 := by
    rw [List.length_drop]
    omega
  have hback := be_ofBe (decoded.drop (decoded.length - 2))
  rw [hdrop, ← h] at hback
  rw [withCrc, hback, List.take_append_drop]

/-- The bytes as they arrive after the error `error`. -/
def corrupt (bytes error : List UInt8) : List UInt8 := List.zipWith (· ^^^ ·) bytes error

theorem bitsOfByte_xor (x y : UInt8) :
    bitsOfByte (x ^^^ y) = List.zipWith (· ^^ ·) (bitsOfByte x) (bitsOfByte y) := by
  simp [bitsOfByte, List.range_succ]

theorem bitsOf_corrupt {bytes error : List UInt8} (h : bytes.length = error.length) :
    bitsOf (corrupt bytes error) = List.zipWith (· ^^ ·) (bitsOf bytes) (bitsOf error) := by
  induction bytes generalizing error with
  | nil => rfl
  | cons b bytes ih =>
    cases error with
    | nil => simp at h
    | cons e error =>
      rw [corrupt, List.zipWith_cons_cons, bitsOf_cons, bitsOfByte_xor, ← corrupt,
        ih (Nat.succ.inj h), bitsOf_cons, bitsOf_cons, List.zipWith_append]
      simp

theorem true_mem_bitsOf {bytes : List UInt8} (h : ∃ b ∈ bytes, b ≠ 0) : true ∈ bitsOf bytes := by
  obtain ⟨b, hb, hne⟩ := h
  refine List.mem_flatMap.mpr ⟨b, hb, ?_⟩
  by_contra hnone
  have hfalse : ∀ i < 8, b.toBitVec.getMsbD i = false := by
    intro i hi
    by_contra hbit
    refine hnone (List.mem_map.mpr ⟨i, List.mem_range.mpr hi, ?_⟩)
    simpa using hbit
  refine hne (UInt8.toBitVec_inj.mp (BitVec.eq_of_getMsbD_eq fun i hi => ?_))
  rw [hfalse i hi]
  simp

/-- Every error within 16 consecutive bits and every error of an odd number of bits
fails the check. -/
theorem corrupt_not_checks {payload error : List UInt8}
    (hlen : error.length = (withCrc payload).length) (hne : ∃ b ∈ error, b ≠ 0)
    (herror : Burst 16 (bitsOf error) ∨ Odd ((bitsOf error).count true)) :
    ¬ Checks (corrupt (withCrc payload) error) := by
  intro hchecks
  have hsize : 2 ≤ (corrupt (withCrc payload) error).length := by
    rw [corrupt, List.length_zipWith, hlen, Nat.min_self, length_withCrc]
    omega
  have hbits : (bitsOf (withCrc payload)).length = (bitsOf error).length := by
    rw [length_bitsOf, length_bitsOf, hlen]
  have hempty := run_withCrc ((corrupt (withCrc payload) error).take
    ((corrupt (withCrc payload) error).length - 2))
  have hrun := run_xor (p := crcPoly) hbits 0xFFFF#16 0#16
  rw [← hchecks.eq_withCrc hsize, bitsOf_corrupt hlen.symm] at hempty
  rw [BitVec.xor_zero, hempty, run_withCrc, BitVec.zero_xor] at hrun
  rcases herror with hburst | hodd
  · exact run_burst_ne_zero (by decide) hburst (true_mem_bitsOf hne) hrun.symm
  · exact run_odd_ne_zero (by decide) (by decide) hodd hrun.symm

/-- A frame whose payload and checksum have suffered such an error is reported as
corrupt. -/
theorem serialFrameDecoder_detects (c : Cbor OtkEnvelope) (k : Cobs) (m : ℕ)
    {payload error : List UInt8} (hlen : error.length = (withCrc payload).length)
    (hne : ∃ b ∈ error, b ≠ 0)
    (herror : Burst 16 (bitsOf error) ∨ Odd ((bitsOf error).count true)) :
    let received := corrupt (withCrc payload) error
    (crc16CcittFalse (received.take (received.length - 2))).toNat ≠
        ofBe (received.drop (received.length - 2)) ∧
      ∀ buf, k.decode buf = some received →
        SerialFrameDecoder.finish c k m buf = .error .corruptFrame := by
  intro received
  have hfails : (crc16CcittFalse (received.take (received.length - 2))).toNat ≠
      ofBe (received.drop (received.length - 2)) := corrupt_not_checks hlen hne herror
  refine ⟨hfails, fun buf hbuf => ?_⟩
  have hsize : ¬ received.length < 2 := by
    rw [show received.length = payload.length + 2 by simp [received, corrupt, hlen]]
    omega
  rw [SerialFrameDecoder.finish, hbuf]
  dsimp only
  rw [if_neg hsize, if_pos hfails]

/-- Nine bits in a row, across the payload and its checksum. -/
theorem serialFrameDecoder_detects_sample :
    let received := corrupt (withCrc [0x31, 0x32]) [0x00, 0x01, 0xFF, 0x00]
    (crc16CcittFalse (received.take (received.length - 2))).toNat ≠
        ofBe (received.drop (received.length - 2)) ∧
      ∀ buf, disconnectCobs.decode buf = some received →
        SerialFrameDecoder.finish disconnectCodec disconnectCobs 16 buf = .error .corruptFrame :=
  serialFrameDecoder_detects disconnectCodec disconnectCobs 16 (by decide +kernel)
    ⟨1, by decide, by decide⟩
    (Or.inr (by decide +kernel))

end OtkCore.FrameCodec
