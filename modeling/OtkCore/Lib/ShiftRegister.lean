import Mathlib.Data.List.Basic
import Mathlib.Data.BitVec
import Mathlib.Algebra.Ring.Parity
import Mathlib.Tactic.Common

/-!
# Linear feedback shift registers

A register of `w` bits that is shifted towards its top bit; a bit that leaves it
adds the feedback `p`. Fed with a message, it holds the remainder of the message
polynomial modulo `x ^ w + p`. What makes it an error detecting code is that the
register is linear, that no non-empty state is shifted to nothing, and that the
feedback may keep the parity.
-/
namespace ShiftRegister

variable {w : ℕ} {p : BitVec w}

def shift (p r : BitVec w) : BitVec w := if r.msb then (r <<< 1) ^^^ p else r <<< 1

def bit (w : ℕ) (b : Bool) : BitVec w := if b then BitVec.twoPow w (w - 1) else 0#w

def feed (p r : BitVec w) (b : Bool) : BitVec w := shift p (r ^^^ bit w b)

def run (p r : BitVec w) (bits : List Bool) : BitVec w := bits.foldl (feed p) r

@[simp] theorem run_nil (r : BitVec w) : run p r [] = r := rfl

@[simp] theorem run_cons (r : BitVec w) (b : Bool) (bits : List Bool) :
    run p r (b :: bits) = run p (feed p r b) bits := rfl

theorem run_append (r : BitVec w) (xs ys : List Bool) :
    run p r (xs ++ ys) = run p (run p r xs) ys :=
  List.foldl_append

theorem shift_xor (a b : BitVec w) : shift p (a ^^^ b) = shift p a ^^^ shift p b := by
  unfold shift
  rw [BitVec.msb_xor, BitVec.shiftLeft_xor_distrib]
  cases a.msb <;> cases b.msb
  · rfl
  · exact BitVec.xor_assoc _ _ _
  · change a <<< 1 ^^^ b <<< 1 ^^^ p = a <<< 1 ^^^ p ^^^ b <<< 1
    ac_rfl
  · have hpair : a <<< 1 ^^^ p ^^^ (b <<< 1 ^^^ p) = a <<< 1 ^^^ b <<< 1 ^^^ (p ^^^ p) := by ac_rfl
    change a <<< 1 ^^^ b <<< 1 = a <<< 1 ^^^ p ^^^ (b <<< 1 ^^^ p)
    rw [hpair, BitVec.xor_self, BitVec.xor_zero]

@[simp] theorem shift_zero : shift p 0#w = 0#w := by
  simp [shift]

theorem bit_xor (x y : Bool) : bit w (x ^^ y) = bit w x ^^^ bit w y := by
  cases x <;> cases y <;> simp [bit]

theorem feed_xor (a b : BitVec w) (x y : Bool) :
    feed p (a ^^^ b) (x ^^ y) = feed p a x ^^^ feed p b y := by
  have hpair : a ^^^ b ^^^ (bit w x ^^^ bit w y) = (a ^^^ bit w x) ^^^ (b ^^^ bit w y) := by
    ac_rfl
  rw [feed, feed, feed, bit_xor, hpair, shift_xor]

theorem run_xor {xs ys : List Bool} (h : xs.length = ys.length) (a b : BitVec w) :
    run p (a ^^^ b) (List.zipWith (· ^^ ·) xs ys) = run p a xs ^^^ run p b ys := by
  induction xs generalizing ys a b with
  | nil =>
    obtain rfl := List.length_eq_zero_iff.mp h.symm
    rfl
  | cons x xs ih =>
    cases ys with
    | nil => simp at h
    | cons y ys =>
      rw [List.zipWith_cons_cons, run_cons, run_cons, run_cons, feed_xor]
      exact ih (Nat.succ.inj h) _ _

/-- With a feedback into the lowest bit, only the empty register is shifted to
nothing. -/
theorem shift_eq_zero (hp : p.getLsbD 0 = true) {r : BitVec w} (h : shift p r = 0#w) : r = 0#w := by
  have hlow : (shift p r).getLsbD 0 = r.msb := by
    unfold shift
    cases hm : r.msb <;> simp [hp]
  have hmsb : r.msb = false := by
    rw [← hlow, h]
    simp
  rw [shift, hmsb] at h
  have hshift : r <<< 1 = 0#w := by simpa using h
  ext i hi
  rw [BitVec.getElem_zero]
  by_cases hlast : i + 1 < w
  · have hbit := congrArg (fun x => x.getLsbD (i + 1)) hshift
    simpa [BitVec.getLsbD_shiftLeft, hlast, BitVec.getLsbD_eq_getElem hi] using hbit
  · have hlast' : i = w - 1 := by omega
    rw [BitVec.msb_eq_getLsbD_last] at hmsb
    rw [← BitVec.getLsbD_eq_getElem hi, hlast']
    exact hmsb

theorem iterate_eq_zero (hp : p.getLsbD 0 = true) {n : ℕ} {r : BitVec w}
    (h : (shift p)^[n] r = 0#w) : r = 0#w := by
  induction n generalizing r with
  | zero => exact h
  | succ n ih => exact shift_eq_zero hp (ih h)

theorem run_replicate (r : BitVec w) (n : ℕ) :
    run p r (List.replicate n false) = (shift p)^[n] r := by
  induction n generalizing r with
  | zero => rfl
  | succ n ih =>
    rw [List.replicate_succ, run_cons, ih]
    simp [feed, bit]

/-- The bits of a message from the top of the register on. -/
def place (w : ℕ) : List Bool → BitVec w
  | [] => 0#w
  | b :: bits => bit w b ^^^ (place w bits >>> 1)

theorem getLsbD_bit (b : Bool) (i : ℕ) : (bit w b).getLsbD i = (b && decide (i + 1 = w)) := by
  cases b with
  | false => simp [bit]
  | true =>
    simp only [bit, if_true, BitVec.getLsbD_twoPow, Bool.true_and]
    by_cases hi : i + 1 = w
    · subst hi
      simp
    · simp [hi]
      omega

theorem getLsbD_place {bits : List Bool} {i : ℕ} (h : i + bits.length < w) :
    (place w bits).getLsbD i = false := by
  induction bits generalizing i with
  | nil => simp [place]
  | cons b bits ih =>
    rw [List.length_cons] at h
    have hrest := ih (i := i + 1) (by omega)
    have hi : ¬ i + 1 = w := by omega
    rw [place, BitVec.getLsbD_xor, getLsbD_bit, BitVec.getLsbD_ushiftRight, Nat.add_comm 1 i, hrest]
    simp [hi]

theorem place_append (xs ys : List Bool) :
    place w (xs ++ ys) = place w xs ^^^ (place w ys >>> xs.length) := by
  induction xs with
  | nil => simp [place]
  | cons x xs ih =>
    rw [List.cons_append, place, ih, BitVec.ushiftRight_xor_distrib, ← BitVec.shiftRight_add, place,
      BitVec.xor_assoc, List.length_cons]

theorem shift_ushiftRight {r : BitVec w} (h : r.getLsbD 0 = false) : shift p (r >>> 1) = r := by
  have hmsb : (r >>> 1).msb = false := by
    rw [BitVec.msb_ushiftRight]
    simp
  rw [shift, hmsb]
  ext i hi
  cases i with
  | zero => simpa [BitVec.getLsbD_eq_getElem hi] using h.symm
  | succ i => simp [BitVec.getElem_shiftLeft, Nat.add_comm 1 i, BitVec.getLsbD_eq_getElem hi]

/-- Feeding a message is shifting it through, once it has been added to the register. -/
theorem run_eq_iterate {bits : List Bool} (h : bits.length ≤ w) (r : BitVec w) :
    run p r bits = (shift p)^[bits.length] (r ^^^ place w bits) := by
  induction bits generalizing r with
  | nil => simp [place]
  | cons b bits ih =>
    rw [List.length_cons] at h
    have hlow : (place w bits).getLsbD 0 = false := getLsbD_place (by omega)
    have hfeed : feed p r b ^^^ place w bits = shift p (r ^^^ place w (b :: bits)) := by
      rw [place, ← BitVec.xor_assoc, shift_xor, shift_ushiftRight hlow, feed]
    rw [run_cons, ih (by omega), hfeed]
    rfl

theorem place_eq_zero {bits : List Bool} (h : bits.length ≤ w) (hzero : place w bits = 0#w) :
    ∀ b ∈ bits, b = false := by
  induction bits with
  | nil => simp
  | cons b bits ih =>
    rw [List.length_cons] at h
    have htop : (place w (b :: bits)).getLsbD (w - 1) = b := by
      have hw : w - 1 + 1 = w := by omega
      rw [place, BitVec.getLsbD_xor, getLsbD_bit, BitVec.getLsbD_ushiftRight, Nat.add_comm 1, hw]
      simp
    obtain rfl : b = false := by
      rw [← htop, hzero]
      simp
    have hlow : (place w bits).getLsbD 0 = false := getLsbD_place (by omega)
    have hright : place w bits >>> 1 = 0#w := by simpa [place, bit] using hzero
    have hrest : place w bits = 0#w := by
      rw [← shift_ushiftRight (p := 0#w) hlow, hright, shift_zero]
    simpa using ih (by omega) hrest

/-- The set bits lie within `n` consecutive positions. -/
def Burst (n : ℕ) (bits : List Bool) : Prop :=
  ∃ start, ∀ i, bits[i]? = some true → start ≤ i ∧ i < start + n

theorem eq_replicate_false {bits : List Bool} (h : ∀ i : ℕ, bits[i]? ≠ some true) :
    bits = List.replicate bits.length false := by
  refine List.eq_replicate_iff.mpr ⟨rfl, fun b hb => ?_⟩
  obtain ⟨i, hi⟩ := List.mem_iff_getElem?.mp hb
  cases b with
  | false => rfl
  | true => exact absurd hi (h i)

theorem Burst.split {n : ℕ} {bits : List Bool} (h : Burst n bits) :
    ∃ before burst after, burst.length ≤ n ∧
      bits = List.replicate before false ++ burst ++ List.replicate after false := by
  obtain ⟨start, hstart⟩ := h
  have hbefore : ∀ i : ℕ, (bits.take start)[i]? ≠ some true := by
    intro i hi
    rw [List.getElem?_take] at hi
    split_ifs at hi with hlt
    have := hstart i hi
    omega
  have hafter : ∀ i : ℕ, ((bits.drop start).drop n)[i]? ≠ some true := by
    intro i hi
    rw [List.drop_drop, List.getElem?_drop] at hi
    have := hstart _ hi
    omega
  refine ⟨(bits.take start).length, (bits.drop start).take n,
    ((bits.drop start).drop n).length, List.length_take_le n _, ?_⟩
  rw [← eq_replicate_false hbefore, ← eq_replicate_false hafter, List.append_assoc,
    List.take_append_drop, List.take_append_drop]

/-- A burst of errors no longer than the register leaves something in it. -/
theorem run_burst_ne_zero (hp : p.getLsbD 0 = true) {bits : List Bool} (h : Burst w bits)
    (hset : true ∈ bits) : run p 0#w bits ≠ 0#w := by
  obtain ⟨before, burst, after, hlen, rfl⟩ := h.split
  rw [run_append, run_append, run_replicate, run_replicate]
  intro hzero
  have hstart : (shift p)^[before] 0#w = 0#w := Function.iterate_fixed shift_zero before
  have hburst := iterate_eq_zero hp hzero
  rw [hstart, run_eq_iterate hlen, BitVec.zero_xor] at hburst
  have hfalse := place_eq_zero hlen (iterate_eq_zero hp hburst) true (by simpa using hset)
  cases hfalse

/-- The parity of the lowest `n` bits. -/
def parityBelow (r : BitVec w) : ℕ → Bool
  | 0 => false
  | n + 1 => parityBelow r n ^^ r.getLsbD n

def parity (r : BitVec w) : Bool := parityBelow r w

theorem parityBelow_xor (a b : BitVec w) (n : ℕ) :
    parityBelow (a ^^^ b) n = (parityBelow a n ^^ parityBelow b n) := by
  induction n with
  | zero => rfl
  | succ n ih =>
    rw [parityBelow, parityBelow, parityBelow, ih, BitVec.getLsbD_xor]
    cases parityBelow a n <;> cases parityBelow b n <;> cases a.getLsbD n <;> simp

theorem parity_xor (a b : BitVec w) : parity (a ^^^ b) = (parity a ^^ parity b) :=
  parityBelow_xor a b w

theorem parityBelow_shiftLeft (r : BitVec w) {n : ℕ} (h : n < w) :
    parityBelow (r <<< 1) (n + 1) = parityBelow r n := by
  induction n with
  | zero => simp [parityBelow]
  | succ n ih =>
    have hbit : (r <<< 1).getLsbD (n + 1) = r.getLsbD n := by
      rw [BitVec.getLsbD_shiftLeft]
      simp [h]
    rw [parityBelow, ih (by omega), parityBelow, hbit]

theorem parity_eq (hw : 0 < w) (r : BitVec w) : parity r = (parityBelow r (w - 1) ^^ r.msb) := by
  obtain ⟨n, rfl⟩ : ∃ n, w = n + 1 := ⟨w - 1, by omega⟩
  rw [parity, parityBelow, BitVec.msb_eq_getLsbD_last]
  rfl

/-- A feedback of an odd number of bits makes up for the bit that leaves. -/
theorem parity_shift (hw : 0 < w) (hp : parity p = true) (r : BitVec w) :
    parity (shift p r) = parity r := by
  have hleft : parity (r <<< 1) = parityBelow r (w - 1) := by
    have h := parityBelow_shiftLeft r (n := w - 1) (by omega)
    rwa [Nat.sub_add_cancel hw] at h
  rw [parity_eq hw r]
  unfold shift
  cases r.msb with
  | false => simp [hleft]
  | true => simp [parity_xor, hleft, hp]

theorem parity_bit (hw : 0 < w) (b : Bool) : parity (bit w b) = b := by
  have hbelow : ∀ n < w, parityBelow (bit w b) n = false := by
    intro n
    induction n with
    | zero => intro; rfl
    | succ n ih =>
      intro hn
      have hne : ¬ n + 1 = w := by omega
      rw [parityBelow, ih (by omega), getLsbD_bit]
      simp [hne]
  rw [parity_eq hw, hbelow _ (by omega), BitVec.msb_eq_getLsbD_last, getLsbD_bit,
    Nat.sub_add_cancel hw]
  simp

theorem parity_run (hw : 0 < w) (hp : parity p = true) (r : BitVec w) (bits : List Bool) :
    parity (run p r bits) = (parity r ^^ decide (Odd (bits.count true))) := by
  induction bits generalizing r with
  | nil => simp
  | cons b bits ih =>
    rw [run_cons, ih, feed, parity_shift hw hp, parity_xor, parity_bit hw]
    cases b with
    | false => simp
    | true =>
      have hflip : decide (Odd (bits.count true + 1)) = !decide (Odd (bits.count true)) := by
        rw [← decide_not]
        exact decide_eq_decide.mpr Nat.odd_add_one
      rw [List.count_cons_self, hflip]
      cases parity r <;> simp

theorem run_odd_ne_zero (hw : 0 < w) (hp : parity p = true) {bits : List Bool}
    (hodd : Odd (bits.count true)) : run p 0#w bits ≠ 0#w := by
  intro hzero
  have hzero' : ∀ n, parityBelow 0#w n = false := by
    intro n
    induction n with
    | zero => rfl
    | succ n ih => simp [parityBelow, ih]
  have hpar := parity_run hw hp 0#w bits
  rw [hzero, parity, hzero'] at hpar
  simp [hodd] at hpar

end ShiftRegister
