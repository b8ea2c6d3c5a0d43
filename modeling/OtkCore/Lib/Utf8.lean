import Mathlib.Data.List.Basic
import Mathlib.Tactic.Common

/-!
# Strings as bytes

Programs index a string by bytes and may cut it only between characters. The
boundary test looks at one byte: inside a character all bytes are continuation
bytes. The byte after an ASCII byte therefore starts a character, so a cut on
either side of one is safe whatever else the string contains.
-/
namespace Utf8

def bytes (s : String) : List UInt8 := s.toList.flatMap String.utf8EncodeChar

def isContinuation (b : UInt8) : Bool := 128 ≤ b && b < 192

/-- Whether a string may be cut before byte `i`. -/
def isCharBoundary (bs : List UInt8) (i : ℕ) : Bool :=
  i == 0 || match bs[i]? with
    | none => i == bs.length
    | some b => !isContinuation b

/-- The bytes from `i` to `j`, unless one of them is inside a character. -/
def slice? (bs : List UInt8) (i j : ℕ) : Option (List UInt8) :=
  if i ≤ j ∧ isCharBoundary bs i ∧ isCharBoundary bs j then some ((bs.take j).drop i) else none

theorem bytes_injective {s t : String} (h : bytes s = bytes t) : s = t := by
  have harray : s.toList.utf8Encode = t.toList.utf8Encode := by
    simp only [List.utf8Encode]
    exact congrArg List.toByteArray h
  rwa [String.utf8Encode_toList, String.utf8Encode_toList, String.toByteArray_inj] at harray

theorem forall_byte {p : UInt8 → Prop} (h : ∀ n : Fin 256, p (UInt8.ofNat n.val)) (b : UInt8) :
    p b := by
  simpa using h ⟨b.toNat, b.toNat_lt⟩

theorem not_isContinuation_of_first {b : UInt8} :
    b.IsUTF8FirstByte → isContinuation b = false :=
  forall_byte (p := fun b => b.IsUTF8FirstByte → isContinuation b = false) (by decide +kernel) b

theorem isUTF8FirstByte_of_ascii {b : UInt8} : b < 128 → b.IsUTF8FirstByte :=
  forall_byte (p := fun b => b < 128 → b.IsUTF8FirstByte) (by decide +kernel) b

theorem not_ascii_of_lead (b : UInt8) :
    ¬ b ||| 0xc0 < 128 ∧ ¬ b ||| 0xe0 < 128 ∧ ¬ b ||| 0xf0 < 128 :=
  forall_byte (p := fun b => ¬ b ||| 0xc0 < 128 ∧ ¬ b ||| 0xe0 < 128 ∧ ¬ b ||| 0xf0 < 128)
    (by decide +kernel) b

/-- A character whose encoding has an ASCII byte is that byte alone. -/
theorem length_of_ascii {c : Char} {i : ℕ} {b : UInt8}
    (hb : (String.utf8EncodeChar c)[i]? = some b) (h : b < 128) :
    i = 0 ∧ (String.utf8EncodeChar c).length = 1 := by
  have hzero : i = 0 := by
    obtain ⟨hi, rfl⟩ := List.getElem?_eq_some_iff.mp hb
    exact UInt8.isUTF8FirstByte_getElem_utf8EncodeChar.mp (isUTF8FirstByte_of_ascii h)
  subst hzero
  refine ⟨rfl, ?_⟩
  rcases c.utf8Size_eq with h1 | h2 | h3 | h4
  · rw [String.length_utf8EncodeChar, h1]
  · rw [String.utf8EncodeChar_eq_cons_cons h2] at hb
    obtain rfl := Option.some.inj hb
    exact absurd h (not_ascii_of_lead _).1
  · rw [String.utf8EncodeChar_eq_cons_cons_cons h3] at hb
    obtain rfl := Option.some.inj hb
    exact absurd h (not_ascii_of_lead _).2.1
  · rw [String.utf8EncodeChar_eq_cons_cons_cons_cons h4] at hb
    obtain rfl := Option.some.inj hb
    exact absurd h (not_ascii_of_lead _).2.2

theorem head_not_isContinuation (c : Char) {b : UInt8}
    (hb : (String.utf8EncodeChar c)[0]? = some b) : isContinuation b = false := by
  obtain ⟨hi, rfl⟩ := List.getElem?_eq_some_iff.mp hb
  exact not_isContinuation_of_first (UInt8.isUTF8FirstByte_getElem_utf8EncodeChar.mpr rfl)

theorem boundary_of_ascii {bs : List UInt8} {i : ℕ} {b : UInt8} (hb : bs[i]? = some b)
    (h : b < 128) : isCharBoundary bs i = true := by
  simp [isCharBoundary, hb, not_isContinuation_of_first (isUTF8FirstByte_of_ascii h)]

/-- The first byte of a string, if there is one, starts a character. -/
theorem head_bytes_not_isContinuation {cs : List Char} {b : UInt8}
    (hb : (cs.flatMap String.utf8EncodeChar)[0]? = some b) : isContinuation b = false := by
  cases cs with
  | nil => simp at hb
  | cons c cs =>
    have hpos : 0 < (String.utf8EncodeChar c).length := by
      rw [String.length_utf8EncodeChar]
      exact c.utf8Size_pos
    rw [List.flatMap_cons, List.getElem?_append_left hpos] at hb
    exact head_not_isContinuation c hb

theorem not_isContinuation_after_ascii {cs : List Char} {i : ℕ} {b next : UInt8}
    (hb : (cs.flatMap String.utf8EncodeChar)[i]? = some b) (h : b < 128)
    (hn : (cs.flatMap String.utf8EncodeChar)[i + 1]? = some next) :
    isContinuation next = false := by
  induction cs generalizing i with
  | nil => simp at hb
  | cons c cs ih =>
    rw [List.flatMap_cons] at hb hn
    by_cases hi : i < (String.utf8EncodeChar c).length
    · rw [List.getElem?_append_left hi] at hb
      obtain ⟨rfl, hlen⟩ := length_of_ascii hb h
      rw [List.getElem?_append_right (by omega), hlen] at hn
      exact head_bytes_not_isContinuation hn
    · rw [List.getElem?_append_right (by omega)] at hb hn
      have heq : i + 1 - (String.utf8EncodeChar c).length =
          i - (String.utf8EncodeChar c).length + 1 := by omega
      rw [heq] at hn
      exact ih hb hn

theorem boundary_after_ascii {s : String} {i : ℕ} {b : UInt8} (hb : (bytes s)[i]? = some b)
    (h : b < 128) : isCharBoundary (bytes s) (i + 1) = true := by
  unfold isCharBoundary
  cases hn : (bytes s)[i + 1]? with
  | none =>
    have hlt := (List.getElem?_eq_some_iff.mp hb).1
    have hle := List.getElem?_eq_none_iff.mp hn
    simp only [Bool.or_eq_true, beq_iff_eq]
    omega
  | some next => simp [not_isContinuation_after_ascii hb h hn]

theorem flatMap_ascii {cs : List Char} (h : ∀ c ∈ cs, c.toNat < 128) :
    cs.flatMap String.utf8EncodeChar = cs.map Char.toUInt8 := by
  induction cs with
  | nil => rfl
  | cons c cs ih =>
    have hc := h c (by simp)
    have hsize : c.utf8Size = 1 := by
      rw [Char.utf8Size_eq_one_iff, UInt32.le_iff_toNat_le]
      exact Nat.le_of_lt_succ hc
    rw [List.flatMap_cons, String.utf8EncodeChar_eq_singleton hsize,
      ih fun d hd => h d (by simp [hd])]
    rfl

theorem bytes_ofList {cs : List Char} (h : ∀ c ∈ cs, c.toNat < 128) :
    bytes (String.ofList cs) = cs.map Char.toUInt8 := by
  rw [bytes, String.toList_ofList, flatMap_ascii h]

/-- A property of ASCII characters is checked character by character. -/
theorem forall_ascii {p : Char → Prop} (h : ∀ n : Fin 128, p (Char.ofNat n)) {c : Char}
    (hc : c.toNat < 128) : p c := by
  simpa using h ⟨c.toNat, hc⟩

theorem ascii_of_bytes {s : String} (h : ∀ b ∈ bytes s, b < 128) :
    ∀ c ∈ s.toList, c.toNat < 128 := by
  intro c hc
  have hpos : 0 < (String.utf8EncodeChar c).length := by
    rw [String.length_utf8EncodeChar]
    exact c.utf8Size_pos
  have hb : (String.utf8EncodeChar c)[0]? = some (String.utf8EncodeChar c)[0] := by simp
  have hlen := (length_of_ascii hb (h _ (List.mem_flatMap.mpr ⟨c, hc, by simp⟩))).2
  rw [String.length_utf8EncodeChar, Char.utf8Size_eq_one_iff, UInt32.le_iff_toNat_le] at hlen
  exact Nat.lt_succ_of_le hlen

theorem bytes_of_ascii {s : String} (h : ∀ c ∈ s.toList, c.toNat < 128) :
    bytes s = s.toList.map Char.toUInt8 :=
  flatMap_ascii h

def ofAscii (bs : List UInt8) : String := String.ofList (bs.map Char.ofUInt8)

theorem bytes_ofAscii {bs : List UInt8} (h : ∀ b ∈ bs, b < 128) : bytes (ofAscii bs) = bs := by
  have hchar : ∀ b : UInt8, b < 128 →
      (Char.ofUInt8 b).toNat < 128 ∧ (Char.ofUInt8 b).toUInt8 = b :=
    forall_byte (p := fun b => b < 128 → (Char.ofUInt8 b).toNat < 128 ∧
      (Char.ofUInt8 b).toUInt8 = b) (by decide +kernel)
  rw [ofAscii, bytes_ofList]
  · rw [List.map_map]
    exact (List.map_congr_left fun b hb => (hchar b (h b hb)).2).trans (List.map_id bs)
  · intro c hc
    obtain ⟨b, hb, rfl⟩ := List.mem_map.mp hc
    exact (hchar b (h b hb)).1

theorem map_toUInt8_inj {cs ds : List Char} (hcs : ∀ c ∈ cs, c.toNat < 128)
    (hds : ∀ c ∈ ds, c.toNat < 128) : cs.map Char.toUInt8 = ds.map Char.toUInt8 ↔ cs = ds := by
  constructor
  · intro h
    rw [← bytes_ofList hcs, ← bytes_ofList hds] at h
    exact String.ofList_inj.mp (bytes_injective h)
  · rintro rfl
    rfl

theorem eq_ofList_of_bytes {s : String} {cs : List Char} (h : ∀ c ∈ cs, c.toNat < 128)
    (hs : bytes s = cs.map Char.toUInt8) : s = String.ofList cs :=
  bytes_injective (hs.trans (bytes_ofList h).symm)

end Utf8
