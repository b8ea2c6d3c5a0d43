import OtkCore.Traceparent
import Mathlib.Data.List.Induction

/-!
# Decoding trace context

The node turns the segments of a traceparent into bytes, two digits at a time.
`hexOf` is the other direction; both the formatter and the decoder are compared
with it, so formatting and decoding invert each other.
-/
namespace OtkCore

def hexNibble (b : UInt8) : Option UInt8 :=
  if 48 ≤ b ∧ b ≤ 57 then some (b - 48)
  else if 97 ≤ b ∧ b ≤ 102 then some (b - 97 + 10)
  else none

/-- Two digits for each byte; a trailing odd digit is left over. -/
def hexPairs : List UInt8 → Option (List UInt8)
  | hi :: lo :: rest => do
    let h ← hexNibble hi
    let l ← hexNibble lo
    let out ← hexPairs rest
    some ((h <<< 4 ||| l) :: out)
  | _ => some []

/-- Decode `2 * n` digits into `n` bytes. -/
def hexToArray (n : ℕ) (s : List UInt8) : Option (List UInt8) :=
  if s.length ≠ 2 * n then none else hexPairs s

/-- `char::to_digit(16)`, which also takes upper case. -/
def toDigit16 (b : UInt8) : Option ℕ :=
  if 48 ≤ b ∧ b ≤ 57 then some (b.toNat - 48)
  else if 97 ≤ b ∧ b ≤ 102 then some (b.toNat - 87)
  else if 65 ≤ b ∧ b ≤ 70 then some (b.toNat - 55)
  else none

/-- One digit of a `u8`, with the overflow check. -/
def pushDigit16 (acc : ℕ) (b : UInt8) : Option ℕ := do
  let d ← toDigit16 b
  if acc * 16 + d < 256 then some (acc * 16 + d) else none

/-- `u8::from_str_radix(_, 16)`: digits, after an optional plus sign. -/
def u8FromStrRadix16 (s : List UInt8) : Option UInt8 :=
  let digits := if s.head? = some 43 then s.tail else s
  if digits = [] then none else (digits.foldlM pushDigit16 0).map UInt8.ofNat

/-- What `apply_traceparent` passes on: trace id, span id and flags. -/
structure RemoteContext where
  traceId : List UInt8
  spanId : List UInt8
  flags : UInt8
  deriving DecidableEq, Repr

/-- The remote span context of a traceparent; `none` leaves the span alone. -/
def remoteContext (traceparent : String) : Option RemoteContext :=
  match parseTraceparent traceparent with
  | .ok parts => do
    let traceId ← hexToArray 16 parts.traceId
    let spanId ← hexToArray 8 parts.parentId
    let flags ← u8FromStrRadix16 parts.traceFlags
    if traceId = List.replicate 16 0 ∨ spanId = List.replicate 8 0 then none
    else some ⟨traceId, spanId, flags⟩
  | .error _ => none

def hexOf (bs : List UInt8) : List Char :=
  bs.flatMap fun b => [Nat.digitChar (b.toNat / 16), Nat.digitChar (b.toNat % 16)]

theorem hexNibble_digitChar (n : Fin 16) :
    hexNibble (Nat.digitChar n.val).toUInt8 = some (UInt8.ofNat n.val) := by
  revert n
  decide

theorem nibbles (b : UInt8) :
    UInt8.ofNat (b.toNat / 16) <<< 4 ||| UInt8.ofNat (b.toNat % 16) = b :=
  Utf8.forall_byte
    (p := fun b => UInt8.ofNat (b.toNat / 16) <<< 4 ||| UInt8.ofNat (b.toNat % 16) = b)
    (by decide +kernel) b

theorem hexPairs_hexOf (bs : List UInt8) :
    hexPairs ((hexOf bs).map Char.toUInt8) = some bs := by
  induction bs with
  | nil => rfl
  | cons b bs ih =>
    have hb := b.toNat_lt
    have hhi := hexNibble_digitChar ⟨b.toNat / 16, by omega⟩
    have hlo := hexNibble_digitChar ⟨b.toNat % 16, by omega⟩
    simp only [hexOf, List.flatMap_cons, List.cons_append, List.nil_append, List.map_cons, hexPairs]
    rw [← hexOf, ih, hhi, hlo]
    simp [nibbles]

theorem digitChar_of_hexNibble {b n : UInt8} (h : hexNibble b = some n) :
    n.toNat < 16 ∧ (Nat.digitChar n.toNat).toUInt8 = b := by
  have hall : ∀ b : UInt8, ∀ n ∈ hexNibble b,
      n.toNat < 16 ∧ (Nat.digitChar n.toNat).toUInt8 = b :=
    Utf8.forall_byte (by decide +kernel)
  exact hall b n h

theorem exists_hexNibble {b : UInt8} (h : isLowercaseHex [b] = true) :
    ∃ n, hexNibble b = some n := by
  have hall : ∀ b : UInt8, isLowercaseHex [b] = true → (hexNibble b).isSome = true :=
    Utf8.forall_byte (by decide +kernel)
  exact Option.isSome_iff_exists.mp (hall b h)

theorem join_nibbles {h l : UInt8} (hh : h.toNat < 16) (hl : l.toNat < 16) :
    (h <<< 4 ||| l).toNat = 16 * h.toNat + l.toNat := by
  have hall : ∀ h l : Fin 16, (UInt8.ofNat h.val <<< 4 ||| UInt8.ofNat l.val).toNat =
      16 * h.val + l.val := by decide +kernel
  simpa using hall ⟨h.toNat, hh⟩ ⟨l.toNat, hl⟩

/-- Every even number of lowercase digits is the digits of one byte string. -/
theorem exists_hexPairs {n : ℕ} {s : List UInt8} (hs : isLowercaseHex s = true)
    (hn : s.length = 2 * n) :
    ∃ bs : List UInt8, bs.length = n ∧ hexPairs s = some bs ∧ s = (hexOf bs).map Char.toUInt8 := by
  induction n generalizing s with
  | zero =>
    obtain rfl := List.length_eq_zero_iff.mp hn
    exact ⟨[], rfl, rfl, rfl⟩
  | succ n ih =>
    obtain ⟨hi, lo, rest, rfl⟩ : ∃ hi lo rest, s = hi :: lo :: rest := by
      rcases s with _ | ⟨hi, _ | ⟨lo, rest⟩⟩
      · simp at hn
      · simp at hn; omega
      · exact ⟨hi, lo, rest, rfl⟩
    have hsplit : isLowercaseHex [hi] = true ∧ isLowercaseHex [lo] = true ∧
        isLowercaseHex rest = true := by
      simpa [isLowercaseHex] using hs
    obtain ⟨h, hh⟩ := exists_hexNibble hsplit.1
    obtain ⟨l, hl⟩ := exists_hexNibble hsplit.2.1
    obtain ⟨bs, hlen, hpairs, heq⟩ := ih hsplit.2.2 (by simp at hn; omega)
    obtain ⟨hh16, hhi⟩ := digitChar_of_hexNibble hh
    obtain ⟨hl16, hlo⟩ := digitChar_of_hexNibble hl
    have hjoin := join_nibbles hh16 hl16
    refine ⟨(h <<< 4 ||| l) :: bs, by simp [hlen], by simp [hexPairs, hh, hl, hpairs], ?_⟩
    have hdiv : (16 * h.toNat + l.toNat) / 16 = h.toNat := by omega
    have hmod : (16 * h.toNat + l.toNat) % 16 = l.toNat := by omega
    simp only [hexOf, List.flatMap_cons, List.cons_append, List.nil_append, List.map_cons, hjoin,
      hdiv, hmod, hhi, hlo]
    rw [← hexOf, ← heq]

/-- The `width` low hexadecimal digits of a number. -/
def fixedHex : ℕ → ℕ → List Char
  | 0, _ => []
  | width + 1, n => fixedHex width (n / 16) ++ [Nat.digitChar (n % 16)]

theorem fixedHex_zero (width : ℕ) : fixedHex width 0 = List.replicate width '0' := by
  induction width with
  | zero => rfl
  | succ width ih => rw [fixedHex, ih, List.replicate_succ']; rfl

/-- A number that fits the width is written with exactly that many digits. -/
theorem lowerHex_eq {width n : ℕ} (hw : 0 < width) (h : n < 16 ^ width) :
    lowerHex width n = fixedHex width n := by
  induction width generalizing n with
  | zero => omega
  | succ width ih =>
    rw [lowerHex, fixedHex, Nat.toDigits_eq_if (by decide)]
    by_cases hn : n < 16
    · rw [if_pos hn, Nat.div_eq_of_lt hn, Nat.mod_eq_of_lt hn, fixedHex_zero]
      simp [List.leftpad]
    · have hpad : ∀ (digits : List Char) (d : Char),
          (digits ++ [d]).leftpad (width + 1) '0' = digits.leftpad width '0' ++ [d] := by
        intro digits d
        simp [List.leftpad]
      have hwidth : 0 < width := by
        rcases Nat.eq_zero_or_pos width with rfl | hpos
        · exact absurd h hn
        · exact hpos
      have hrest := ih hwidth (n := n / 16) (by rw [pow_succ] at h; omega)
      rw [if_neg hn, hpad, ← hrest, lowerHex]

theorem fixedHex_ofBe (bs : List UInt8) :
    fixedHex (2 * bs.length) (Bytes.ofBe bs) = hexOf bs := by
  induction bs using List.reverseRec with
  | nil => rfl
  | append_singleton bs b ih =>
    have hb := b.toNat_lt
    have hvalue : Bytes.ofBe (bs ++ [b]) = b.toNat + 256 * Bytes.ofBe bs := by
      simp [Bytes.ofBe, Bytes.ofLe]
    have hrest : (b.toNat + 256 * Bytes.ofBe bs) / 16 / 16 = Bytes.ofBe bs := by omega
    have hhi : (b.toNat + 256 * Bytes.ofBe bs) / 16 % 16 = b.toNat / 16 := by omega
    have hlo : (b.toNat + 256 * Bytes.ofBe bs) % 16 = b.toNat % 16 := by omega
    have hlen : 2 * (bs ++ [b]).length = 2 * bs.length + 1 + 1 := by simp; omega
    rw [hvalue, hlen, fixedHex, fixedHex, hrest, hhi, hlo, ih]
    simp [hexOf]

theorem lowerHex_ofBe {bs : List UInt8} {width : ℕ} (hw : width = 2 * bs.length)
    (hpos : 0 < width) : lowerHex width (Bytes.ofBe bs) = hexOf bs := by
  have hlt : Bytes.ofBe bs < 16 ^ width := by
    rw [hw, pow_mul]
    exact Bytes.ofBe_lt bs
  rw [lowerHex_eq hpos hlt, hw, fixedHex_ofBe]

theorem hexOf_mem_hexChars (bs : List UInt8) : ∀ c ∈ hexOf bs, c ∈ hexChars := by
  have hdigit : ∀ n : Fin 16, Nat.digitChar n.val ∈ hexChars := by decide
  intro c hc
  obtain ⟨b, -, hc⟩ := List.mem_flatMap.mp hc
  have hb := b.toNat_lt
  simp only [List.mem_cons, List.not_mem_nil, or_false] at hc
  rcases hc with rfl | rfl
  · exact hdigit ⟨b.toNat / 16, by omega⟩
  · exact hdigit ⟨b.toNat % 16, by omega⟩

theorem length_hexOf (bs : List UInt8) : (hexOf bs).length = 2 * bs.length := by
  induction bs with
  | nil => rfl
  | cons b bs ih =>
    rw [hexOf, List.flatMap_cons, ← hexOf, List.length_append, ih]
    simp
    omega

theorem ofLe_eq_zero_iff (bs : List UInt8) : Bytes.ofLe bs = 0 ↔ ∀ b ∈ bs, b = 0 := by
  induction bs with
  | nil => simp [Bytes.ofLe]
  | cons b bs ih =>
    have hb : b.toNat = 0 ↔ b = 0 := by
      rw [← UInt8.toNat_inj]
      rfl
    rw [Bytes.ofLe, List.forall_mem_cons, ← ih, ← hb]
    omega

theorem isAllZero_hexOf (bs : List UInt8) :
    isAllZero ((hexOf bs).map Char.toUInt8) = true ↔ Bytes.ofBe bs = 0 := by
  have hbyte : ∀ b : UInt8, ((Nat.digitChar (b.toNat / 16)).toUInt8 = 48 ∧
      (Nat.digitChar (b.toNat % 16)).toUInt8 = 48) ↔ b = 0 :=
    Utf8.forall_byte (by decide +kernel)
  rw [Bytes.ofBe, ofLe_eq_zero_iff]
  simp [isAllZero, hexOf, List.all_flatMap, hbyte]

theorem u8FromStrRadix16_hexOf (b : UInt8) :
    u8FromStrRadix16 ((hexOf [b]).map Char.toUInt8) = some b :=
  Utf8.forall_byte (p := fun b => u8FromStrRadix16 ((hexOf [b]).map Char.toUInt8) = some b)
    (by decide +kernel) b

theorem hexToArray_hexOf (bs : List UInt8) :
    hexToArray bs.length ((hexOf bs).map Char.toUInt8) = some bs := by
  rw [hexToArray, List.length_map, length_hexOf, if_neg (by simp), hexPairs_hexOf]

section Formatted

variable {trace parent : List UInt8} (flags : UInt8)

def formatted (trace parent : List UInt8) (flags : UInt8) : String :=
  String.ofList (['0', '0', '-'] ++ hexOf trace ++ ['-'] ++ hexOf parent ++ ['-'] ++
    hexOf [flags])

theorem formatTraceparent_eq (ht : trace.length = 16) (hp : parent.length = 8)
    (ht0 : Bytes.ofBe trace ≠ 0) (hp0 : Bytes.ofBe parent ≠ 0) :
    formatTraceparent (BitVec.ofNat 128 (Bytes.ofBe trace)) (UInt64.ofNat (Bytes.ofBe parent))
      flags = some (formatted trace parent flags) := by
  have htrace : (BitVec.ofNat 128 (Bytes.ofBe trace)).toNat = Bytes.ofBe trace := by
    have h := Bytes.ofBe_lt trace
    rw [ht] at h
    rw [BitVec.toNat_ofNat]
    exact Nat.mod_eq_of_lt (by omega)
  have hparent : (UInt64.ofNat (Bytes.ofBe parent)).toNat = Bytes.ofBe parent := by
    have h := Bytes.ofBe_lt parent
    rw [hp] at h
    rw [UInt64.toNat_ofNat']
    exact Nat.mod_eq_of_lt (by omega)
  have hne : ¬ (BitVec.ofNat 128 (Bytes.ofBe trace) = 0 ∨
      UInt64.ofNat (Bytes.ofBe parent) = 0) := by
    rintro (h | h)
    · exact ht0 (by rw [← htrace, h]; rfl)
    · exact hp0 (by rw [← hparent, h]; rfl)
  have hflags : lowerHex 2 flags.toNat = hexOf [flags] := by
    have h : lowerHex 2 (Bytes.ofBe [flags]) = hexOf [flags] := lowerHex_ofBe rfl (by decide)
    simpa [Bytes.ofBe, Bytes.ofLe] using h
  rw [formatTraceparent, if_neg hne, htrace, hparent, hflags,
    lowerHex_ofBe (by rw [ht]) (by decide), lowerHex_ofBe (by rw [hp]) (by decide), formatted]

theorem parseTraceparent_formatted (ht : trace.length = 16) (hp : parent.length = 8)
    (ht0 : Bytes.ofBe trace ≠ 0) (hp0 : Bytes.ofBe parent ≠ 0) :
    parseTraceparent (formatted trace parent flags) = .ok
      ⟨[48, 48], (hexOf trace).map Char.toUInt8, (hexOf parent).map Char.toUInt8,
        (hexOf [flags]).map Char.toUInt8⟩ := by
  have hlower : ∀ bs : List UInt8, isLowercaseHex ((hexOf bs).map Char.toUInt8) = true :=
    fun bs => isLowercaseHex_map (hexOf_mem_hexChars bs)
  have hversion : isLowercaseHex [48, 48] = true := by decide
  have hnotReserved : ([48, 48] : List UInt8) ≠ [102, 102] := by decide
  refine parseTraceparent_eq_ok.mpr ⟨⟨?_, rfl, ?_, ?_, rfl⟩, ⟨hversion, hlower trace,
    hlower parent, hlower [flags], hnotReserved, ?_, ?_⟩⟩
  · rw [formatted, Utf8.bytes_ofList]
    · have hzero : '0'.toUInt8 = 48 := by decide
      have hdash : '-'.toUInt8 = hyphen := by decide
      simp [hzero, hdash]
    · intro c hc
      have hhex := fun bs : List UInt8 => fun h : c ∈ hexOf bs =>
        toNat_lt_of_mem_hexChars (hexOf_mem_hexChars bs c h)
      simp only [List.mem_append, List.mem_cons, List.not_mem_nil, or_false] at hc
      rcases hc with ((((hc | hc) | hc) | hc) | hc) | hc
      · rcases hc with rfl | rfl | rfl <;> decide
      · exact hhex trace hc
      · rw [hc]; decide
      · exact hhex parent hc
      · rw [hc]; decide
      · exact hhex [flags] hc
  · rw [List.length_map, length_hexOf, ht]
  · rw [List.length_map, length_hexOf, hp]
  · exact Bool.eq_false_iff.mpr (mt (isAllZero_hexOf trace).mp ht0)
  · exact Bool.eq_false_iff.mpr (mt (isAllZero_hexOf parent).mp hp0)

end Formatted

/-- What an accepted string decodes to, and the digits it decodes from. -/
theorem decoded_of_accepted {s : String} {parts : TraceParentParts}
    (h : parseTraceparent s = .ok parts) :
    ∃ trace parent flags, trace.length = 16 ∧ parent.length = 8 ∧
      hexToArray 16 parts.traceId = some trace ∧ hexToArray 8 parts.parentId = some parent ∧
      u8FromStrRadix16 parts.traceFlags = some flags ∧
      parts = ⟨parts.version, (hexOf trace).map Char.toUInt8, (hexOf parent).map Char.toUInt8,
        (hexOf [flags]).map Char.toUInt8⟩ ∧
      Bytes.ofBe trace ≠ 0 ∧ Bytes.ofBe parent ≠ 0 := by
  obtain ⟨hs, hc⟩ := parseTraceparent_eq_ok.mp h
  obtain ⟨trace, ht, htp, hteq⟩ := exists_hexPairs (n := 16) hc.traceId hs.traceId
  obtain ⟨parent, hp, hpp, hpeq⟩ := exists_hexPairs (n := 8) hc.parentId hs.parentId
  obtain ⟨fs, hf, -, hfeq⟩ := exists_hexPairs (n := 1) hc.traceFlags hs.traceFlags
  obtain ⟨flags, rfl⟩ := List.length_eq_one_iff.mp hf
  refine ⟨trace, parent, flags, ht, hp, ?_, ?_, ?_, ?_, ?_, ?_⟩
  · rw [hexToArray, if_neg (by simp [hs.traceId]), htp]
  · rw [hexToArray, if_neg (by simp [hs.parentId]), hpp]
  · rw [hfeq]
    exact u8FromStrRadix16_hexOf flags
  · rw [← hteq, ← hpeq, ← hfeq]
  · have hzero := hc.traceIdNonZero
    rw [hteq] at hzero
    exact mt (isAllZero_hexOf trace).mpr (Bool.eq_false_iff.mp hzero)
  · have hzero := hc.parentIdNonZero
    rw [hpeq] at hzero
    exact mt (isAllZero_hexOf parent).mpr (Bool.eq_false_iff.mp hzero)

/-- The node applies a traceparent exactly when the string is well formed. -/
theorem remoteContext_isSome_iff (s : String) :
    (remoteContext s).isSome = true ↔ WellFormed s := by
  rw [← parseTraceparent_accepts_iff]
  constructor
  · intro h
    rcases parseTraceparent_cases s with ⟨e, he, -⟩ | ⟨-, heq⟩
    · simp [remoteContext, he] at h
    · cases hc : checkParts (cut s) with
      | error e => simp [remoteContext, heq, hc] at h
      | ok parts' => exact ⟨parts', by rw [heq, hc]⟩
  · rintro ⟨parts, hparse⟩
    obtain ⟨trace, parent, flags, -, -, ht, hp, hf, -, ht0, hp0⟩ := decoded_of_accepted hparse
    have hnonzero : ∀ (n : ℕ) (bs : List UInt8), Bytes.ofBe bs ≠ 0 → bs ≠ List.replicate n 0 := by
      rintro n bs hbs rfl
      refine hbs ((ofLe_eq_zero_iff _).mpr ?_)
      simp
    have hne : ¬ (trace = List.replicate 16 0 ∨ parent = List.replicate 8 0) :=
      not_or.mpr ⟨hnonzero 16 trace ht0, hnonzero 8 parent hp0⟩
    simp only [remoteContext, hparse, ht, hp, hf, Option.bind_eq_bind, Option.bind_some,
      if_neg hne, Option.isSome_some]

/-- The parser never panics and accepts exactly the grammar; what the formatter
writes decodes to what was formatted; and what is accepted under version `00` is
what the formatter writes for what it decodes to. -/
theorem traceparent_roundtrip :
    (∀ s, parseTraceparent? s = some (parseTraceparent s)) ∧
    (∀ s, (∃ parts, parseTraceparent s = .ok parts) ↔ WellFormed s) ∧
    (∀ (traceId : BitVec 128) (parentId : UInt64) (flags : UInt8), traceId ≠ 0 → parentId ≠ 0 →
      ∃ t parts, formatTraceparent traceId parentId flags = some t ∧
        parseTraceparent t = .ok parts ∧
        hexToArray 16 parts.traceId = some (Bytes.be 16 traceId.toNat) ∧
        hexToArray 8 parts.parentId = some (Bytes.be 8 parentId.toNat) ∧
        u8FromStrRadix16 parts.traceFlags = some flags) ∧
    ∀ s parts, parseTraceparent s = .ok parts → parts.version = [48, 48] →
      ∃ trace parent flags, hexToArray 16 parts.traceId = some trace ∧
        hexToArray 8 parts.parentId = some parent ∧
        u8FromStrRadix16 parts.traceFlags = some flags ∧
        formatTraceparent (BitVec.ofNat 128 (Bytes.ofBe trace))
          (UInt64.ofNat (Bytes.ofBe parent)) flags = some s := by
  refine ⟨parseTraceparent?_eq, parseTraceparent_accepts_iff, ?_, ?_⟩
  · intro traceId parentId flags ht hp
    have hlt : traceId.toNat < 256 ^ 16 := by
      have h := traceId.isLt
      omega
    have hlp : parentId.toNat < 256 ^ 8 := by
      have h := parentId.toNat_lt
      omega
    have htrace : Bytes.ofBe (Bytes.be 16 traceId.toNat) = traceId.toNat := Bytes.ofBe_be hlt
    have hparent : Bytes.ofBe (Bytes.be 8 parentId.toNat) = parentId.toNat := Bytes.ofBe_be hlp
    have ht0 : Bytes.ofBe (Bytes.be 16 traceId.toNat) ≠ 0 := by
      rw [htrace]
      exact fun h => ht (BitVec.eq_of_toNat_eq h)
    have hp0 : Bytes.ofBe (Bytes.be 8 parentId.toNat) ≠ 0 := by
      rw [hparent]
      exact fun h => hp (UInt64.toNat_inj.mp h)
    have hformat := formatTraceparent_eq flags (by simp) (by simp) ht0 hp0
    rw [htrace, hparent, BitVec.ofNat_toNat, BitVec.setWidth_eq, UInt64.ofNat_toNat] at hformat
    have hparse := parseTraceparent_formatted flags (by simp) (by simp) ht0 hp0
    refine ⟨_, _, hformat, hparse, ?_, ?_, u8FromStrRadix16_hexOf flags⟩
    · simpa using hexToArray_hexOf (Bytes.be 16 traceId.toNat)
    · simpa using hexToArray_hexOf (Bytes.be 8 parentId.toNat)
  · intro s parts hparse hversion
    obtain ⟨trace, parent, flags, htl, hpl, ht, hp, hf, hparts, ht0, hp0⟩ :=
      decoded_of_accepted hparse
    have hsame : Utf8.bytes s = Utf8.bytes (formatted trace parent flags) := by
      have hs := (parseTraceparent_eq_ok.mp hparse).1.bytes
      have hformatted := (parseTraceparent_eq_ok.mp
        (parseTraceparent_formatted flags htl hpl ht0 hp0)).1.bytes
      rw [hparts, hversion] at hs
      exact hs.trans hformatted.symm
    refine ⟨trace, parent, flags, ht, hp, hf, ?_⟩
    rw [formatTraceparent_eq flags htl hpl ht0 hp0, Utf8.bytes_injective hsame]

end OtkCore
