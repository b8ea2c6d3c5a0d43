import OtkCore.OtkProtocol
import OtkCore.Lib.Utf8
import OtkCore.Lib.Bytes
import Mathlib.Data.Bool.AllAny

/-!
# The traceparent string

The parser looks for hyphens at three bytes and then slices the string. An index
out of range or a slice inside a character panics, which `none` stands for in
`parseTraceparent?`; the hyphens are what rules it out, so `parseTraceparent`,
which only takes and drops bytes, is the whole behaviour.
-/
namespace OtkCore

/-- The byte of `-`. -/
def hyphen : UInt8 := 45

/-- What is checked once the segments have been cut out. -/
def checkParts (parts : TraceParentParts) : Except TraceParentError TraceParentParts :=
  if !isLowercaseHex parts.version || !isLowercaseHex parts.traceId ||
      !isLowercaseHex parts.parentId || !isLowercaseHex parts.traceFlags then .error .invalidHex
  else if parts.version = [102, 102] then .error .forbiddenVersion
  else if isAllZero parts.traceId then .error .invalidTraceId
  else if isAllZero parts.parentId then .error .invalidParentId
  else .ok parts

/-- Parse a traceparent; `none` is a panic of an index or a slice. -/
def parseTraceparent? (s : String) : Option (Except TraceParentError TraceParentParts) :=
  let bytes := Utf8.bytes s
  if bytes.length ≠ 55 then some (.error (.invalidLength bytes.length))
  else do
    let b2 ← bytes[2]?
    let b35 ← bytes[35]?
    let b52 ← bytes[52]?
    if b2 ≠ hyphen ∨ b35 ≠ hyphen ∨ b52 ≠ hyphen then some (.error .invalidStructure)
    else do
      let version ← Utf8.slice? bytes 0 2
      let traceId ← Utf8.slice? bytes 3 35
      let parentId ← Utf8.slice? bytes 36 52
      let traceFlags ← Utf8.slice? bytes 53 55
      some (checkParts ⟨version, traceId, parentId, traceFlags⟩)

/-- `{:0width$x}`: lowercase hexadecimal, padded with zeros to a width. -/
def lowerHex (width n : ℕ) : List Char := (Nat.toDigits 16 n).leftpad width '0'

def formatTraceparent (traceId : BitVec 128) (parentId : UInt64) (traceFlags : UInt8) :
    Option String :=
  if traceId = 0 ∨ parentId = 0 then none
  else some (String.ofList (['0', '0', '-'] ++ lowerHex 32 traceId.toNat ++ ['-'] ++
    lowerHex 16 parentId.toNat ++ ['-'] ++ lowerHex 2 traceFlags.toNat))

/-- The bytes of a string are four segments of the right lengths. -/
structure Segments (s : String) (parts : TraceParentParts) : Prop where
  bytes : Utf8.bytes s = parts.version ++ hyphen :: (parts.traceId ++ hyphen ::
    (parts.parentId ++ hyphen :: parts.traceFlags))
  version : parts.version.length = 2
  traceId : parts.traceId.length = 32
  parentId : parts.parentId.length = 16
  traceFlags : parts.traceFlags.length = 2

theorem split_at {l : List UInt8} {i : ℕ} {b : UInt8} (h : l[i]? = some b) :
    l = l.take i ++ b :: l.drop (i + 1) := by
  obtain ⟨hi, rfl⟩ := List.getElem?_eq_some_iff.mp h
  rw [List.getElem_cons_drop, List.take_append_drop]

theorem Segments.hyphens {s : String} {parts : TraceParentParts} (h : Segments s parts) :
    (Utf8.bytes s).length = 55 ∧ (Utf8.bytes s)[2]? = some hyphen ∧
      (Utf8.bytes s)[35]? = some hyphen ∧ (Utf8.bytes s)[52]? = some hyphen := by
  obtain ⟨hb, hv, ht, hp, hf⟩ := h
  have hlen : (Utf8.bytes s).length = 55 := by simp [hb, hv, ht, hp, hf]
  refine ⟨hlen, ?_, ?_, ?_⟩ <;>
    simp [hb, List.getElem?_append, hv, ht, hp]

def cut (s : String) : TraceParentParts :=
  ⟨(Utf8.bytes s).take 2, ((Utf8.bytes s).drop 3).take 32, ((Utf8.bytes s).drop 36).take 16,
    ((Utf8.bytes s).drop 53).take 2⟩

section Hyphens

variable {s : String} (hlen : (Utf8.bytes s).length = 55)
  (h2 : (Utf8.bytes s)[2]? = some hyphen) (h35 : (Utf8.bytes s)[35]? = some hyphen)
  (h52 : (Utf8.bytes s)[52]? = some hyphen)
include hlen h2 h35 h52

theorem segments_cut : Segments s (cut s) := by
  have hfirst := split_at h2
  have hsecond := split_at (l := (Utf8.bytes s).drop 3) (i := 32) (by simpa using h35)
  have hthird := split_at (l := (Utf8.bytes s).drop 36) (i := 16) (by simpa using h52)
  rw [List.drop_drop] at hsecond hthird
  constructor
  case bytes =>
    have hlast : ((Utf8.bytes s).drop 53).take 2 = (Utf8.bytes s).drop 53 :=
      List.take_of_length_le (by simp [hlen])
    simp only [cut, hlast]
    exact hfirst.trans (congrArg (fun x => (Utf8.bytes s).take 2 ++ hyphen :: x)
      (hsecond.trans (congrArg (fun x => ((Utf8.bytes s).drop 3).take 32 ++ hyphen :: x) hthird)))
  all_goals simp [cut, hlen]

/-- Every slice starts and ends next to a hyphen or at an end of the string, so
none of them panics. -/
theorem slices_cut :
    Utf8.slice? (Utf8.bytes s) 0 2 = some (cut s).version ∧
      Utf8.slice? (Utf8.bytes s) 3 35 = some (cut s).traceId ∧
      Utf8.slice? (Utf8.bytes s) 36 52 = some (cut s).parentId ∧
      Utf8.slice? (Utf8.bytes s) 53 55 = some (cut s).traceFlags := by
  have hascii : hyphen < 128 := by decide
  have hend : Utf8.isCharBoundary (Utf8.bytes s) 55 = true := by
    simp [Utf8.isCharBoundary, hlen]
  have b0 : Utf8.isCharBoundary (Utf8.bytes s) 0 = true := by simp [Utf8.isCharBoundary]
  have b2 := Utf8.boundary_of_ascii h2 hascii
  have b3 := Utf8.boundary_after_ascii h2 hascii
  have b35 := Utf8.boundary_of_ascii h35 hascii
  have b36 := Utf8.boundary_after_ascii h35 hascii
  have b52 := Utf8.boundary_of_ascii h52 hascii
  have b53 := Utf8.boundary_after_ascii h52 hascii
  have hslice : ∀ i j, i ≤ j → Utf8.isCharBoundary (Utf8.bytes s) i = true →
      Utf8.isCharBoundary (Utf8.bytes s) j = true →
      Utf8.slice? (Utf8.bytes s) i j = some (((Utf8.bytes s).drop i).take (j - i)) := by
    intro i j hij hi hj
    rw [Utf8.slice?, if_pos ⟨hij, hi, hj⟩, List.drop_take]
  exact ⟨hslice 0 2 (by decide) b0 b2, hslice 3 35 (by decide) b3 b35,
    hslice 36 52 (by decide) b36 b52, hslice 53 55 (by decide) b53 hend⟩

end Hyphens

def misplaced (s : String) : Prop :=
  (Utf8.bytes s)[2]? ≠ some hyphen ∨ (Utf8.bytes s)[35]? ≠ some hyphen ∨
    (Utf8.bytes s)[52]? ≠ some hyphen

instance (s : String) : Decidable (misplaced s) := inferInstanceAs (Decidable (_ ∨ _))

theorem parseTraceparent_eq (s : String) :
    parseTraceparent s =
      if (Utf8.bytes s).length ≠ 55 then .error (.invalidLength (Utf8.bytes s).length)
      else if misplaced s then .error .invalidStructure
      else checkParts (cut s) := by
  have hbytes : s.toByteArray.data.toList = Utf8.bytes s := by
    rw [← String.utf8Encode_toList, List.utf8Encode, List.toList_data_toByteArray, Utf8.bytes]
  rw [parseTraceparent, hbytes]
  rfl

/-- A string is rejected for its length or its hyphens, or cut into segments. -/
theorem parseTraceparent_cases (s : String) :
    (∃ e, parseTraceparent s = .error e ∧ ∀ parts, ¬ Segments s parts) ∨
    (Segments s (cut s) ∧ parseTraceparent s = checkParts (cut s)) := by
  rw [parseTraceparent_eq]
  by_cases hlen : (Utf8.bytes s).length = 55
  · rw [if_neg (not_not_intro hlen)]
    by_cases h : misplaced s
    · refine Or.inl ⟨.invalidStructure, if_pos h, ?_⟩
      intro parts hs
      obtain ⟨-, h2, h35, h52⟩ := hs.hyphens
      simp [misplaced, h2, h35, h52] at h
    · rw [if_neg h]
      simp only [misplaced, not_or, not_not] at h
      exact Or.inr ⟨segments_cut hlen h.1 h.2.1 h.2.2, rfl⟩
  · exact Or.inl ⟨_, if_pos hlen, fun parts hs => hlen hs.hyphens.1⟩

/-- No index and no slice panics, whatever characters the string holds. -/
theorem parseTraceparent?_eq (s : String) : parseTraceparent? s = some (parseTraceparent s) := by
  rw [parseTraceparent_eq]
  by_cases hlen : (Utf8.bytes s).length = 55
  · have hget : ∀ i, i < 55 → ∃ b, (Utf8.bytes s)[i]? = some b :=
      fun i hi => ⟨(Utf8.bytes s)[i], List.getElem?_eq_getElem (by omega)⟩
    obtain ⟨b2, h2⟩ := hget 2 (by decide)
    obtain ⟨b35, h35⟩ := hget 35 (by decide)
    obtain ⟨b52, h52⟩ := hget 52 (by decide)
    have hsame : misplaced s ↔ (b2 ≠ hyphen ∨ b35 ≠ hyphen ∨ b52 ≠ hyphen) := by
      simp only [misplaced, h2, h35, h52, ne_eq, Option.some.injEq]
    rw [if_neg (not_not_intro hlen), parseTraceparent?, if_neg (not_not_intro hlen)]
    by_cases h : misplaced s
    · rw [if_pos h, h2, h35, h52]
      exact if_pos (hsame.mp h)
    · rw [if_neg h]
      rw [hsame, not_or, not_or, not_not, not_not, not_not] at h
      obtain ⟨rfl, rfl, rfl⟩ := h
      obtain ⟨h0, h3, h36, h53⟩ := slices_cut hlen h2 h35 h52
      simp [h0, h3, h36, h53, h2, h35, h52]
  · rw [parseTraceparent?, if_pos hlen, if_pos hlen]

theorem Segments.unique {s : String} {parts parts' : TraceParentParts} (h : Segments s parts)
    (h' : Segments s parts') : parts = parts' := by
  obtain ⟨hb, hv, ht, hp, -⟩ := h
  obtain ⟨hb', hv', ht', hp', -⟩ := h'
  rw [hb] at hb'
  obtain ⟨hversion, hb'⟩ := List.append_inj hb' (hv.trans hv'.symm)
  obtain ⟨htrace, hb'⟩ := List.append_inj (List.cons.inj hb').2 (ht.trans ht'.symm)
  obtain ⟨hparent, hb'⟩ := List.append_inj (List.cons.inj hb').2 (hp.trans hp'.symm)
  obtain ⟨version, traceId, parentId, traceFlags⟩ := parts
  obtain ⟨version', traceId', parentId', traceFlags'⟩ := parts'
  simp only [TraceParentParts.mk.injEq]
  exact ⟨hversion, htrace, hparent, (List.cons.inj hb').2⟩

theorem parseTraceparent_of_segments {s : String} {parts : TraceParentParts}
    (h : Segments s parts) : parseTraceparent s = checkParts parts := by
  rcases parseTraceparent_cases s with ⟨-, -, hno⟩ | ⟨h', heq⟩
  · exact absurd h (hno parts)
  · rwa [h.unique h']

structure Checked (parts : TraceParentParts) : Prop where
  version : isLowercaseHex parts.version = true
  traceId : isLowercaseHex parts.traceId = true
  parentId : isLowercaseHex parts.parentId = true
  traceFlags : isLowercaseHex parts.traceFlags = true
  notReserved : parts.version ≠ [102, 102]
  traceIdNonZero : isAllZero parts.traceId = false
  parentIdNonZero : isAllZero parts.parentId = false

theorem checkParts_eq_ok {parts parts' : TraceParentParts} :
    checkParts parts = .ok parts' ↔ Checked parts ∧ parts = parts' := by
  unfold checkParts
  constructor
  · intro h
    split_ifs at h with hhex hff htrace hparent
    simp only [Bool.or_eq_true, Bool.not_eq_true', not_or, Bool.not_eq_false] at hhex
    exact ⟨⟨hhex.1.1.1, hhex.1.1.2, hhex.1.2, hhex.2, hff, by simpa using htrace,
      by simpa using hparent⟩, by simpa using h⟩
  · rintro ⟨⟨hv, ht, hp, hf, hff, htz, hpz⟩, rfl⟩
    simp [hv, ht, hp, hf, hff, htz, hpz]

/-- An accepted string has four segments that pass the checks. -/
theorem parseTraceparent_eq_ok {s : String} {parts : TraceParentParts} :
    parseTraceparent s = .ok parts ↔ Segments s parts ∧ Checked parts := by
  constructor
  · intro h
    rcases parseTraceparent_cases s with ⟨e, he, -⟩ | ⟨hs, heq⟩
    · simp [he] at h
    · rw [heq, checkParts_eq_ok] at h
      obtain ⟨hc, rfl⟩ := h
      exact ⟨hs, hc⟩
  · rintro ⟨hs, hc⟩
    rw [parseTraceparent_of_segments hs, checkParts_eq_ok.mpr ⟨hc, rfl⟩]

def hexChars : List Char :=
  ['0', '1', '2', '3', '4', '5', '6', '7', '8', '9', 'a', 'b', 'c', 'd', 'e', 'f']

/-- The traceparent grammar, on the characters of the string. -/
def WellFormed (s : String) : Prop :=
  ∃ version traceId parentId traceFlags : List Char,
    s.toList = version ++ '-' :: (traceId ++ '-' :: (parentId ++ '-' :: traceFlags)) ∧
    (version.length = 2 ∧ traceId.length = 32 ∧ parentId.length = 16 ∧ traceFlags.length = 2) ∧
    (∀ c ∈ version ++ traceId ++ parentId ++ traceFlags, c ∈ hexChars) ∧
    version ≠ ['f', 'f'] ∧ (∃ c ∈ traceId, c ≠ '0') ∧ ∃ c ∈ parentId, c ≠ '0'

theorem toNat_lt_of_mem_hexChars {c : Char} (h : c ∈ hexChars) : c.toNat < 128 := by
  have hall : ∀ c ∈ hexChars, c.toNat < 128 := List.all_iff_forall_prop.mp (by decide)
  exact hall c h

theorem toUInt8_injective {c d : Char} (hc : c ∈ hexChars) (hd : d ∈ hexChars)
    (h : c.toUInt8 = d.toUInt8) : c = d := by
  have hmap : [c] = [d] := by
    refine (Utf8.map_toUInt8_inj ?_ ?_).mp (congrArg (fun b => [b]) h)
    · simpa using toNat_lt_of_mem_hexChars hc
    · simpa using toNat_lt_of_mem_hexChars hd
  exact List.singleton_inj.mp hmap

theorem isLowercaseHex_map {cs : List Char} (h : ∀ c ∈ cs, c ∈ hexChars) :
    isLowercaseHex (cs.map Char.toUInt8) = true := by
  have hall : ∀ c ∈ hexChars, isLowercaseHex [c.toUInt8] = true :=
    List.all_iff_forall_prop.mp (by decide)
  simp only [isLowercaseHex, List.all_map, List.all_eq_true]
  intro c hc
  simpa [isLowercaseHex] using hall c (h c hc)

/-- Lowercase hexadecimal bytes are the bytes of hexadecimal characters. -/
theorem exists_of_isLowercaseHex {bs : List UInt8} (h : isLowercaseHex bs = true) :
    ∃ cs : List Char, (∀ c ∈ cs, c ∈ hexChars) ∧ bs = cs.map Char.toUInt8 := by
  have hall : ∀ b : UInt8, isLowercaseHex [b] = true →
      Char.ofUInt8 b ∈ hexChars ∧ (Char.ofUInt8 b).toUInt8 = b :=
    Utf8.forall_byte (by decide +kernel)
  have hbyte : ∀ b ∈ bs, isLowercaseHex [b] = true := by
    intro b hb
    simpa [isLowercaseHex] using List.all_eq_true.mp h b hb
  refine ⟨bs.map Char.ofUInt8, ?_, ?_⟩
  · intro c hc
    obtain ⟨b, hb, rfl⟩ := List.mem_map.mp hc
    exact (hall b (hbyte b hb)).1
  · rw [List.map_map]
    exact ((List.map_congr_left fun b hb => (hall b (hbyte b hb)).2).trans (List.map_id _)).symm

theorem isAllZero_map {cs : List Char} (h : ∀ c ∈ cs, c ∈ hexChars) :
    isAllZero (cs.map Char.toUInt8) = false ↔ ∃ c ∈ cs, c ≠ '0' := by
  have hzero : ∀ c ∈ cs, c.toUInt8 = 48 ↔ c = '0' := by
    intro c hc
    exact ⟨fun hb => toUInt8_injective (h c hc) (by decide) (hb.trans (by decide)),
      fun hb => hb ▸ by decide⟩
  rw [isAllZero, List.all_map, List.all_eq_false]
  constructor
  · rintro ⟨c, hc, hne⟩
    exact ⟨c, hc, by simpa [hzero c hc] using hne⟩
  · rintro ⟨c, hc, hne⟩
    exact ⟨c, hc, by simpa [hzero c hc] using hne⟩

theorem version_map_eq_iff {cs : List Char} (h : ∀ c ∈ cs, c ∈ hexChars) :
    cs.map Char.toUInt8 = [102, 102] ↔ cs = ['f', 'f'] := by
  constructor
  · intro hmap
    have hf : ∀ c ∈ cs, c.toUInt8 = 102 → c = 'f' :=
      fun c hc hb => toUInt8_injective (h c hc) (by decide) (hb.trans (by decide))
    rcases cs with _ | ⟨a, _ | ⟨b, _ | ⟨c, cs⟩⟩⟩
    · simp at hmap
    · simp at hmap
    · simp only [List.map_cons, List.map_nil, List.cons.injEq, and_true] at hmap
      rw [hf a (by simp) hmap.1, hf b (by simp) hmap.2]
    · simp at hmap
  · rintro rfl
    decide

theorem parseTraceparent_accepts_iff (s : String) :
    (∃ parts, parseTraceparent s = .ok parts) ↔ WellFormed s := by
  have htext : ∀ version traceId parentId traceFlags : List Char,
      (version ++ '-' :: (traceId ++ '-' :: (parentId ++ '-' :: traceFlags))).map Char.toUInt8 =
        version.map Char.toUInt8 ++ hyphen :: (traceId.map Char.toUInt8 ++ hyphen ::
          (parentId.map Char.toUInt8 ++ hyphen :: traceFlags.map Char.toUInt8)) := by
    intro version traceId parentId traceFlags
    have hbyte : '-'.toUInt8 = hyphen := by decide
    simp [hbyte]
  have hascii : ∀ {version traceId parentId traceFlags : List Char},
      (∀ c ∈ version ++ traceId ++ parentId ++ traceFlags, c ∈ hexChars) →
      ∀ c ∈ version ++ '-' :: (traceId ++ '-' :: (parentId ++ '-' :: traceFlags)),
        c.toNat < 128 := by
    intro version traceId parentId traceFlags h c hc
    by_cases hhyphen : c = '-'
    · subst hhyphen
      decide
    · refine toNat_lt_of_mem_hexChars (h c ?_)
      simpa [hhyphen, or_assoc] using hc
  constructor
  · rintro ⟨parts, hparse⟩
    obtain ⟨hs, hc⟩ := parseTraceparent_eq_ok.mp hparse
    obtain ⟨version, hv, hvb⟩ := exists_of_isLowercaseHex hc.version
    obtain ⟨traceId, ht, htb⟩ := exists_of_isLowercaseHex hc.traceId
    obtain ⟨parentId, hp, hpb⟩ := exists_of_isLowercaseHex hc.parentId
    obtain ⟨traceFlags, hf, hfb⟩ := exists_of_isLowercaseHex hc.traceFlags
    have hhex : ∀ c ∈ version ++ traceId ++ parentId ++ traceFlags, c ∈ hexChars := by
      intro c hmem
      simp only [List.mem_append] at hmem
      rcases hmem with ((hmem | hmem) | hmem) | hmem
      exacts [hv c hmem, ht c hmem, hp c hmem, hf c hmem]
    have hbytes := hs.bytes
    rw [hvb, htb, hpb, hfb, ← htext] at hbytes
    have hlengths := And.intro hs.version (And.intro hs.traceId
      (And.intro hs.parentId hs.traceFlags))
    rw [hvb, htb, hpb, hfb] at hlengths
    simp only [List.length_map] at hlengths
    refine ⟨version, traceId, parentId, traceFlags, ?_, hlengths, hhex, ?_, ?_, ?_⟩
    · rw [Utf8.eq_ofList_of_bytes (hascii hhex) hbytes, String.toList_ofList]
    · exact mt (version_map_eq_iff hv).mpr (hvb ▸ hc.notReserved)
    · exact (isAllZero_map ht).mp (htb ▸ hc.traceIdNonZero)
    · exact (isAllZero_map hp).mp (hpb ▸ hc.parentIdNonZero)
  · rintro ⟨version, traceId, parentId, traceFlags, hlist, ⟨hv, ht, hp, hf⟩, hhex, hff, htz, hpz⟩
    have hbytes : Utf8.bytes s = _ :=
      (congrArg (List.flatMap String.utf8EncodeChar) hlist).trans
        ((Utf8.flatMap_ascii (hascii hhex)).trans (htext _ _ _ _))
    simp only [List.mem_append] at hhex
    have hversion : ∀ c ∈ version, c ∈ hexChars := fun c hc => hhex c (by simp [hc])
    have htrace : ∀ c ∈ traceId, c ∈ hexChars := fun c hc => hhex c (by simp [hc])
    have hparent : ∀ c ∈ parentId, c ∈ hexChars := fun c hc => hhex c (by simp [hc])
    have hflags : ∀ c ∈ traceFlags, c ∈ hexChars := fun c hc => hhex c (by simp [hc])
    refine ⟨⟨version.map Char.toUInt8, traceId.map Char.toUInt8, parentId.map Char.toUInt8,
      traceFlags.map Char.toUInt8⟩, parseTraceparent_eq_ok.mpr ⟨⟨hbytes, ?_, ?_, ?_, ?_⟩, ?_⟩⟩
    · simpa using hv
    · simpa using ht
    · simpa using hp
    · simpa using hf
    · exact ⟨isLowercaseHex_map hversion, isLowercaseHex_map htrace, isLowercaseHex_map hparent,
        isLowercaseHex_map hflags, mt (version_map_eq_iff hversion).mp hff,
        (isAllZero_map htrace).mpr htz, (isAllZero_map hparent).mpr hpz⟩

end OtkCore
