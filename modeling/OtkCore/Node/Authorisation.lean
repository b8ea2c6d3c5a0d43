import OtkCore.Ingest.Protocol
import OtkCore.Lib.Trimming
import OtkCore.Lib.Utf8
import Mathlib.Data.Bool.AllAny

/-!
# Authorisation decisions

The producer side and the API side each compare a supplied token with every
token of an allow-list; an empty list lets everyone in. The API side first reads
the token out of an `Authorization` header. `HeaderValue::to_str`, which turns
the bytes of a header into text, comes from another crate and is a parameter.
-/
namespace OtkCore

open Ingest Trimming

structure AuthState where
  producerTokens : List String
  apiTokens : List String
  deriving DecidableEq, Repr

namespace AuthState

/-- The list before the swap is returned with the state after it. -/
def setProducerTokens (state : AuthState) (newTokens : List String) : List String × AuthState :=
  (state.producerTokens, { state with producerTokens := newTokens })

def setApiTokens (state : AuthState) (newTokens : List String) : List String × AuthState :=
  (state.apiTokens, { state with apiTokens := newTokens })

end AuthState

/-- All differences are collected before the answer is given. -/
def constantTimeEq (a b : List UInt8) : Bool :=
  if a.length ≠ b.length then false
  else (a.zip b).foldl (fun diff xy => diff ||| (xy.1 ^^^ xy.2)) 0 == 0

/-- Whether one of the allowed tokens is the supplied one; all are compared. -/
def anyTokenEq (allowed : List String) (supplied : List UInt8) : Bool :=
  allowed.foldl (fun hit allowedToken => hit || constantTimeEq (Utf8.bytes allowedToken) supplied)
    false

/-- The producer side, on the list it took as a snapshot. -/
def authorise (allowed : List String) : ConnectAuthoriser := fun _ token =>
  if allowed.isEmpty then .ok ()
  else match token with
    | none => .error .unauthorized
    | some supplied =>
      if anyTokenEq allowed (Utf8.bytes supplied) then .ok () else .error .unauthorized

def isHttpWs (c : Char) : Bool := c == ' ' || c == '\t'

def eqIgnoreAsciiCase (a b : List Char) : Bool := a.map Char.toLower == b.map Char.toLower

def parseBearerToken (raw : String) : Option String := do
  let trimmed := trimMatches isHttpWs raw.toList
  let (scheme, rest) ← splitOnce isHttpWs trimmed
  if !eqIgnoreAsciiCase scheme "bearer".toList then none
  else
    let token := trimMatches isHttpWs rest
    if token.isEmpty then none else some (String.ofList token)

/-- The values of the `Authorization` headers of a request, in order. -/
structure Request where
  authorization : List (List UInt8)

/-- What becomes of a request: the handler runs, or it is answered with a 401. -/
inductive Admission
  | forwarded
  | refused (status : ℕ) (wwwAuthenticate body : String)
  deriving DecidableEq, Repr

/-- The API side, on the list it took as a snapshot. -/
def requireApiToken (toStr : List UInt8 → Option String) (apiTokens : List String)
    (request : Request) : Admission :=
  if apiTokens.isEmpty then .forwarded
  else
    let supplied := (request.authorization.head?.bind toStr).bind parseBearerToken
    let tokenOk := match supplied with
      | none => false
      | some t => anyTokenEq apiTokens (Utf8.bytes t)
    if tokenOk then .forwarded
    else .refused 401 "Bearer realm=\"otk-node\"" "missing or invalid bearer token"

theorem diff_eq_zero_iff {acc : UInt8} {xys : List (UInt8 × UInt8)} :
    xys.foldl (fun diff xy => diff ||| (xy.1 ^^^ xy.2)) acc = 0 ↔
      acc = 0 ∧ ∀ xy ∈ xys, xy.1 = xy.2 := by
  induction xys generalizing acc with
  | nil => simp
  | cons xy xys ih =>
    rw [List.foldl_cons, ih, UInt8.or_eq_zero_iff, UInt8.xor_eq_zero_iff, List.forall_mem_cons,
      and_assoc]

theorem constantTimeEq_iff {a b : List UInt8} : constantTimeEq a b = true ↔ a = b := by
  unfold constantTimeEq
  by_cases hlen : a.length = b.length
  · rw [if_neg (not_not.mpr hlen), beq_iff_eq, diff_eq_zero_iff]
    constructor
    · rintro ⟨-, hall⟩
      refine List.ext_getElem hlen fun i hi hj => ?_
      have hlt : i < (a.zip b).length := by
        rw [List.length_zip]
        omega
      exact hall (a[i], b[i]) (List.mem_iff_getElem.mpr ⟨i, hlt, by simp⟩)
    · rintro rfl
      refine ⟨rfl, fun xy hxy => ?_⟩
      obtain ⟨i, hi, rfl⟩ := List.mem_iff_getElem.mp hxy
      simp
  · rw [if_pos hlen]
    exact ⟨nofun, fun h => absurd (congrArg List.length h) hlen⟩

theorem foldl_or_iff {α : Type} {p : α → Bool} {hit : Bool} {xs : List α} :
    xs.foldl (fun hit x => hit || p x) hit = true ↔ hit = true ∨ ∃ x ∈ xs, p x = true := by
  induction xs generalizing hit with
  | nil => simp
  | cons x xs ih => simp [ih, or_assoc]

/-- Comparing with all tokens finds the supplied one exactly if it is allowed. -/
theorem anyTokenEq_iff {allowed : List String} {supplied : String} :
    anyTokenEq allowed (Utf8.bytes supplied) = true ↔ supplied ∈ allowed := by
  rw [anyTokenEq, foldl_or_iff]
  constructor
  · rintro (h | ⟨token, hmem, h⟩)
    · exact absurd h (by simp)
    · rwa [← Utf8.bytes_injective (constantTimeEq_iff.mp h)]
  · exact fun h => .inr ⟨supplied, h, constantTimeEq_iff.mpr rfl⟩

theorem authorise_ok_iff {allowed : List String} {id : ProducerId} {token : Option String} :
    authorise allowed id token = .ok () ↔ allowed = [] ∨ ∃ t ∈ allowed, token = some t := by
  unfold authorise
  cases allowed with
  | nil => simp
  | cons a allowed =>
    cases token with
    | none => simp
    | some supplied =>
      by_cases h : anyTokenEq (a :: allowed) (Utf8.bytes supplied) = true
      · rw [if_neg (by simp)]
        simpa [h] using anyTokenEq_iff.mp h
      · rw [if_neg (by simp)]
        simpa [h] using fun hmem => h (anyTokenEq_iff.mpr hmem)

theorem eqIgnoreAsciiCase_bearer {scheme : List Char}
    (h : eqIgnoreAsciiCase scheme "bearer".toList = true) :
    scheme ≠ [] ∧ ∀ c ∈ scheme, isHttpWs c = false := by
  have heq : scheme.map Char.toLower = "bearer".toList := by simpa [eqIgnoreAsciiCase] using h
  refine ⟨by rintro rfl; simp at heq, fun c hc => ?_⟩
  have hlower : c.toLower ∈ "bearer".toList := heq ▸ List.mem_map_of_mem hc
  by_contra hws
  -- separators have no case, and the scheme has none of them
  have hor : c = ' ' ∨ c = '\t' := by
    rw [Bool.not_eq_false, isHttpWs, Bool.or_eq_true, beq_iff_eq, beq_iff_eq] at hws
    exact hws
  rcases hor with rfl | rfl
  · exact absurd hlower (by decide)
  · exact absurd hlower (by decide)

/-- The header text of the form `bearer token` is the one a token is read from. -/
theorem parseBearerToken_eq_some_iff {raw token : String} :
    parseBearerToken raw = some token ↔
      ∃ scheme, eqIgnoreAsciiCase scheme "bearer".toList = true ∧
        Fields isHttpWs scheme token.toList raw.toList := by
  constructor
  · intro h
    simp only [parseBearerToken, Option.bind_eq_bind, Option.bind_eq_some_iff] at h
    obtain ⟨⟨scheme, rest⟩, hsplit, h⟩ := h
    cases heq : eqIgnoreAsciiCase scheme "bearer".toList with
    | false => simp only [heq, Bool.not_false, if_true, reduceCtorEq] at h
    | true =>
      obtain ⟨hne, hws⟩ := eqIgnoreAsciiCase_bearer heq
      simp only [heq, Bool.not_true, Bool.false_eq_true, if_false] at h
      by_cases htoken : trimMatches isHttpWs rest = []
      · simp [htoken] at h
      · rw [if_neg (by simpa using htoken)] at h
        obtain rfl := Option.some.inj h
        exact ⟨scheme, heq, (fields_iff hne hws).mpr
          ⟨rest, hsplit, by rw [String.toList_ofList], by rwa [String.toList_ofList]⟩⟩
  · rintro ⟨scheme, heq, hfields⟩
    obtain ⟨hne, hws⟩ := eqIgnoreAsciiCase_bearer heq
    obtain ⟨rest, hsplit, htoken, htail⟩ := (fields_iff hne hws).mp hfields
    simp only [parseBearerToken, Option.bind_eq_bind, hsplit, Option.bind_some, heq, htoken]
    rw [if_neg (by simp), if_neg (by simpa using htail), String.ofList_toList]

def isHttpWsByte (b : UInt8) : Bool := b == 32 || b == 9

/-- `u8::to_ascii_lowercase`. -/
def toAsciiLowercase (b : UInt8) : UInt8 := if 65 ≤ b ∧ b ≤ 90 then b + 32 else b

/-- The bytes a header value may have to be text. -/
def isVisibleAscii (b : UInt8) : Bool := (32 ≤ b && b < 127) || b == 9

/-- `HeaderValue::to_str`: a value of visible ASCII is text, any other is not. -/
def ReadsVisibleAscii (toStr : List UInt8 → Option String) : Prop :=
  ∀ value s, toStr value = some s ↔ (∀ b ∈ value, isVisibleAscii b) ∧ Utf8.bytes s = value

/-- The value is `ws* scheme ws+ token ws*`, the scheme is `bearer` in any case,
and the token is nonempty with no separator at its ends. -/
def IsBearer (value token : List UInt8) : Prop :=
  ∃ scheme, scheme.map toAsciiLowercase = Utf8.bytes "bearer" ∧
    Fields isHttpWsByte scheme token value

theorem ascii_of_isVisibleAscii {b : UInt8} : isVisibleAscii b = true → b < 128 :=
  Utf8.forall_byte (p := fun b => isVisibleAscii b = true → b < 128) (by decide +kernel) b

theorem isHttpWsByte_toUInt8 {c : Char} (hc : c.toNat < 128) :
    isHttpWsByte c.toUInt8 = isHttpWs c :=
  Utf8.forall_ascii (p := fun c => isHttpWsByte c.toUInt8 = isHttpWs c) (by decide +kernel) hc

theorem toAsciiLowercase_toUInt8 {c : Char} (hc : c.toNat < 128) :
    toAsciiLowercase c.toUInt8 = c.toLower.toUInt8 ∧ c.toLower.toNat < 128 :=
  Utf8.forall_ascii
    (p := fun c => toAsciiLowercase c.toUInt8 = c.toLower.toUInt8 ∧ c.toLower.toNat < 128)
    (by decide +kernel) hc

theorem map_toAsciiLowercase_iff {scheme : List Char} (h : ∀ c ∈ scheme, c.toNat < 128) :
    (scheme.map Char.toUInt8).map toAsciiLowercase = Utf8.bytes "bearer" ↔
      eqIgnoreAsciiCase scheme "bearer".toList = true := by
  have hmap : (scheme.map Char.toUInt8).map toAsciiLowercase =
      (scheme.map Char.toLower).map Char.toUInt8 := by
    rw [List.map_map, List.map_map]
    exact List.map_congr_left fun c hc => (toAsciiLowercase_toUInt8 (h c hc)).1
  have hlower : ∀ c ∈ scheme.map Char.toLower, c.toNat < 128 := by
    intro c hc
    obtain ⟨d, hd, rfl⟩ := List.mem_map.mp hc
    exact (toAsciiLowercase_toUInt8 (h d hd)).2
  have hbearer : ∀ c ∈ "bearer".toList, c.toNat < 128 :=
    List.all_iff_forall_prop.mp (by decide)
  rw [hmap, Utf8.bytes_of_ascii hbearer, Utf8.map_toUInt8_inj hlower hbearer, eqIgnoreAsciiCase,
    beq_iff_eq]
  rfl

/-- On ASCII text the form of the characters is the form of the bytes. -/
theorem isBearer_iff {raw token : String} (h : ∀ c ∈ raw.toList, c.toNat < 128) :
    IsBearer (Utf8.bytes raw) (Utf8.bytes token) ↔ parseBearerToken raw = some token := by
  have hws : ∀ c ∈ raw.toList, isHttpWsByte c.toUInt8 = isHttpWs c :=
    fun c hc => isHttpWsByte_toUInt8 (h c hc)
  rw [parseBearerToken_eq_some_iff]
  constructor
  · rintro ⟨scheme, hscheme, hfields⟩
    rw [Utf8.bytes_of_ascii h] at hfields
    obtain ⟨scheme, tail, rfl, htail, hfields⟩ := (fields_map_iff hws).mp hfields
    obtain ⟨lead, gap, trail, hraw, -⟩ := hfields.spaced
    have hsub : ∀ c, c ∈ scheme ∨ c ∈ tail → c.toNat < 128 := by
      rintro c (hc | hc)
      · exact h c (by simp [hraw, hc])
      · exact h c (by simp [hraw, hc])
    obtain rfl := Utf8.eq_ofList_of_bytes (fun c hc => hsub c (.inr hc)) htail
    exact ⟨scheme, (map_toAsciiLowercase_iff fun c hc => hsub c (.inl hc)).mp hscheme,
      by rwa [String.toList_ofList]⟩
  · rintro ⟨scheme, hscheme, hfields⟩
    obtain ⟨lead, gap, trail, hraw, -⟩ := hfields.spaced
    have hsub : ∀ c, c ∈ scheme ∨ c ∈ token.toList → c.toNat < 128 := by
      rintro c (hc | hc)
      · exact h c (by simp [hraw, hc])
      · exact h c (by simp [hraw, hc])
    refine ⟨scheme.map Char.toUInt8,
      (map_toAsciiLowercase_iff fun c hc => hsub c (.inl hc)).mpr hscheme, ?_⟩
    rw [Utf8.bytes_of_ascii h, Utf8.bytes_of_ascii fun c hc => hsub c (.inr hc)]
    exact (fields_map_iff hws).mpr ⟨scheme, token.toList, rfl, rfl, hfields⟩

/-- A request is let through without a list, or with a header of text that
carries a listed token. -/
theorem requireApiToken_forwarded_iff {toStr : List UInt8 → Option String}
    (hstr : ReadsVisibleAscii toStr) {apiTokens : List String} {request : Request} :
    requireApiToken toStr apiTokens request = .forwarded ↔ apiTokens = [] ∨
      ∃ value ∈ request.authorization.head?, (∀ b ∈ value, isVisibleAscii b) ∧
        ∃ token ∈ apiTokens, IsBearer value (Utf8.bytes token) := by
  have hascii : ∀ {s value}, toStr value = some s → ∀ c ∈ s.toList, c.toNat < 128 := by
    intro s value hs
    obtain ⟨hvisible, rfl⟩ := (hstr value s).mp hs
    exact Utf8.ascii_of_bytes fun b hb => ascii_of_isVisibleAscii (hvisible b hb)
  unfold requireApiToken
  cases apiTokens with
  | nil => simp
  | cons a apiTokens =>
    rw [if_neg (by simp)]
    simp only [reduceCtorEq, false_or]
    constructor
    · intro h
      cases hsupplied : (request.authorization.head?.bind toStr).bind parseBearerToken with
      | none => simp [hsupplied] at h
      | some token =>
        have hmem : token ∈ a :: apiTokens := by
          by_contra hmem
          rw [← anyTokenEq_iff] at hmem
          simp [hsupplied, hmem] at h
        obtain ⟨raw, hraw, hparse⟩ := Option.bind_eq_some_iff.mp hsupplied
        obtain ⟨value, hvalue, hto⟩ := Option.bind_eq_some_iff.mp hraw
        obtain ⟨hvisible, hbytes⟩ := (hstr value raw).mp hto
        refine ⟨value, hvalue, hvisible, token, hmem, ?_⟩
        rw [← hbytes]
        exact (isBearer_iff (hascii hto)).mpr hparse
    · rintro ⟨value, hvalue, hvisible, token, hmem, hbearer⟩
      have hbytes := Utf8.bytes_ofAscii fun b hb => ascii_of_isVisibleAscii (hvisible b hb)
      have hto := (hstr value (Utf8.ofAscii value)).mpr ⟨hvisible, hbytes⟩
      rw [← hbytes] at hbearer
      have hparse := (isBearer_iff (hascii hto)).mp hbearer
      rw [Option.mem_def.mp hvalue]
      simp [hto, hparse, anyTokenEq_iff.mpr hmem]

def visibleText (value : List UInt8) : Option String :=
  if value.all isVisibleAscii then some (Utf8.ofAscii value) else none

theorem readsVisibleAscii_visibleText : ReadsVisibleAscii visibleText := by
  intro value s
  unfold visibleText
  by_cases h : ∀ b ∈ value, isVisibleAscii b
  · have hbytes := Utf8.bytes_ofAscii fun b hb => ascii_of_isVisibleAscii (h b hb)
    rw [if_pos (List.all_eq_true.mpr h), Option.some.injEq]
    constructor
    · rintro rfl
      exact ⟨h, hbytes⟩
    · exact fun hs => Utf8.bytes_injective (hbytes.trans hs.2.symm)
  · rw [if_neg fun hall => h (List.all_eq_true.mp hall)]
    exact ⟨nofun, fun hs => absurd hs.1 h⟩

/-- A listed token outside ASCII does not let the request through that carries
it in the right form. -/
theorem requireApiToken_obsText :
    ¬ (requireApiToken visibleText ["é"] ⟨[Utf8.bytes "Bearer é"]⟩ = .forwarded ↔
      ["é"] = [] ∨ ∃ value ∈ [Utf8.bytes "Bearer é"].head?,
        ∃ token ∈ ["é"], IsBearer value (Utf8.bytes token)) := by
  intro h
  have hform : IsBearer (Utf8.bytes "Bearer é") (Utf8.bytes "é") :=
    ⟨Utf8.bytes "Bearer", by decide +kernel, by decide +kernel,
      ⟨by decide +kernel, by decide +kernel⟩, [], [32], [], by decide +kernel, by simp, by simp,
      by decide +kernel, by simp⟩
  have hthrough := h.mpr (.inr ⟨_, rfl, "é", by simp, hform⟩)
  exact absurd hthrough (by decide +kernel)

end OtkCore
