import OtkCore.SegmentLog.Format

/-!
# What the files of a segment look like

The byte image of a segment is its header followed by the records of its
entries. Parsing at a record position gives the entry back, parsing at the end
of the image gives nothing or the sentinel; the index lists the positions.
-/
namespace OtkCore.SegmentLog

open Effect FileIO Bytes

variable (c : Codec)

structure EntryOk (e : LogEntry) : Prop where
  offset : e.offset < 2 ^ 64
  time : e.appendedAtNs < 2 ^ 64
  named : producerIdBytes e.producerId ≠ []
  producer : (producerIdBytes e.producerId).length ≤ maxProducerIdBytes
  size : (c.encode e.event).length ≤ maxEventCbor
  decode : c.decode (c.encode e.event) = .ok e.event

theorem fromUTF8?_producerIdBytes (s : String) :
    String.fromUTF8? (producerIdBytes s).toByteArray = some s := by
  have h : (producerIdBytes s).toByteArray = s.toByteArray := by
    apply ByteArray.ext
    apply Array.toList_inj.mp
    simp [producerIdBytes]
  rw [h, String.fromUTF8?, dif_pos s.isValidUTF8]
  rfl

theorem producerIdBytes_eq_nil (s : String) : producerIdBytes s = [] ↔ s = "" := by
  constructor
  · intro h
    have hs := fromUTF8?_producerIdBytes s
    rw [h] at hs
    have h0 := fromUTF8?_producerIdBytes ""
    rw [show producerIdBytes "" = [] by decide, hs] at h0
    exact Option.some.inj h0
  · rintro rfl
    decide

theorem length_recordBody (e : LogEntry) : (recordBody c e).length = payloadLen c e := by
  simp [recordBody, payloadLen]
  omega

@[simp] theorem length_recordBytes (e : LogEntry) :
    (recordBytes c e).length = payloadLen c e + 8 := by
  simp [recordBytes, length_recordBody]
  omega

theorem payloadLen_ge (e : LogEntry) : 22 ≤ payloadLen c e := by
  simp only [payloadLen]
  omega

theorem EntryOk.payloadLen_lt {e : LogEntry} (h : EntryOk c e) : payloadLen c e < 256 ^ 4 := by
  have hp := h.producer
  have hs := h.size
  simp only [maxProducerIdBytes, maxEventCbor] at hp hs
  simp only [payloadLen]
  omega

/-- One request of a parser answered by the front of the input. -/
theorem parse_take_append {ε α : Type} {n : ℕ} (front rest : List UInt8) (h : front.length = n)
    (f : List UInt8 → Parser ε α) :
    (Parser.take n >>= f).parse (front ++ rest) =
      ((f front).parse rest).map fun (r, m) => (r, n + m) := by
  rw [Parser.parse_take_bind (by simp; omega)]
  simp [← h]

theorem parse_recordBytes {e : LogEntry} (h : EntryOk c e) (pos : ℕ) (rest : List UInt8) :
    (recordParser c pos).parse (recordBytes c e ++ rest) = some (.ok e, payloadLen c e + 8) := by
  have hge := payloadLen_ge c e
  have hlt := h.payloadLen_lt
  have hn := List.length_pos_of_ne_nil h.named
  have hp := h.producer
  have hs := h.size
  have hexp : (payloadLen c e + 2 ^ 32 - 22 - (producerIdBytes e.producerId).length) % 2 ^ 32 =
      (c.encode e.event).length := by
    simp only [payloadLen, maxProducerIdBytes, maxEventCbor] at *
    omega
  have hcrc : (c.crc32 (recordBody c e)).toNat < 256 ^ 4 := UInt32.toNat_lt _
  rw [show recordBytes c e ++ rest = le 4 (payloadLen c e) ++ (le 8 e.offset ++
      (le 8 e.appendedAtNs ++ (le 2 (producerIdBytes e.producerId).length ++
      (producerIdBytes e.producerId ++ (le 4 (c.encode e.event).length ++
      (c.encode e.event ++ (le 4 (c.crc32 (recordBody c e)).toNat ++ rest))))))) by
    simp [recordBytes, recordBody]]
  unfold recordParser
  rw [parse_take_append _ _ (length_le 4 _), ofLe_le hlt, if_neg (by omega), if_neg (by omega),
    parse_take_append _ _ (length_le 8 _), ofLe_le h.offset,
    parse_take_append _ _ (length_le 8 _), ofLe_le h.time,
    parse_take_append _ _ (length_le 2 _),
    ofLe_le (by simp only [maxProducerIdBytes] at hp; omega), if_neg (by omega),
    if_neg (by omega), parse_take_append _ _ rfl]
  simp only [fromUTF8?_producerIdBytes]
  rw [hexp, if_neg (by omega), parse_take_append _ _ (length_le 4 _),
    ofLe_le (by simp only [maxEventCbor] at hs; omega), if_neg (by simp),
    parse_take_append _ _ rfl, parse_take_append _ _ (length_le 4 _), ofLe_le hcrc]
  have hbody : le 8 e.offset ++ le 8 e.appendedAtNs ++ le 2 (producerIdBytes e.producerId).length ++
      producerIdBytes e.producerId ++ le 4 (c.encode e.event).length ++ c.encode e.event =
      recordBody c e := rfl
  rw [hbody, if_neg (by simp), h.decode]
  simp [payloadLen]
  omega

theorem parse_torn {e : LogEntry} (h : EntryOk c e) (pos : ℕ) {t : List UInt8}
    (ht : t <+: recordBytes c e) (hlt : t.length < (recordBytes c e).length) :
    (recordParser c pos).parse t = none := by
  cases hp : (recordParser c pos).parse t with
  | none => rfl
  | some x =>
    obtain ⟨r, m⟩ := x
    obtain ⟨more, hmore⟩ := ht
    have hm := Parser.parse_consumed_le hp
    have hfull := Parser.parse_append hp more
    have hrec := parse_recordBytes c h pos []
    rw [List.append_nil, ← hmore, hfull] at hrec
    simp only [Option.some.injEq, Prod.mk.injEq] at hrec
    simp only [length_recordBytes] at hlt
    omega

theorem parse_short (pos : ℕ) {t : List UInt8} (ht : t.length < 4) :
    (recordParser c pos).parse t = none := by
  unfold recordParser
  exact Parser.parse_take_bind_none ht _

theorem parse_zero (pos : ℕ) {bytes : List UInt8} (hlen : 4 ≤ bytes.length)
    (hzero : ofLe (bytes.take 4) = 0) :
    (recordParser c pos).parse bytes = some (.error (.corrupted sentinelMsg), 4) := by
  rw [recordParser, Parser.parse_take_bind hlen, hzero, if_pos rfl]
  rfl

theorem parse_sentinel (pos : ℕ) (rest : List UInt8) :
    (recordParser c pos).parse (sentinel ++ rest) =
      some (.error (.corrupted sentinelMsg), 4) := by
  unfold recordParser sentinel
  rw [parse_take_append _ _ (length_le 4 _), ofLe_le (by omega), if_pos rfl]
  rfl

@[simp] theorem length_headerBytes (h : SegmentHeader) : h.bytes.length = 24 := by
  simp [SegmentHeader.bytes, magic]

theorem parse_headerBytes {h : SegmentHeader} (hb : h.baseOffset < 2 ^ 64)
    (hc : h.createdAtNs < 2 ^ 64) (rest : List UInt8) :
    SegmentHeader.parser.parse (h.bytes ++ rest) = some (.ok h, 24) := by
  unfold SegmentHeader.parser
  have hlen : h.bytes.length = headerLen := by simp [headerLen]
  rw [parse_take_append _ _ hlen]
  have hmagic : h.bytes.take 4 = magic := by
    simp [SegmentHeader.bytes, magic]
  have hver : h.bytes[4]? = some version := by
    simp [SegmentHeader.bytes, magic]
  have hbase : (h.bytes.drop 8).take 8 = le 8 h.baseOffset := by
    simp [SegmentHeader.bytes, magic]
  have hcre : (h.bytes.drop 16).take 8 = le 8 h.createdAtNs := by
    rw [List.take_of_length_le (by simp)]
    simp [SegmentHeader.bytes, magic]
  rw [if_neg (by simp [hmagic]), if_neg (by rw [hver]; simp), hbase, hcre, ofLe_le hb, ofLe_le hc]
  simp [headerLen]

@[simp] theorem length_indexBytes (positions : List ℕ) :
    (indexBytes positions).length = 8 * positions.length := by
  induction positions with
  | nil => rfl
  | cons p ps ih =>
    simp only [indexBytes, List.flatMap_cons, List.length_append, length_le,
      List.length_cons] at ih ⊢
    omega

theorem chunks8_append {front : List UInt8} (h : front.length = 8) (rest : List UInt8) :
    chunks8 (front ++ rest) = ofLe front :: chunks8 rest := by
  match front, h with
  | [a, b, c, d, e, f, g, h], _ => rfl

theorem chunks8_indexBytes {positions : List ℕ} (h : ∀ p ∈ positions, p < 2 ^ 64) :
    chunks8 (indexBytes positions) = positions := by
  induction positions with
  | nil => rfl
  | cons p ps ih =>
    have htail : chunks8 (indexBytes ps) = ps := ih fun q hq => h q (by simp [hq])
    rw [indexBytes, List.flatMap_cons, chunks8_append (length_le 8 p), ← indexBytes, htail,
      ofLe_le (h p (by simp))]

def recordsBytes (es : List LogEntry) : List UInt8 := es.flatMap (recordBytes c)

/-- Where the records of `es` begin when the first one is at `pos`. -/
def positionsFrom : ℕ → List LogEntry → List ℕ
  | _, [] => []
  | pos, e :: es => pos :: positionsFrom (pos + (recordBytes c e).length) es

@[simp] theorem recordsBytes_nil : recordsBytes c [] = [] := rfl

@[simp] theorem recordsBytes_cons (e : LogEntry) (es : List LogEntry) :
    recordsBytes c (e :: es) = recordBytes c e ++ recordsBytes c es := rfl

@[simp] theorem recordsBytes_append (es fs : List LogEntry) :
    recordsBytes c (es ++ fs) = recordsBytes c es ++ recordsBytes c fs := by
  simp [recordsBytes]

@[simp] theorem length_positionsFrom (pos : ℕ) (es : List LogEntry) :
    (positionsFrom c pos es).length = es.length := by
  induction es generalizing pos with
  | nil => rfl
  | cons e es ih => simp [positionsFrom, ih]

theorem positionsFrom_append (pos : ℕ) (es fs : List LogEntry) :
    positionsFrom c pos (es ++ fs) =
      positionsFrom c pos es ++ positionsFrom c (pos + (recordsBytes c es).length) fs := by
  induction es generalizing pos with
  | nil => simp [positionsFrom]
  | cons e es ih => simp [positionsFrom, ih, Nat.add_assoc]

theorem drop_positionsFrom (pos i : ℕ) (es : List LogEntry) :
    (positionsFrom c pos es).drop i =
      positionsFrom c (pos + (recordsBytes c (es.take i)).length) (es.drop i) := by
  induction es generalizing pos i with
  | nil => simp [positionsFrom]
  | cons e es ih =>
    cases i with
    | zero => simp
    | succ i => simp [positionsFrom, ih, Nat.add_assoc]

theorem take_positionsFrom (pos i : ℕ) (es : List LogEntry) :
    (positionsFrom c pos es).take i = positionsFrom c pos (es.take i) := by
  induction es generalizing pos i with
  | nil => simp [positionsFrom]
  | cons e es ih =>
    cases i with
    | zero => simp [positionsFrom]
    | succ i => simp [positionsFrom, ih]

theorem getElem?_positionsFrom {pos : ℕ} {es : List LogEntry} {i p : ℕ}
    (h : (positionsFrom c pos es)[i]? = some p) :
    ∃ e, es[i]? = some e ∧ p = pos + (recordsBytes c (es.take i)).length := by
  induction es generalizing pos i with
  | nil => simp [positionsFrom] at h
  | cons e es ih =>
    cases i with
    | zero =>
      simp only [positionsFrom, List.getElem?_cons_zero, Option.some.injEq] at h
      exact ⟨e, rfl, by simp [h]⟩
    | succ i =>
      simp only [positionsFrom, List.getElem?_cons_succ] at h
      obtain ⟨e', he', rfl⟩ := ih h
      exact ⟨e', he', by simp [Nat.add_assoc]⟩

theorem getElem?_positionsFrom_end (pos : ℕ) {es : List LogEntry} {i : ℕ} (h : i ≤ es.length) :
    (positionsFrom c pos es ++ [pos + (recordsBytes c es).length])[i]? =
      some (pos + (recordsBytes c (es.take i)).length) := by
  induction es generalizing pos i with
  | nil =>
    obtain rfl : i = 0 := by simpa using h
    rfl
  | cons e es ih =>
    cases i with
    | zero => simp [positionsFrom]
    | succ i =>
      have hrest := ih (pos + (recordBytes c e).length) (i := i) (by simpa using h)
      simp only [positionsFrom, List.cons_append, List.getElem?_cons_succ, List.take_succ_cons,
        recordsBytes_cons, List.length_append, ← Nat.add_assoc]
      exact hrest

theorem lt_of_mem_positionsFrom {pos q : ℕ} {es : List LogEntry}
    (h : q ∈ positionsFrom c pos es) : q < pos + (recordsBytes c es).length := by
  induction es generalizing pos with
  | nil => simp [positionsFrom] at h
  | cons e es ih =>
    rcases List.mem_cons.mp h with rfl | h
    · simp
    · have := ih h
      simp only [recordsBytes_cons, List.length_append]
      omega

/-- The `i`-th entry carries offset `base + i`. -/
def Numbered (base : ℕ) (es : List LogEntry) : Prop :=
  ∀ i e, es[i]? = some e → e.offset = base + i

theorem numbered_nil (base : ℕ) : Numbered base [] := by
  intro i e h
  simp at h

theorem numbered_cons {base : ℕ} {e : LogEntry} {es : List LogEntry} :
    Numbered base (e :: es) ↔ e.offset = base ∧ Numbered (base + 1) es := by
  constructor
  · intro h
    refine ⟨h 0 e rfl, fun i f hf => ?_⟩
    rw [h (i + 1) f (by simpa using hf)]
    omega
  · rintro ⟨he, h⟩ i f hf
    cases i with
    | zero =>
      obtain rfl : e = f := by simpa using hf
      exact he
    | succ i =>
      rw [h i f (by simpa using hf)]
      omega

theorem numbered_append {base : ℕ} {es fs : List LogEntry} :
    Numbered base (es ++ fs) ↔ Numbered base es ∧ Numbered (base + es.length) fs := by
  induction es generalizing base with
  | nil => simp [numbered_nil]
  | cons e es ih =>
    simp only [List.cons_append, numbered_cons, ih, List.length_cons, and_assoc]
    rw [show base + 1 + es.length = base + (es.length + 1) by omega]

theorem Numbered.take {base : ℕ} {es : List LogEntry} (h : Numbered base es) (i : ℕ) :
    Numbered base (es.take i) := by
  rw [← List.take_append_drop i es, numbered_append] at h
  exact h.1

/-- A segment file as far as its entries are known. -/
structure Segment where
  base : ℕ
  ino : ℕ
  created : ℕ
  entries : List LogEntry

namespace Segment

variable (s : Segment)

def image : List UInt8 :=
  SegmentHeader.bytes ⟨s.base, s.created⟩ ++ recordsBytes c s.entries

def positions : List ℕ := positionsFrom c headerLen s.entries

def stop : ℕ := s.base + s.entries.length

@[simp] theorem length_image : (s.image c).length = headerLen + (recordsBytes c s.entries).length := by
  simp [image, headerLen]

@[simp] theorem length_positions : (s.positions c).length = s.entries.length := by
  simp [positions]

end Segment

/-- Bytes after the last record that recovery drops: less than a length field,
the sentinel, or a torn record. -/
def TailOk (t : List UInt8) : Prop :=
  t.length < 4 ∨ t = sentinel ∨
    ∃ e, EntryOk c e ∧ t <+: recordBytes c e ∧ t.length < (recordBytes c e).length

theorem tailOk_nil : TailOk c [] := Or.inl (by simp)

/-- Parsing at the end of the records finds the sentinel or nothing. -/
theorem TailOk.parse {t : List UInt8} (h : TailOk c t) (pos : ℕ) :
    (t = sentinel ∧
      (recordParser c pos).parse t = some (.error (.corrupted sentinelMsg), 4)) ∨
    (t ≠ sentinel ∧ (recordParser c pos).parse t = none) := by
  rcases h with h | rfl | ⟨e, he, hp, hlt⟩
  · exact Or.inr ⟨by rintro rfl; simp [sentinel] at h, parse_short c pos h⟩
  · exact Or.inl ⟨rfl, by simpa using parse_sentinel c pos []⟩
  · refine Or.inr ⟨?_, parse_torn c he pos hp hlt⟩
    rintro rfl
    -- A record never begins with four zero bytes.
    have hnone := parse_torn c he 0 hp hlt
    have hsome := parse_sentinel c 0 []
    rw [List.append_nil, hnone] at hsome
    cases hsome

/-- The content of a segment file that is still being written: part of the
header, or header, records and a tail. -/
def OpenImage (s : Segment) (bytes : List UInt8) : Prop :=
  (bytes <+: SegmentHeader.bytes ⟨s.base, s.created⟩ ∧ bytes.length < headerLen ∧
    s.entries = []) ∨
  ∃ t, bytes = s.image c ++ t ∧ TailOk c t

theorem drop_image_append {s : Segment} {es fs : List LogEntry} (h : s.entries = es ++ fs)
    (t : List UInt8) :
    (s.image c ++ t).drop (headerLen + (recordsBytes c es).length) = recordsBytes c fs ++ t := by
  rw [Segment.image, h, recordsBytes_append, ← List.append_assoc, List.append_assoc]
  apply List.drop_left'
  simp [headerLen]

end OtkCore.SegmentLog
