import OtkCore.SegmentLog.Completion
import OtkCore.Lib.Simulation

/-!
# Records

What one record takes in a file is computed three times: by the writer, by the
reader's cursor and by the arithmetic of recovery. For every entry that can be
written the three agree, and reading returns the entry. On arbitrary bytes the
reader asks for bounded buffers and reports what it finds, but for one
subtraction that can go below zero.
-/
namespace OtkCore.SegmentLog

open Effect FileIO Bytes

variable {c : Codec} {fails : Op FileName → Prop} {d d' : Disk FileName}

structure Fits (c : Codec) (e : LogEntry) : Prop where
  named : producerIdBytes e.producerId ≠ []
  producer : (producerIdBytes e.producerId).length ≤ maxProducerIdBytes
  size : (c.encode e.event).length ≤ maxEventCbor

theorem EntryOk.fits {e : LogEntry} (h : EntryOk c e) : Fits c e := ⟨h.named, h.producer, h.size⟩

/-- What `write_record` does: the record, or the front of it after an error of
the file, or nothing for an entry outside the limits. -/
theorem safe_writeRecord {e : LogEntry} {f : File}
    {Q : Except StorageError ℕ × File → Disk FileName → Prop}
    (hok : Fits c e → f.pos + (recordBytes c e).length ≤ maxFileLen →
      Q (.ok f.pos, ⟨f.ino, f.pos + (recordBytes c e).length⟩)
        (d.setData f.ino (patch (d.data f.ino) f.pos (recordBytes c e))))
    (hlimit : ¬ Fits c e → ∀ msg, Q (.error (.invalidInput msg), f) d)
    (hfail : Fits c e → (∃ o, fails o) → ∀ k p d',
      (∃ j, d' = written d f.ino f.pos (recordBytes c e) j ∨
        d' = (written d f.ino f.pos (recordBytes c e) j).setData f.ino
          (resize ((written d f.ino f.pos (recordBytes c e) j).data f.ino) f.pos)) →
      Q (.error (.io k), ⟨f.ino, p⟩) d') :
    Safe (bare fails) (writeRecord c e f) Q d := by
  have hne : recordBytes c e ≠ [] := by
    intro hnil
    have hlen := length_recordBytes c e
    simp [hnil] at hlen
  unfold writeRecord
  split_ifs with hsize hnamed hproducer
  · exact hlimit (fun h => absurd h.size (by omega)) _
  · exact hlimit (fun h => h.named hnamed) _
  · exact hlimit (fun h => absurd h.producer (by omega)) _
  have hfits : Fits c e := ⟨hnamed, by omega, by omega⟩
  have hsame : ∃ j, d = written d f.ino f.pos (recordBytes c e) j ∨
      d = (written d f.ino f.pos (recordBytes c e) j).setData f.ino
        (resize ((written d f.ino f.pos (recordBytes c e) j).data f.ino) f.pos) :=
    ⟨0, Or.inl rfl⟩
  refine Safe.bindP (Safe.mapError (safe_bare fun r d' hs => ?_))
  obtain ⟨rfl, rfl | ⟨hf, rfl⟩⟩ := hs
  · refine Safe.bindP (Safe.attempt (safe_writeAll (fun hmax => ?_) fun j k hf => ?_))
    · rw [written_length _ _ _ hne]
      exact hok hfits (hmax.resolve_right hne)
    · -- The front that was written is cut off again, as far as that succeeds.
      refine Safe.bindP (Safe.attempt (safe_bare fun r d' hs => ?_))
      obtain ⟨rfl, rfl⟩ | ⟨-, rfl, rfl⟩ := hs
      · exact hfail hfits hf k _ _ ⟨j, Or.inr rfl⟩
      · exact hfail hfits hf k _ _ ⟨j, Or.inl rfl⟩
  · exact hfail hfits ⟨_, hf⟩ _ _ _ hsame

/-- `InvalidInput` is the answer to exactly the entries outside the limits. -/
theorem writeRecord_invalidInput_iff {e : LogEntry} {f f' : File} {r : Except StorageError ℕ}
    (hx : Finishes (Step fails) d (writeRecord c e f) d' (r, f')) :
    (∃ msg, r = .error (.invalidInput msg)) ↔ ¬ Fits c e := by
  refine finishes_bare hx (safe_writeRecord (Q := fun x _ =>
    (∃ msg, x.1 = .error (.invalidInput msg)) ↔ ¬ Fits c e) ?_ ?_ ?_)
  · intro hfits _
    refine ⟨?_, fun h => absurd hfits h⟩
    rintro ⟨msg, h⟩
    cases h
  · exact fun hfits msg => ⟨fun _ => hfits, fun _ => ⟨msg, rfl⟩⟩
  · intro hfits _ k p d' _
    refine ⟨?_, fun h => absurd hfits h⟩
    rintro ⟨msg, h⟩
    cases h

def writeRecords (c : Codec) : List LogEntry → Io File (List ℕ)
  | [] => pure []
  | e :: es => do
    let pos ← writeRecord c e
    let positions ← writeRecords c es
    pure (pos :: positions)

theorem safe_writeRecords {es : List LogEntry} (hes : ∀ e ∈ es, EntryOk c e) {f : File}
    {Q : Except StorageError (List ℕ) × File → Disk FileName → Prop}
    (hok : ∀ d', (es = [] → d' = d) →
      (es ≠ [] → d' = d.setData f.ino (patch (d.data f.ino) f.pos (recordsBytes c es))) →
      Q (.ok (positionsFrom c f.pos es), ⟨f.ino, f.pos + (recordsBytes c es).length⟩) d') :
    Safe (bare NoFail) (writeRecords c es f) Q d := by
  induction es generalizing d f Q with
  | nil => exact hok d (fun _ => rfl) fun h => absurd rfl h
  | cons e es ih =>
    obtain ⟨he, hes⟩ := List.forall_mem_cons.mp hes
    refine Safe.bindP (safe_writeRecord (fun _ _ => ?_) (fun h => absurd he.fits h)
      fun _ hf => absurd hf (by simp [NoFail]))
    refine Safe.bindP (ih hes fun d' hnil hcons => ?_)
    have hlen : f.pos + (recordBytes c e).length + (recordsBytes c es).length =
        f.pos + (recordsBytes c (e :: es)).length := by
      rw [recordsBytes_cons, List.length_append, Nat.add_assoc]
    rw [positionsFrom] at hok
    dsimp only
    rw [hlen]
    refine hok d' (fun h => by cases h) fun _ => ?_
    by_cases hempty : es = []
    · subst hempty
      rw [hnil rfl]
      simp
    · rw [hcons hempty]
      have hpatch := patch_patch (d.data f.ino) f.pos (recordBytes c e) (recordsBytes c es)
      simp only [Disk.data_setData, if_true, hpatch, recordsBytes_cons]
      simp [Disk.setData]

theorem flows_writeRecords (es : List LogEntry) {f : File}
    (hmax : f.pos + (recordsBytes c es).length ≤ maxFileLen) :
    Flows NoFail (writeRecords c es f) fun _ => True := by
  induction es generalizing f with
  | nil => trivial
  | cons e es ih =>
    rw [recordsBytes_cons, List.length_append] at hmax
    refine Flows.bindP (flows_writeRecord e (by omega) ?_ fun _ _ => trivial)
    have hrest := ih (f := ⟨f.ino, f.pos + (recordBytes c e).length⟩) (by dsimp only; omega)
    refine Flows.bindP (hrest.mono ?_)
    rintro ⟨r, f'⟩ -
    cases r with
    | ok _ => trivial
    | error _ => trivial

/-- Reading a record is parsing the file from its position on. -/
theorem safe_readRecord_at {pos : ℕ} {f : File}
    {Q : Except StorageError LogEntry × File → Disk FileName → Prop}
    (hok : ∀ r m, (recordParser c pos).parse ((d.data f.ino).drop pos) = some (r, m) →
      Q (r, ⟨f.ino, pos + m⟩) d)
    (heof : (recordParser c pos).parse ((d.data f.ino).drop pos) = none →
      ∀ q, Q (.error (.io .unexpectedEof), ⟨f.ino, q⟩) d)
    (hfail : (∃ o, fails o) → ∀ q, Q (.error (.io .other), ⟨f.ino, q⟩) d) :
    Safe (bare fails) (readRecord c pos f) Q d :=
  quiet_readRecord quiet_bare hok heof hfail

/-- A record that stands in a file is read back, and the cursor is behind it. -/
theorem finishes_readRecord {e : LogEntry} (he : EntryOk c e) {pos : ℕ} {g g' : File}
    {rest : List UInt8} (hdata : (d.data g.ino).drop pos = recordBytes c e ++ rest)
    {r : Except StorageError LogEntry}
    (hx : Finishes (Step NoFail) d (readRecord c pos g) d' (r, g')) :
    r = .ok e ∧ g' = ⟨g.ino, pos + 8 + payloadLen c e⟩ ∧ d' = d := by
  have hparse := parse_recordBytes c he pos rest
  rw [← hdata] at hparse
  refine finishes_bare hx (safe_readRecord_at (Q := fun x w => x.1 = .ok e ∧
    x.2 = ⟨g.ino, pos + 8 + payloadLen c e⟩ ∧ w = d) (fun r m hm => ?_) (fun hnone => ?_) ?_)
  · rw [hparse] at hm
    obtain ⟨rfl, rfl⟩ := Prod.mk.inj (Option.some.inj hm)
    exact ⟨rfl, by rw [Nat.add_assoc, Nat.add_comm 8], rfl⟩
  · rw [hparse] at hnone
    cases hnone
  · rintro ⟨o, ho⟩
    exact absurd ho (by simp [NoFail])

/-- Records written end to end: each one is read back at the position the writer
returned for it, and the writer, the reader's cursor and the length field agree
on where the next one begins. Only entries outside the limits are rejected. -/
theorem record_round_trip (c : Codec) :
    (∀ fails d d' e f f' r, Finishes (Step fails) d (writeRecord c e f) d' (r, f') →
      ((∃ msg, r = .error (.invalidInput msg)) ↔ ¬ Fits c e)) ∧
    ∀ es, (∀ e ∈ es, EntryOk c e) → ∀ d f,
      (f.pos + (recordsBytes c es).length ≤ maxFileLen →
        ∃ d' x, Finishes (Step NoFail) d (writeRecords c es f) d' x) ∧
      ∀ d' r f', Finishes (Step NoFail) d (writeRecords c es f) d' (r, f') →
        ∃ positions, r = .ok positions ∧ positions.length = es.length ∧ f'.ino = f.ino ∧
          (positions ++ [f'.pos]).head? = some f.pos ∧
          ∀ i e, es[i]? = some e → ∃ pos, positions[i]? = some pos ∧
            (positions ++ [f'.pos])[i + 1]? = some (pos + 8 + payloadLen c e) ∧
            ofLe (((d'.data f.ino).drop pos).take 4) = payloadLen c e ∧
            payloadLen c e ≠ 0 ∧ payloadLen c e < 2 ^ 32 ∧
            ∀ g, g.ino = f.ino →
              (∃ d'' x, Finishes (Step NoFail) d' (readRecord c pos g) d'' x) ∧
              ∀ d'' r' g', Finishes (Step NoFail) d' (readRecord c pos g) d'' (r', g') →
                r' = .ok e ∧ g' = ⟨f.ino, pos + 8 + payloadLen c e⟩ ∧ d'' = d' := by
  refine ⟨fun fails d d' e f f' r hx => writeRecord_invalidInput_iff hx,
    fun es hes d f => ⟨fun hmax => ?_, fun d' r f' hx => ?_⟩⟩
  · obtain ⟨d', x, hx, -⟩ := (flows_writeRecords es hmax).finishes d
    exact ⟨d', x, hx⟩
  have hall := finishes_bare hx (safe_writeRecords hes (Q := fun x w =>
    x.1 = .ok (positionsFrom c f.pos es) ∧ x.2 = ⟨f.ino, f.pos + (recordsBytes c es).length⟩ ∧
      (es ≠ [] → w = d.setData f.ino (patch (d.data f.ino) f.pos (recordsBytes c es))))
    fun d' _ hcons => ⟨rfl, rfl, hcons⟩)
  obtain ⟨rfl, rfl, hdisk⟩ := hall
  refine ⟨_, rfl, length_positionsFrom c f.pos es, rfl, ?_, fun i e hi => ?_⟩
  · rw [List.head?_eq_getElem?, getElem?_positionsFrom_end c f.pos (Nat.zero_le _)]
    simp
  have hlt : i < es.length := (List.getElem?_eq_some_iff.mp hi).1
  have hne : es ≠ [] := List.ne_nil_of_length_pos (by omega)
  have he : EntryOk c e := hes e (List.mem_of_getElem? hi)
  have hsplit : es = es.take i ++ e :: es.drop (i + 1) := by
    obtain ⟨_, rfl⟩ := List.getElem?_eq_some_iff.mp hi
    rw [← List.drop_eq_getElem_cons hlt, List.take_append_drop]
  -- Behind the records before it the file goes on with this one.
  have hdata : (d'.data f.ino).drop (f.pos + (recordsBytes c (es.take i)).length) =
      recordBytes c e ++ (recordsBytes c (es.drop (i + 1)) ++
        (d.data f.ino).drop (f.pos + (recordsBytes c es).length)) := by
    rw [hdisk hne, Disk.data_setData, if_pos rfl, ← List.drop_drop, drop_patch]
    nth_rewrite 2 [hsplit]
    rw [recordsBytes_append, recordsBytes_cons, List.append_assoc, List.append_assoc, List.drop_left]
  have hend : (recordsBytes c (es.take (i + 1))).length =
      (recordsBytes c (es.take i)).length + (payloadLen c e + 8) := by
    rw [List.take_add_one, hi, Option.toList_some, recordsBytes_append, recordsBytes_cons,
      recordsBytes_nil, List.append_nil, List.length_append, length_recordBytes]
  refine ⟨f.pos + (recordsBytes c (es.take i)).length, ?_, ?_, ?_, ?_, he.payloadLen_lt, ?_⟩
  · have hpos := getElem?_positionsFrom_end c f.pos hlt.le
    rwa [List.getElem?_append_left (by simpa using hlt)] at hpos
  · rw [getElem?_positionsFrom_end c f.pos hlt, hend]
    congr 1
    omega
  · rw [hdata, recordBytes, List.append_assoc, List.append_assoc, List.take_left' (length_le 4 _),
      ofLe_le he.payloadLen_lt]
  · have hge := payloadLen_ge c e
    omega
  · intro g hg
    refine ⟨?_, fun d'' r' g' hread => ?_⟩
    · obtain ⟨d'', x, hread, -⟩ := Flows.finishes (free_readRecord (c := c) _ g) d'
      exact ⟨d'', x, hread⟩
    · rw [← hg] at hdata ⊢
      exact finishes_readRecord he hdata hread

def sampleHealth : OtkEvent := .detectorHealth ⟨⟨"d"⟩, 0, .healthy, none⟩

def healthBytes : List UInt8 := [0x82, 0x01, 0x81, 0x83, 0x61, 0x64, 0x00, 0x82, 0x00, 0x80]

def sampleCodec : Codec where
  encode ev := if ev = sampleHealth then healthBytes else []
  decode bytes := if bytes = healthBytes then .ok sampleHealth else .error "unexpected bytes"
  crc32 := crc32
  utf8Error _ := "invalid utf-8 sequence"

/-- Records of 41, 44 and 41 bytes in the middle of a file; the second is read back. -/
theorem record_round_trip_sample :
    ∃ d' f', Finishes (Step NoFail) .empty (writeRecords sampleCodec
        [⟨7, 9, "p", sampleHealth⟩, ⟨8, 9, "loop", sampleHealth⟩, ⟨9, 10, "p", sampleHealth⟩]
        ⟨0, 100⟩) d' (.ok [100, 141, 185], f') ∧
      ∃ d'' g', Finishes (Step NoFail) d' (readRecord sampleCodec 141 ⟨0, 3⟩) d''
        (.ok ⟨8, 9, "loop", sampleHealth⟩, g') := by
  have hok : ∀ e ∈ ([⟨7, 9, "p", sampleHealth⟩, ⟨8, 9, "loop", sampleHealth⟩,
      ⟨9, 10, "p", sampleHealth⟩] : List LogEntry), EntryOk sampleCodec e := by
    intro e he
    simp only [List.mem_cons, List.not_mem_nil, or_false] at he
    rcases he with rfl | rfl | rfl
    · exact ⟨by decide, by decide, by decide, by decide, by decide, rfl⟩
    · exact ⟨by decide, by decide, by decide, by decide, by decide, rfl⟩
    · exact ⟨by decide, by decide, by decide, by decide, by decide, rfl⟩
  have hsize₀ : payloadLen sampleCodec ⟨7, 9, "p", sampleHealth⟩ = 33 := by decide
  have hsize₁ : payloadLen sampleCodec ⟨8, 9, "loop", sampleHealth⟩ = 36 := by decide
  have hsize₂ : payloadLen sampleCodec ⟨9, 10, "p", sampleHealth⟩ = 33 := by decide
  obtain ⟨hcompletes, hback⟩ := (record_round_trip sampleCodec).2 _ hok .empty ⟨0, 100⟩
  obtain ⟨d', ⟨r, f'⟩, hx⟩ := hcompletes (by simp [hsize₀, hsize₁, hsize₂, maxFileLen])
  obtain ⟨positions, rfl, hlen, -, hhead, hall⟩ := hback d' r f' hx
  obtain ⟨p₀, hp₀, hnext₀, -⟩ := hall 0 _ rfl
  obtain ⟨p₁, hp₁, hnext₁, -, -, -, hread⟩ := hall 1 _ rfl
  obtain ⟨p₂, hp₂, -⟩ := hall 2 _ rfl
  -- Each record begins behind the one before it.
  obtain ⟨a, b, c, rfl⟩ := List.length_eq_three.mp hlen
  simp only [hsize₀, hsize₁, List.cons_append, List.head?_cons, List.getElem?_cons_zero,
    List.getElem?_cons_succ, Option.some.injEq] at hhead hp₀ hp₁ hp₂ hnext₀ hnext₁
  obtain rfl : a = 100 := hhead
  obtain rfl : b = 141 := by omega
  obtain rfl : c = 185 := by omega
  obtain ⟨⟨d'', ⟨r', g'⟩, hx'⟩, hentry⟩ := hread ⟨0, 3⟩ rfl
  rw [← hp₁] at hx' hentry
  obtain ⟨rfl, -⟩ := hentry d'' r' g' hx'
  exact ⟨d', f', hx, d'', g', hx'⟩

/-- What `read_record` ends with where arithmetic is checked: an error of its
own, or the panic of a subtraction below zero. -/
inductive ReadFault
  | storage (e : StorageError)
  | overflow

/-- `u32` subtraction under overflow checks. -/
def subU32 (a b : ℕ) : Parser ReadFault ℕ :=
  if b ≤ a then pure (a - b) else Parser.fail .overflow

/-- `recordParser` with the subtraction of the source, one `u32` at a time. -/
def recordParserChecked (c : Codec) (pos : ℕ) : Parser ReadFault LogEntry := do
  let payloadLen := ofLe (← Parser.take 4)
  if payloadLen = 0 then Parser.fail (.storage (.corrupted sentinelMsg))
  else if payloadLen < 22 then
    Parser.fail (.storage (.corrupted ("payload_len " ++ toString payloadLen ++
      " too small at pos " ++ toString pos ++ " (minimum 22)")))
  else do
    let offset := ofLe (← Parser.take 8)
    let appendedAtNs := ofLe (← Parser.take 8)
    let producerIdLen := ofLe (← Parser.take 2)
    if producerIdLen = 0 then
      Parser.fail (.storage (.corrupted ("producer_id_len is 0 at pos " ++ toString pos ++
        "; v2 segments require a non-empty producer id")))
    else if producerIdLen > maxProducerIdBytes then
      Parser.fail (.storage (.corrupted ("producer_id_len " ++ toString producerIdLen ++
        " at pos " ++ toString pos ++ " exceeds maximum " ++ toString maxProducerIdBytes)))
    else do
      let producerId ← Parser.take producerIdLen
      match String.fromUTF8? producerId.toByteArray with
      | none => Parser.fail (.storage (.corrupted ("producer_id at pos " ++ toString pos ++
          " is not valid UTF-8: " ++ c.utf8Error producerId)))
      | some name => do
        let rest ← subU32 payloadLen 8
        let rest ← subU32 rest 8
        let rest ← subU32 rest 2
        let rest ← subU32 rest producerIdLen
        let expected ← subU32 rest 4
        if expected > maxEventCbor then
          Parser.fail (.storage (.corrupted ("event CBOR length " ++ toString expected ++
            " at pos " ++ toString pos ++ " exceeds maximum " ++ toString maxEventCbor)))
        else do
          let stored := ofLe (← Parser.take 4)
          if stored ≠ expected then
            Parser.fail (.storage (.corrupted ("event_len mismatch at pos " ++ toString pos ++
              ": payload_len implies " ++ toString expected ++ ", stored " ++ toString stored)))
          else do
            let cbor ← Parser.take stored
            let storedCrc := ofLe (← Parser.take 4)
            let computedCrc := (c.crc32 (le 8 offset ++ le 8 appendedAtNs ++ le 2 producerIdLen ++
              producerId ++ le 4 stored ++ cbor)).toNat
            if computedCrc ≠ storedCrc then
              Parser.fail (.storage (.corrupted ("CRC mismatch at pos " ++ toString pos ++
                ": expected " ++ hex32 computedCrc ++ ", got " ++ hex32 storedCrc)))
            else match c.decode cbor with
              | .error e => Parser.fail (.storage (.corrupted ("CBOR decode at pos " ++
                  toString pos ++ ": " ++ e)))
              | .ok event => pure ⟨offset, appendedAtNs, name, event⟩

/-- `read_record` under overflow checks. -/
def readRecordChecked (c : Codec) (pos : ℕ) : Proc (Resp (N := FileName)) ReadFault File LogEntry :=
  do
    (File.seek FileName pos).mapError fun k => .storage (.io k)
    (recordParserChecked c pos).read _ fun k => .storage (.io k)

/-- The three answers that `read_record` may give. -/
def Reported (c : Codec) (bytes : List UInt8) (r : Except ReadFault LogEntry) : Prop :=
  (∃ e, r = .ok e ∧ Consistent c bytes e) ∨
  (r = .error (.storage (.io .unexpectedEof)) ∧ bytes.length < announced bytes) ∨
  ∃ msg, r = .error (.storage (.corrupted msg))

theorem subU32_le {a b : ℕ} (h : b ≤ a) : subU32 a b = pure (a - b) := if_pos h

/-- The subtractions of the source stay above zero if the sum does. -/
theorem subU32_chain {payload id : ℕ} (h : 22 + id ≤ payload) (f : ℕ → Parser ReadFault LogEntry) :
    (do
      let rest ← subU32 payload 8
      let rest ← subU32 rest 8
      let rest ← subU32 rest 2
      let rest ← subU32 rest id
      let expected ← subU32 rest 4
      f expected) = f (payload - 22 - id) := by
  rw [subU32_le (by omega), Parser.pure_bind, subU32_le (by omega), Parser.pure_bind,
    subU32_le (by omega), Parser.pure_bind, subU32_le (by omega), Parser.pure_bind,
    subU32_le (by omega), Parser.pure_bind]
  congr 1
  omega

theorem subU32_chain_short {payload id : ℕ} (hmin : 22 ≤ payload) (h : payload < 22 + id)
    (f : ℕ → Parser ReadFault LogEntry) :
    (do
      let rest ← subU32 payload 8
      let rest ← subU32 rest 8
      let rest ← subU32 rest 2
      let rest ← subU32 rest id
      let expected ← subU32 rest 4
      f expected) = Parser.fail .overflow := by
  rw [subU32_le (by omega), Parser.pure_bind, subU32_le (by omega), Parser.pure_bind,
    subU32_le (by omega), Parser.pure_bind]
  by_cases hid : id ≤ payload - 8 - 8 - 2
  · rw [subU32_le hid, Parser.pure_bind, subU32, if_neg (by omega), Parser.fail_bind]
  · rw [subU32, if_neg hid, Parser.fail_bind]

/-- Where the subtraction stays above zero it is the wrapping one. -/
theorem renames_recordParserChecked (pos : ℕ) {bytes : List UInt8} (h : ¬ ShortPayload bytes) :
    Parser.Renames ReadFault.storage (recordParser c pos) (recordParserChecked c pos) bytes := by
  unfold recordParser recordParserChecked
  refine Parser.Renames.take fun hle => ?_
  dsimp only
  rw [show ofLe (bytes.take 4) = payloadField bytes from rfl]
  split_ifs with hzero hmin
  · exact .fail _
  · exact .fail _
  refine Parser.Renames.take fun hle8 => ?_
  rw [List.drop_drop]
  refine Parser.Renames.take fun hle12 => ?_
  rw [List.drop_drop]
  refine Parser.Renames.take fun hle20 => ?_
  rw [List.length_drop] at hle8 hle12 hle20
  rw [List.drop_drop, show ofLe ((bytes.drop (4 + 8 + 8)).take 2) = producerField bytes from rfl]
  by_cases hnone : producerField bytes = 0
  · rw [if_pos hnone, if_pos hnone]
    exact .fail _
  rw [if_neg hnone, if_neg hnone]
  by_cases hlong : producerField bytes > maxProducerIdBytes
  · rw [if_pos hlong, if_pos hlong]
    exact .fail _
  rw [if_neg hlong, if_neg hlong]
  refine Parser.Renames.take fun hleName => ?_
  rw [List.length_drop] at hleName
  rw [List.drop_drop, show (bytes.drop (4 + 8 + 8 + 2)).take (producerField bytes) =
    producerName bytes from rfl]
  cases hname : String.fromUTF8? (producerName bytes).toByteArray with
  | none => exact .fail _
  | some name =>
    dsimp only
    have hfits : ¬ payloadField bytes < 22 + producerField bytes := by
      intro hshort
      refine h ⟨by omega, by omega, by omega, by omega, ?_, hshort⟩
      rw [hname]
      rfl
    have hlt : payloadField bytes < 2 ^ 32 :=
      (ofLe_lt _).trans_le (Nat.pow_le_pow_right (by decide) (List.length_take_le 4 bytes))
    have hwrap : (payloadField bytes + 2 ^ 32 - 22 - producerField bytes) % 2 ^ 32 =
        payloadField bytes - 22 - producerField bytes := by omega
    rw [subU32_chain (by omega), hwrap]
    split_ifs
    · exact .fail _
    refine Parser.Renames.take fun _ => ?_
    split_ifs
    · exact .fail _
    refine Parser.Renames.take fun _ => Parser.Renames.take fun _ => ?_
    split_ifs
    · exact .fail _
    cases c.decode _ with
    | error msg => exact .fail _
    | ok event => exact .pure _

theorem within_recordParserChecked_short (pos : ℕ) {bytes : List UInt8} (h : ShortPayload bytes) :
    (recordParserChecked c pos).Within maxEventCbor bytes fun o =>
      ∃ m, o = some (.error .overflow, m) := by
  have hpresent := h.present
  have hmin := h.minimum
  have hnamed := h.named
  have hproducer := h.producer
  obtain ⟨name, hname⟩ := Option.isSome_iff_exists.mp h.text
  unfold recordParserChecked
  refine Parser.Within.take (by decide) (fun hlt => by omega) fun _ => ?_
  dsimp only
  rw [show ofLe (bytes.take 4) = payloadField bytes from rfl, if_neg (by omega), if_neg (by omega)]
  refine Parser.Within.take (by decide) (fun hlt => ?_) fun _ => ?_
  · rw [List.length_drop] at hlt
    omega
  rw [List.drop_drop]
  refine Parser.Within.take (by decide) (fun hlt => ?_) fun _ => ?_
  · rw [List.length_drop] at hlt
    omega
  rw [List.drop_drop]
  refine Parser.Within.take (by decide) (fun hlt => ?_) fun _ => ?_
  · rw [List.length_drop] at hlt
    omega
  rw [List.drop_drop, show ofLe ((bytes.drop (4 + 8 + 8)).take 2) = producerField bytes from rfl,
    if_neg (by omega), if_neg (by omega)]
  have hcap : maxProducerIdBytes ≤ maxEventCbor := by decide
  refine Parser.Within.take (by omega) (fun hlt => ?_) fun _ => ?_
  · rw [List.length_drop] at hlt
    omega
  rw [List.drop_drop, show (bytes.drop (4 + 8 + 8 + 2)).take (producerField bytes) =
    producerName bytes from rfl, hname]
  dsimp only
  rw [subU32_chain_short hmin h.short]
  exact .fail ⟨_, rfl⟩

/-- Either the subtraction goes below zero, or one of the three answers. -/
theorem within_recordParserChecked (pos : ℕ) (bytes : List UInt8) :
    (recordParserChecked c pos).Within maxEventCbor bytes fun o =>
      (ShortPayload bytes ∧ ∃ m, o = some (.error .overflow, m)) ∨
      (¬ ShortPayload bytes ∧
        Reported c bytes ((o.map Prod.fst).getD (.error (.storage (.io .unexpectedEof))))) := by
  by_cases hshort : ShortPayload bytes
  · obtain ⟨hover, hrequests⟩ := within_recordParserChecked_short (c := c) pos hshort
    exact ⟨Or.inl ⟨hshort, hover⟩, hrequests⟩
  · obtain ⟨hparse, hsame⟩ := renames_recordParserChecked (c := c) pos hshort
    obtain ⟨hfound, hrequests⟩ := within_recordParser (c := c) pos bytes
    refine ⟨Or.inr ⟨hshort, ?_⟩, hsame ▸ hrequests⟩
    rw [hparse]
    rcases hfound with ⟨e, he, hconsistent⟩ | ⟨hnone, hlt⟩ | ⟨msg, m, hmsg⟩
    · rw [he]
      exact Or.inl ⟨e, rfl, hconsistent⟩
    · rw [hnone]
      exact Or.inr (Or.inl ⟨rfl, hlt⟩)
    · rw [hmsg]
      exact Or.inr (Or.inr ⟨msg, rfl⟩)

theorem safe_readRecordChecked {pos : ℕ} {f : File}
    {Q : Except ReadFault LogEntry × File → Disk FileName → Prop}
    (hQ : ∀ q, Q ((((recordParserChecked c pos).parse ((d.data f.ino).drop pos)).map Prod.fst).getD
      (.error (.storage (.io .unexpectedEof))), ⟨f.ino, q⟩) d) :
    Safe (bare NoFail) (readRecordChecked c pos f) Q d := by
  have hnever : ∀ {o : Op FileName}, NoFail o → False := fun h => h
  refine Safe.bindP (Safe.mapError (quiet_bare.seek ?_ fun hf => (hnever hf).elim))
  refine quiet_bare.read f.ino (fun k => ReadFault.storage (.io k)) ?_ _ pos
    (fun r m hm => ?_) fun hnone q => ?_
  · rintro ⟨_, _, hf⟩
    exact (hnever hf).elim
  · have hres := hQ (pos + m)
    rw [show (recordParserChecked c pos).parse ((d.data f.ino).drop pos) = some (r, m) from hm] at hres
    exact hres
  · have hres := hQ q
    rw [show (recordParserChecked c pos).parse ((d.data f.ino).drop pos) = none from hnone] at hres
    exact hres

/-- Reading at any position of any file: bounded buffers, and one of the three
answers, exactly if the file does not announce less payload than its producer id
takes. -/
theorem readRecord_reports_iff (c : Codec) (d : Disk FileName) (f : File) (pos : ℕ) :
    ((∀ n ∈ (recordParserChecked c pos).requests ((d.data f.ino).drop pos), n ≤ maxEventCbor) ∧
      ∀ d' r f', Finishes (Step NoFail) d (readRecordChecked c pos f) d' (r, f') →
        Reported c ((d.data f.ino).drop pos) r) ↔
      ¬ ShortPayload ((d.data f.ino).drop pos) := by
  have hwithin := within_recordParserChecked (c := c) pos ((d.data f.ino).drop pos)
  constructor
  · rintro ⟨-, hreports⟩ hshort
    have hfree : Free NoFail (readRecordChecked c pos) :=
      ((Free.seek pos).mapError _).bind fun _ => Parser.free_read _ _
    obtain ⟨d', ⟨r, f'⟩, hx, -⟩ := (hfree f).finishes d
    have hover : r = .error .overflow := by
      refine finishes_bare hx (safe_readRecordChecked (Q := fun x _ => x.1 = .error .overflow)
        fun q => ?_)
      rcases hwithin.1 with ⟨-, m, heq⟩ | ⟨hnot, -⟩
      · rw [heq]
        rfl
      · exact absurd hshort hnot
    subst hover
    rcases hreports d' _ f' hx with ⟨e, he, -⟩ | ⟨he, -⟩ | ⟨msg, he⟩
    · cases he
    · cases he
    · cases he
  · intro hnot
    refine ⟨hwithin.2, fun d' r f' hx => ?_⟩
    refine finishes_bare hx (safe_readRecordChecked
      (Q := fun x _ => Reported c ((d.data f.ino).drop pos) x.1) fun q => ?_)
    rcases hwithin.1 with ⟨hshort, -⟩ | ⟨-, hreported⟩
    · exact absurd hshort hnot
    · exact hreported

/-- A record that announces 22 bytes of payload and a producer id of one byte. -/
def shortRecord : List UInt8 := le 4 22 ++ le 8 0 ++ le 8 0 ++ le 2 1 ++ [0x70]

def shortDisk : Disk FileName := (Disk.empty.create (.seg 0)).setData 0 shortRecord

/-- Reading it panics under overflow checks. -/
theorem readRecord_underflow :
    Finishes (Step NoFail) shortDisk (readRecordChecked sampleCodec 0 ⟨0, 0⟩) shortDisk
        (.error .overflow, ⟨0, 23⟩) ∧
      ¬ Reported sampleCodec ((shortDisk.data 0).drop 0) (.error .overflow) := by
  constructor
  · have hrun : simulate 0 (readRecordChecked sampleCodec 0 ⟨0, 0⟩) [] shortDisk =
        some (shortDisk, .error .overflow, ⟨0, 23⟩) := rfl
    exact finishes_of_simulate (by simp) hrun
  · rintro (⟨e, he, -⟩ | ⟨he, -⟩ | ⟨msg, he⟩)
    · cases he
    · cases he
    · cases he

end OtkCore.SegmentLog
