import OtkCore.SegmentLog.Image

/-!
# The scan of a segment

What `read_record` can find in arbitrary bytes, the records that follow each other
there with consecutive offsets, and the loop of `recover_active` that walks along
them. The loop is gone through once, for every setting in which the file stays as it
is while it is read.
-/
namespace OtkCore.SegmentLog

open Effect FileIO Bytes

variable {c : Codec}

section Fields

variable (bytes : List UInt8)

def payloadField : ℕ := ofLe (bytes.take 4)
def producerField : ℕ := ofLe ((bytes.drop 20).take 2)
def producerName : List UInt8 := (bytes.drop 22).take (producerField bytes)
def eventField : ℕ := ofLe ((bytes.drop (22 + producerField bytes)).take 4)

/-- The number of bytes that the fields at hand announce. -/
def announced : ℕ :=
  if bytes.length < 4 then 4
  else if bytes.length < 22 then 22
  else if bytes.length < 26 + producerField bytes then 26 + producerField bytes
  else 30 + producerField bytes + eventField bytes

/-- A valid producer id does not fit into the announced payload: the subtraction
goes below zero. -/
structure ShortPayload : Prop where
  present : 22 + producerField bytes ≤ bytes.length
  minimum : 22 ≤ payloadField bytes
  named : 0 < producerField bytes
  producer : producerField bytes ≤ maxProducerIdBytes
  text : (String.fromUTF8? (producerName bytes).toByteArray).isSome = true
  short : payloadField bytes < 22 + producerField bytes

end Fields

/-- An entry that the bytes hold, with lengths that fit together and the right
checksum. -/
structure Consistent (c : Codec) (bytes : List UInt8) (e : LogEntry) : Prop where
  extent : payloadField bytes = 22 + producerField bytes + eventField bytes
  whole : payloadField bytes + 8 ≤ bytes.length
  crc : (c.crc32 ((bytes.drop 4).take (payloadField bytes))).toNat =
    ofLe ((bytes.drop (4 + payloadField bytes)).take 4)
  offset : e.offset = ofLe ((bytes.drop 4).take 8)
  time : e.appendedAtNs = ofLe ((bytes.drop 12).take 8)
  producer : producerIdBytes e.producerId = producerName bytes
  event : c.decode ((bytes.drop (26 + producerField bytes)).take (eventField bytes)) = .ok e.event

theorem producerIdBytes_of_fromUTF8? {bytes : List UInt8} {name : String}
    (h : String.fromUTF8? bytes.toByteArray = some name) : producerIdBytes name = bytes := by
  unfold String.fromUTF8? at h
  split_ifs at h with hvalid
  obtain rfl := Option.some.inj h
  simp [producerIdBytes, String.fromUTF8]

theorem body_eq_slices (bytes : List UInt8)
    (h : 26 + producerField bytes + eventField bytes ≤ bytes.length) :
    le 8 (ofLe ((bytes.drop 4).take 8)) ++ le 8 (ofLe ((bytes.drop 12).take 8)) ++
      le 2 (producerField bytes) ++ producerName bytes ++ le 4 (eventField bytes) ++
      (bytes.drop (26 + producerField bytes)).take (eventField bytes) =
        (bytes.drop 4).take (22 + producerField bytes + eventField bytes) := by
  have hfield : ∀ {n pos : ℕ}, pos + n ≤ bytes.length →
      le n (ofLe ((bytes.drop pos).take n)) = (bytes.drop pos).take n := by
    intro n pos hle
    have hlen : ((bytes.drop pos).take n).length = n := by
      rw [List.length_take, List.length_drop]
      omega
    have hinv := le_ofLe ((bytes.drop pos).take n)
    rwa [hlen] at hinv
  have hjoin : ∀ (pos m n : ℕ), (bytes.drop pos).take m ++ (bytes.drop (pos + m)).take n =
      (bytes.drop pos).take (m + n) := by
    intro pos m n
    rw [List.take_add, List.drop_drop]
  have hid : le 2 (producerField bytes) = (bytes.drop 20).take 2 := hfield (by omega)
  have hevent : le 4 (eventField bytes) = (bytes.drop (22 + producerField bytes)).take 4 :=
    hfield (by omega)
  rw [hfield (by omega), hfield (by omega), hid, hevent, producerName, hjoin 4 8 8, hjoin 4 16 2,
    hjoin 4 18, show 22 + producerField bytes = 4 + (18 + producerField bytes) by omega, hjoin 4,
    show 26 + producerField bytes = 4 + (18 + producerField bytes + 4) by omega, hjoin 4]
  congr 1
  omega

/-- What `read_record` finds: an entry the bytes hold, the end of the bytes before
the fields they announce, or corruption. -/
def Found (c : Codec) (bytes : List UInt8) (o : Option (Except StorageError LogEntry × ℕ)) : Prop :=
  (∃ e, o = some (.ok e, payloadField bytes + 8) ∧ Consistent c bytes e) ∨
  (o = none ∧ bytes.length < announced bytes) ∨
  ∃ msg m, o = some (.error (.corrupted msg), m)

/-- What follows the producer id: the length of the event, the event and the checksum. -/
theorem within_eventPart (pos : ℕ) {bytes : List UInt8} {name : String}
    {Q : Option (Except StorageError LogEntry × ℕ) → Prop}
    (hmin : 22 ≤ payloadField bytes) (hlong : producerField bytes ≤ maxProducerIdBytes)
    (hle : 22 + producerField bytes ≤ bytes.length)
    (hname : String.fromUTF8? (producerName bytes).toByteArray = some name)
    (hcorrupted : ∀ msg m, Q (some (.error (.corrupted msg), m)))
    (hend : bytes.length < announced bytes → Q none)
    (hok : ∀ e, Consistent c bytes e → Q (some (.ok e, 4 + (eventField bytes + (4 + 0)))))
    {expected : ℕ}
    (hexpected : expected = (payloadField bytes + 2 ^ 32 - 22 - producerField bytes) % 2 ^ 32) :
    ((if expected > maxEventCbor then
        Parser.fail (.corrupted ("event CBOR length " ++ toString expected ++ " at pos " ++
          toString pos ++ " exceeds maximum " ++ toString maxEventCbor))
      else do
        let stored := ofLe (← Parser.take 4)
        if stored ≠ expected then
          Parser.fail (.corrupted ("event_len mismatch at pos " ++ toString pos ++
            ": payload_len implies " ++ toString expected ++ ", stored " ++ toString stored))
        else do
          let cbor ← Parser.take stored
          let storedCrc := ofLe (← Parser.take 4)
          let computedCrc := (c.crc32 (le 8 (ofLe ((bytes.drop 4).take 8)) ++
            le 8 (ofLe ((bytes.drop 12).take 8)) ++ le 2 (producerField bytes) ++
            producerName bytes ++ le 4 stored ++ cbor)).toNat
          if computedCrc ≠ storedCrc then
            Parser.fail (.corrupted ("CRC mismatch at pos " ++ toString pos ++ ": expected " ++
              hex32 computedCrc ++ ", got " ++ hex32 storedCrc))
          else match c.decode cbor with
            | .error e => Parser.fail (.corrupted ("CBOR decode at pos " ++ toString pos ++
                ": " ++ e))
            | .ok event => pure (⟨ofLe ((bytes.drop 4).take 8), ofLe ((bytes.drop 12).take 8),
                name, event⟩ : LogEntry)) : Parser StorageError LogEntry).Within maxEventCbor
        (bytes.drop (4 + 8 + 8 + 2 + producerField bytes)) Q := by
  have hlt32 : payloadField bytes < 2 ^ 32 :=
    (ofLe_lt _).trans_le (Nat.pow_le_pow_right (by decide) (List.length_take_le 4 bytes))
  have hid : producerField bytes ≤ 256 := by
    simp only [maxProducerIdBytes] at hlong
    omega
  have hshort : bytes.length < 30 + producerField bytes + eventField bytes →
      26 + producerField bytes ≤ bytes.length → bytes.length < announced bytes := by
    intro hlt hge
    rw [announced, if_neg (by omega), if_neg (by omega), if_neg (by omega)]
    exact hlt
  split_ifs with hbig
  · exact .fail (hcorrupted _ _)
  refine Parser.Within.take (by decide) (fun hlt => ?_) fun hleEvent => ?_
  · rw [List.length_drop] at hlt
    refine hend ?_
    rw [announced, if_neg (by omega), if_neg (by omega), if_pos (by omega)]
    omega
  rw [List.length_drop] at hleEvent
  rw [List.drop_drop,
    show ofLe ((bytes.drop (4 + 8 + 8 + 2 + producerField bytes)).take 4) = eventField bytes from rfl]
  dsimp only
  split_ifs with hdiffer
  · exact .fail (hcorrupted _ _)
  -- A difference below zero would have wrapped to more than an event may take.
  have hextent : payloadField bytes = 22 + producerField bytes + eventField bytes := by
    simp only [maxEventCbor] at hbig
    omega
  refine Parser.Within.take (by omega) (fun hlt => ?_) fun hleCbor => ?_
  · rw [List.length_drop] at hlt
    exact hend (hshort (by omega) (by omega))
  rw [List.length_drop] at hleCbor
  rw [List.drop_drop]
  refine Parser.Within.take (by decide) (fun hlt => ?_) fun hleCrc => ?_
  · rw [List.length_drop] at hlt
    exact hend (hshort (by omega) (by omega))
  rw [List.length_drop] at hleCrc
  have hfrom : 4 + 8 + 8 + 2 + producerField bytes + 4 = 26 + producerField bytes := by omega
  split_ifs with hcrc
  · exact .fail (hcorrupted _ _)
  cases hevent : c.decode ((bytes.drop (4 + 8 + 8 + 2 + producerField bytes + 4)).take
      (eventField bytes)) with
  | error msg => exact .fail (hcorrupted _ _)
  | ok event =>
    rw [hfrom] at hevent
    refine .pure (hok _ ⟨hextent, by omega, ?_, rfl, rfl, producerIdBytes_of_fromUTF8? hname,
      hevent⟩)
    have hbody := body_eq_slices bytes (by omega)
    rw [hextent, ← hbody, ← Nat.add_assoc, ← Nat.add_assoc]
    rw [hfrom] at hcrc
    exact not_not.mp hcrc

/-- Whatever the bytes are, the buffers are bounded and one of the three is found. -/
theorem within_recordParser (pos : ℕ) (bytes : List UInt8) :
    (recordParser c pos).Within maxEventCbor bytes (Found c bytes) := by
  have hcorrupted : ∀ msg m, Found c bytes (some (.error (.corrupted msg), m)) :=
    fun msg m => Or.inr (Or.inr ⟨msg, m, rfl⟩)
  have hend : bytes.length < announced bytes → Found c bytes none :=
    fun hlt => Or.inr (Or.inl ⟨rfl, hlt⟩)
  unfold recordParser
  refine Parser.Within.take (by decide) (fun hlt => ?_) fun hle => ?_
  · refine hend ?_
    rw [announced, if_pos hlt]
    exact hlt
  dsimp only
  rw [show ofLe (bytes.take 4) = payloadField bytes from rfl]
  split_ifs with hzero hmin
  · exact .fail (hcorrupted _ _)
  · exact .fail (hcorrupted _ _)
  have hearly : ∀ n, bytes.length < n → n ≤ 22 → bytes.length < announced bytes := by
    intro n hlt hn
    rw [announced, if_neg (by omega), if_pos (by omega)]
    omega
  refine Parser.Within.take (by decide) (fun hlt => ?_) fun hle8 => ?_
  · rw [List.length_drop] at hlt
    exact hend (hearly 12 (by omega) (by omega))
  rw [List.drop_drop]
  refine Parser.Within.take (by decide) (fun hlt => ?_) fun hle12 => ?_
  · rw [List.length_drop] at hlt
    exact hend (hearly 20 (by omega) (by omega))
  rw [List.drop_drop]
  refine Parser.Within.take (by decide) (fun hlt => ?_) fun hle20 => ?_
  · rw [List.length_drop] at hlt
    exact hend (hearly 22 (by omega) (by omega))
  rw [List.length_drop] at hle8 hle12 hle20
  rw [List.drop_drop, show ofLe ((bytes.drop (4 + 8 + 8)).take 2) = producerField bytes from rfl]
  by_cases hnone : producerField bytes = 0
  · rw [if_pos hnone]
    exact .fail (hcorrupted _ _)
  rw [if_neg hnone]
  by_cases hlong : producerField bytes > maxProducerIdBytes
  · rw [if_pos hlong]
    exact .fail (hcorrupted _ _)
  rw [if_neg hlong]
  refine Parser.Within.take ?_ (fun hlt => ?_) fun hleName => ?_
  · have hcap : maxProducerIdBytes ≤ maxEventCbor := by decide
    omega
  · rw [List.length_drop] at hlt
    refine hend ?_
    rw [announced, if_neg (by omega), if_neg (by omega), if_pos (by omega)]
    omega
  rw [List.length_drop] at hleName
  rw [List.drop_drop, show (bytes.drop (4 + 8 + 8 + 2)).take (producerField bytes) =
    producerName bytes from rfl]
  cases hname : String.fromUTF8? (producerName bytes).toByteArray with
  | none => exact .fail (hcorrupted _ _)
  | some name =>
    dsimp only
    refine within_eventPart pos (by omega) (by omega) (by omega) hname ?_ ?_ ?_ rfl
    · exact fun msg m => hcorrupted msg _
    · exact hend
    · intro e he
      have hextent := he.extent
      have hused : 4 + (8 + (8 + (2 + (producerField bytes +
          (4 + (eventField bytes + (4 + 0))))))) = payloadField bytes + 8 := by omega
      exact Or.inl ⟨e, congrArg (fun m => some (Except.ok e, m)) hused, he⟩

/-- A record that is read takes its payload and eight bytes, and its offset is
one of 64 bits. -/
theorem parse_ok {c : Codec} {pos : ℕ} {bytes : List UInt8} {e : LogEntry} {m : ℕ}
    (h : (recordParser c pos).parse bytes = some (.ok e, m)) :
    m = payloadField bytes + 8 ∧ payloadField bytes ≠ 0 ∧ e.offset < 2 ^ 64 := by
  rcases (within_recordParser (c := c) pos bytes).1 with
    ⟨e', he, hconsistent⟩ | ⟨hnone, -⟩ | ⟨msg, m', hmsg⟩
  · rw [h] at he
    obtain ⟨heq, rfl⟩ := Prod.mk.inj (Option.some.inj he)
    obtain rfl := Except.ok.inj heq
    refine ⟨rfl, ?_, ?_⟩
    · have hextent := hconsistent.extent
      omega
    · rw [hconsistent.offset]
      exact (ofLe_lt _).trans_le (Nat.pow_le_pow_right (by decide) (List.length_take_le 8 _))
  · rw [h] at hnone
    cases hnone
  · rw [h] at hmsg
    cases hmsg

section Chains

variable (c : Codec) (data : List UInt8)

/-- `RecordChain c data next pos positions stop`: from `pos` to `stop` records
follow each other that are read and carry the offsets from `next` on. -/
inductive RecordChain : ℕ → ℕ → List ℕ → ℕ → Prop
  | nil (next pos : ℕ) : RecordChain next pos [] pos
  | cons {next pos m stop : ℕ} {e : LogEntry} {positions : List ℕ} :
      (recordParser c pos).parse (data.drop pos) = some (.ok e, m) → e.offset = next →
      RecordChain (next + 1) (pos + m) positions stop →
      RecordChain next pos (pos :: positions) stop

/-- No record with the offset `next` is read at `pos`. -/
def ChainEnd (next pos : ℕ) : Prop :=
  ∀ e m, (recordParser c pos).parse (data.drop pos) = some (.ok e, m) → e.offset ≠ next

end Chains

variable {c : Codec} {data : List UInt8} {next pos stop : ℕ} {positions : List ℕ}

theorem RecordChain.le_length (h : RecordChain c data next pos positions stop)
    (hpos : pos ≤ data.length) : stop ≤ data.length := by
  induction h with
  | nil => exact hpos
  | cons hp _ _ ih =>
    have hm := Parser.parse_consumed_le hp
    rw [List.length_drop] at hm
    exact ih (by omega)

theorem RecordChain.le_stop (h : RecordChain c data next pos positions stop) : pos ≤ stop := by
  induction h with
  | nil => exact le_rfl
  | cons _ _ _ ih => omega

theorem RecordChain.length_le (h : RecordChain c data next pos positions stop) :
    pos + positions.length ≤ stop := by
  induction h with
  | nil => exact le_rfl
  | cons hp _ _ ih =>
    have hsize := (parse_ok hp).1
    rw [List.length_cons]
    omega

theorem RecordChain.compare {positions' : List ℕ} {stop' : ℕ}
    (h' : RecordChain c data next pos positions' stop')
    (h : RecordChain c data next pos positions stop)
    (hend : ChainEnd c data (next + positions.length) stop) :
    ∃ more, positions = positions' ++ more ∧
      RecordChain c data (next + positions'.length) stop' more stop := by
  induction h' generalizing positions with
  | nil next pos => exact ⟨positions, rfl, by simpa using h⟩
  | @cons next pos m stop' e positions' hp hoff hrest ih =>
    cases h with
    | nil => exact absurd hoff (hend e m hp)
    | @cons _ _ m' _ e' positions hp' hoff' hrest' =>
      obtain ⟨-, rfl⟩ := Prod.mk.inj (Option.some.inj (hp.symm.trans hp'))
      have hend' : ChainEnd c data (next + 1 + positions.length) stop := by
        rwa [List.length_cons, Nat.add_comm positions.length, ← Nat.add_assoc] at hend
      obtain ⟨more, rfl, hmore⟩ := ih hrest' hend'
      refine ⟨more, rfl, ?_⟩
      rwa [List.length_cons, Nat.add_comm positions'.length, ← Nat.add_assoc]

theorem RecordChain.unique {positions' : List ℕ} {stop' : ℕ}
    (h : RecordChain c data next pos positions stop)
    (hend : ChainEnd c data (next + positions.length) stop)
    (h' : RecordChain c data next pos positions' stop')
    (hend' : ChainEnd c data (next + positions'.length) stop') :
    positions' = positions ∧ stop' = stop := by
  obtain ⟨more, rfl, hmore⟩ := h'.compare h hend
  cases hmore with
  | nil => simp
  | cons hp hoff _ => exact absurd hoff (hend' _ _ hp)

theorem chainEnd_length (next : ℕ) : ChainEnd c data next data.length := by
  intro e m h
  rw [List.drop_length, parse_short c _ (by simp)] at h
  cases h

theorem RecordChain.take (h : RecordChain c data next pos positions stop) :
    RecordChain c (data.take stop) next pos positions stop := by
  induction h with
  | nil => exact .nil _ _
  | @cons next pos m stop e positions hp hoff hrest ih =>
    have hle := hrest.le_stop
    refine .cons ?_ hoff ih
    rw [List.drop_take]
    exact Parser.parse_take hp (by omega)

theorem recordChain_of_entries {es : List LogEntry} (hes : ∀ e ∈ es, EntryOk c e)
    (hnum : Numbered next es) {tail : List UInt8}
    (hdata : data.drop pos = recordsBytes c es ++ tail) :
    RecordChain c data next pos (positionsFrom c pos es) (pos + (recordsBytes c es).length) := by
  induction es generalizing next pos with
  | nil => exact .nil _ _
  | cons e es ih =>
    obtain ⟨he, hes⟩ := List.forall_mem_cons.mp hes
    obtain ⟨hoff, hnum⟩ := numbered_cons.mp hnum
    rw [recordsBytes_cons, List.append_assoc] at hdata
    rw [positionsFrom, recordsBytes_cons, List.length_append, ← Nat.add_assoc, length_recordBytes]
    refine .cons ?_ hoff (ih hes hnum ?_)
    · rw [hdata]
      exact parse_recordBytes c he pos _
    · rw [← List.drop_drop, hdata, ← length_recordBytes c e, List.drop_left]

/-- Where nothing is read behind a chain, a record read behind any other chain
has an offset of 64 bits. -/
theorem RecordChain.expected_lt {positions' : List ℕ} {stop' m : ℕ} {e : LogEntry}
    (h : RecordChain c data next pos positions stop)
    (hnone : ∀ e m, (recordParser c stop).parse (data.drop stop) ≠ some (.ok e, m))
    (h' : RecordChain c data next pos positions' stop')
    (hread : (recordParser c stop').parse (data.drop stop') = some (.ok e, m)) :
    next + positions'.length < 2 ^ 64 := by
  obtain ⟨more, -, hmore⟩ := h'.compare h fun e m he => absurd he (hnone e m)
  cases hmore with
  | nil => exact absurd hread (hnone _ _)
  | cons hp hoff _ =>
    have hlt := (parse_ok hp).2.2
    omega

theorem parse_error {pos : ℕ} {bytes : List UInt8} {err : StorageError} {m : ℕ}
    (h : (recordParser c pos).parse bytes = some (.error err, m)) :
    ∃ msg, err = .corrupted msg := by
  rcases (within_recordParser (c := c) pos bytes).1 with
    ⟨e, he, -⟩ | ⟨hnone, -⟩ | ⟨msg, m', hmsg⟩
  · rw [h] at he
    cases he
  · rw [h] at hnone
    cases hnone
  · rw [h] at hmsg
    obtain ⟨heq, -⟩ := Prod.mk.inj (Option.some.inj hmsg)
    exact ⟨msg, Except.error.inj heq⟩

section Loop

variable {W : Type} {T : Setting (Resp (N := FileName)) (Disk FileName) W}
  {fails : Op FileName → Prop} {w : W}

/-- Reading a record is parsing the file from its position on. -/
theorem quiet_readRecord (hT : Quiet T fails) {pos : ℕ} {f : File}
    {Q : Except StorageError LogEntry × File → W → Prop}
    (hok : ∀ r m, (recordParser c pos).parse (((T.view w).data f.ino).drop pos) = some (r, m) →
      Q (r, ⟨f.ino, pos + m⟩) w)
    (heof : (recordParser c pos).parse (((T.view w).data f.ino).drop pos) = none →
      ∀ q, Q (.error (.io .unexpectedEof), ⟨f.ino, q⟩) w)
    (hfail : (∃ o, fails o) → ∀ q, Q (.error (.io .other), ⟨f.ino, q⟩) w) :
    Safe T (readRecord c pos f) Q w := by
  refine Safe.bindP (Safe.mapError (hT.seek ?_ fun hf => hfail ⟨_, hf⟩ _))
  refine hT.read f.ino .io ?_ _ pos (fun r m hm => hok r m hm) heof
  rintro ⟨_, _, hf⟩
  exact hfail ⟨_, hf⟩

variable {base ino : ℕ} {Q : Except StorageError (List ℕ × ℕ) × File → W → Prop}

/-- One round: the scan ends where no fitting record is read, and goes on behind one. -/
theorem quiet_recoverRound (hT : Quiet T fails) (data : List UInt8)
    (hdata : (T.view w).data ino = data) {fuel next pos p : ℕ} {positions : List ℕ}
    (hat : base + positions.length = next)
    (hdone : data.length ≤ pos → Q (.ok (positions, pos), ⟨ino, p⟩) w)
    (hcut : ChainEnd c data next pos → ∀ q, Safe T ((do
        cutAt pos
        pure (positions, pos) : Io File (List ℕ × ℕ)) ⟨ino, q⟩) Q w)
    (hover : ∀ e m, (recordParser c pos).parse (data.drop pos) = some (.ok e, m) →
      2 ^ 64 ≤ next → ∀ msg q, Q (.error (.corrupted msg), ⟨ino, q⟩) w)
    (hnext : ∀ e m, (recordParser c pos).parse (data.drop pos) = some (.ok e, m) →
      e.offset = next → pos + m < 2 ^ 64 → ∀ q,
        Safe T (recoverLoop c base data.length fuel (positions ++ [pos]) (pos + m) ⟨ino, q⟩) Q w)
    (hwide : ∀ e m, (recordParser c pos).parse (data.drop pos) = some (.ok e, m) →
      e.offset = next → 2 ^ 64 ≤ pos + m → ∀ q, Safe T ((do
        cutAt pos
        pure (positions ++ [pos], pos) : Io File (List ℕ × ℕ)) ⟨ino, q⟩) Q w)
    (hfail : (∃ o, fails o) → ∀ k q, Q (.error (.io k), ⟨ino, q⟩) w) :
    Safe T (recoverLoop c base data.length (fuel + 1) positions pos ⟨ino, p⟩) Q w := by
  subst hdata hat
  rw [recoverLoop]
  split_ifs with hge
  · exact hdone hge
  have hends : (∀ e m, (recordParser c pos).parse (((T.view w).data ino).drop pos) ≠
      some (.ok e, m)) → ChainEnd c ((T.view w).data ino) (base + positions.length) pos :=
    fun hne e m h => absurd h (hne e m)
  have hread : (∃ p n, fails (.read ino p n)) → ∃ o, fails o := by
    rintro ⟨p, n, hf⟩
    exact ⟨_, hf⟩
  refine Safe.bindP (Safe.mapError (hT.seek ?_ fun hf => hfail ⟨_, hf⟩ _ _))
  refine Safe.bindP (Safe.attempt (hT.readExactAux ino (fun hf _ => hfail (hread hf) _ _) 4 4 pos []
    le_rfl (fun hle => ?_) fun hlt q => ?_))
  · have hle : 4 ≤ (((T.view w).data ino).drop pos).length := hle
    dsimp only
    rw [List.nil_append]
    by_cases hzero : ofLe ((((T.view w).data ino).drop pos).take 4) = 0
    · rw [if_pos hzero]
      refine hcut (hends fun e m h => ?_) _
      rw [parse_zero c pos hle hzero] at h
      cases h
    rw [if_neg hzero]
    refine Safe.bindP (Safe.attempt (quiet_readRecord hT (fun r m hm => ?_)
      (fun hnone q => hcut (hends fun e m h => ?_) q) fun hf q => hfail hf _ _))
    · cases r with
      | ok entry =>
        have hsize : m = ofLe ((((T.view w).data ino).drop pos).take 4) + 8 := (parse_ok hm).1
        dsimp only
        split_ifs with hover' hoff hnext'
        · exact hover entry m hm hover' _ _
        · refine hcut (fun e' m' h => ?_) _
          obtain ⟨heq, -⟩ := Prod.mk.inj (Option.some.inj (hm.symm.trans h))
          rwa [← Except.ok.inj heq]
        · rw [Nat.add_assoc, ← hsize] at hnext' ⊢
          exact hnext entry m hm (not_not.mp hoff) hnext' _
        · rw [Nat.add_assoc, ← hsize] at hnext'
          exact hwide entry m hm (not_not.mp hoff) (Nat.le_of_not_lt hnext') _
      | error err =>
        obtain ⟨msg, rfl⟩ := parse_error hm
        refine hcut (hends fun e m' h => ?_) _
        rw [hm] at h
        cases h
    · rw [hnone] at h
      cases h
  · refine hcut (hends fun e m h => ?_) q
    rw [parse_short c pos (show (((T.view w).data ino).drop pos).length < 4 from hlt)] at h
    cases h

/-- The whole loop: it walks along the longest chain from `pos` on and cuts the file
where the chain ends. -/
theorem quiet_recoverLoop (hT : Quiet T fails) (data : List UInt8)
    (hdata : (T.view w).data ino = data) {fuel next pos p : ℕ} {positions : List ℕ}
    (hat : base + positions.length = next) (hpos : pos ≤ data.length)
    (hfuel : data.length < pos + fuel) (hfront : pos < 2 ^ 64)
    (hdone : ∀ more q, RecordChain c data next pos more data.length → data.length < 2 ^ 64 →
      Q (.ok (positions ++ more, data.length), ⟨ino, q⟩) w)
    (hcut : ∀ more stop, RecordChain c data next pos more stop →
      ChainEnd c data (next + more.length) stop → stop < 2 ^ 64 → ∀ q, Safe T ((do
        cutAt stop
        pure (positions ++ more, stop) : Io File (List ℕ × ℕ)) ⟨ino, q⟩) Q w)
    (hover : ∀ more stop e m, RecordChain c data next pos more stop →
      (recordParser c stop).parse (data.drop stop) = some (.ok e, m) →
      2 ^ 64 ≤ next + more.length → ∀ msg q, Q (.error (.corrupted msg), ⟨ino, q⟩) w)
    (hwide : ∀ more stop e m, RecordChain c data next pos more stop →
      (recordParser c stop).parse (data.drop stop) = some (.ok e, m) →
      e.offset = next + more.length → stop < 2 ^ 64 → 2 ^ 64 ≤ stop + m → ∀ q, Safe T ((do
        cutAt stop
        pure (positions ++ more ++ [stop], stop) : Io File (List ℕ × ℕ)) ⟨ino, q⟩) Q w)
    (hfail : (∃ o, fails o) → ∀ k q, Q (.error (.io k), ⟨ino, q⟩) w) :
    Safe T (recoverLoop c base data.length fuel positions pos ⟨ino, p⟩) Q w := by
  induction fuel generalizing positions next pos p with
  | zero => omega
  | succ fuel ih =>
    refine quiet_recoverRound hT data hdata hat (fun hge => ?_) (fun hend q => ?_)
      (fun e m hm hover' msg q => ?_) (fun e m hm hoff hnext q => ?_)
      (fun e m hm hoff hwide' q => ?_) hfail
    · obtain rfl : pos = data.length := by omega
      simpa using hdone [] p (.nil _ _) hfront
    · simpa using hcut [] pos (.nil _ _) hend hfront q
    · exact hover [] pos e m (.nil _ _) hm hover' msg q
    · -- The rest of the loop stands behind one more record.
      have hfit := Parser.parse_consumed_le hm
      rw [List.length_drop] at hfit
      have hsize := (parse_ok hm).1
      have hcount : base + (positions ++ [pos]).length = next + 1 := by
        rw [← hat, List.length_append, List.length_singleton, Nat.add_assoc]
      have hlength : ∀ more : List ℕ, next + 1 + more.length = next + (pos :: more).length := by
        intro more
        rw [List.length_cons]
        omega
      have hlist : ∀ more : List ℕ, positions ++ [pos] ++ more = positions ++ pos :: more := by
        simp
      refine ih hcount (by omega) (by omega) hnext (fun more q hmore hlt => ?_)
        (fun more stop hmore hend hlt q => ?_) (fun more stop e' m' hmore hm' hover' msg q => ?_)
        (fun more stop e' m' hmore hm' hoff' hlt hwide' q => ?_)
      · rw [hlist]
        exact hdone _ q (.cons hm hoff hmore) hlt
      · rw [hlength] at hend
        rw [hlist]
        exact hcut _ stop (.cons hm hoff hmore) hend hlt q
      · rw [hlength] at hover'
        exact hover _ stop e' m' (.cons hm hoff hmore) hm' hover' msg q
      · rw [hlength] at hoff'
        rw [hlist]
        exact hwide _ stop e' m' (.cons hm hoff hmore) hm' hoff' hlt hwide' q
    · simpa using hwide [] pos e m (.nil _ _) hm hoff hfront hwide' q

end Loop

end OtkCore.SegmentLog
