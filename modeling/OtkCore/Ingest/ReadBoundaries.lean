import OtkCore.Ingest.Parity

/-!
# Read boundaries

Frames are queued as they are decoded, but a bad frame ends the session at
once, with whatever the same read had queued before it. What a session serves
therefore depends on how the stream is cut into reads, exactly when one read can
complete both an envelope that matters and the first bad frame.
-/
namespace OtkCore.Ingest

open FrameCodec Decoding FileIO

section Serving

variable (w : WireCodec) (authoriser : ConnectAuthoriser) (max : ℕ) (sink : Option IoErrorKind)

/-- The events of a session that reads these envelopes; `none` if its handshake
fails. -/
def served : List OtkEnvelope → Option (List IncomingEvent)
  | [] => none
  | connectEnv :: rest =>
    match performServerHandshakeWithAuth w connectEnv authoriser with
    | .ok (.accepted reply processor) =>
      match (sendEnvelope w ⟨[], sink, []⟩ reply max).1 with
      | .ok () => some (deliver w processor rest).1
      | .error _ => none
    | _ => none

/-- What is observed of a session: its events, unless the handshake failed. -/
def Transcript.observed (t : Transcript) : Option (List IncomingEvent) :=
  match t.handshake with
  | .ok () => some t.events
  | .error _ => none

theorem observed_transcriptOf (l : Listener) (final : StreamFrameDecoder)
    (envelopes : List OtkEnvelope) (err : Option FrameError) :
    (transcriptOf l w sink [] max authoriser final envelopes err).observed =
      served w authoriser max sink envelopes := by
  cases envelopes with
  | nil => rfl
  | cons connectEnv rest =>
    simp only [transcriptOf, served]
    cases performServerHandshakeWithAuth w connectEnv authoriser with
    | error e => rfl
    | ok outcome =>
      cases outcome with
      | rejected reply reason => rfl
      | accepted reply processor =>
        simp only
        cases sendEnvelope w ⟨[], sink, []⟩ reply max with
        | mk result stream =>
          cases result with
          | error e => rfl
          | ok _ =>
            cases deliver w processor rest with
            | mk events ending => cases ending <;> rfl

/-- The number of envelopes up to the last one whose event is delivered. -/
def lastEvent (p : PostHandshakeProcessor) : List OtkEnvelope → ℕ
  | [] => 0
  | envelope :: rest =>
    match p.process w envelope with
    | .ok (.event _ _) => lastEvent p rest + 1
    | .ok .heartbeat => if lastEvent p rest = 0 then 0 else lastEvent p rest + 1
    | _ => 0

/-- The number of envelopes a session must read to serve all it can: none if
the handshake fails, else the Connect and everything up to the last event. -/
def needed : List OtkEnvelope → ℕ
  | [] => 0
  | connectEnv :: rest =>
    match performServerHandshakeWithAuth w connectEnv authoriser with
    | .ok (.accepted reply processor) =>
      match (sendEnvelope w ⟨[], sink, []⟩ reply max).1 with
      | .ok () => lastEvent w processor rest + 1
      | .error _ => 0
    | _ => 0

theorem lastEvent_eq_zero_iff (p : PostHandshakeProcessor) (envelopes : List OtkEnvelope) :
    lastEvent w p envelopes = 0 ↔ (deliver w p envelopes).1 = [] := by
  induction envelopes with
  | nil => simp [lastEvent, deliver]
  | cons envelope envelopes ih =>
    rw [lastEvent, deliver]
    cases p.process w envelope with
    | error e => simp
    | ok action =>
      cases action with
      | event ev tp => simp
      | heartbeat =>
        simp only [← ih]
        split <;> simp_all
      | disconnect => simp

/-- A prefix delivers the same events exactly when it holds the last event. -/
theorem deliver_take_iff (p : PostHandshakeProcessor) (envelopes : List OtkEnvelope) (m : ℕ) :
    (deliver w p (envelopes.take m)).1 = (deliver w p envelopes).1 ↔
      lastEvent w p envelopes ≤ m := by
  induction envelopes generalizing m with
  | nil => simp [deliver, lastEvent]
  | cons envelope envelopes ih =>
    cases m with
    | zero =>
      rw [List.take_zero, deliver, Nat.le_zero, lastEvent_eq_zero_iff]
      exact eq_comm
    | succ m =>
      rw [List.take_succ_cons, deliver, deliver, lastEvent]
      cases p.process w envelope with
      | error e => simp
      | ok action =>
        cases action with
        | event ev tp => simp [ih]
        | heartbeat =>
          simp only [ih]
          split <;> omega
        | disconnect => simp

theorem served_take_iff (envelopes : List OtkEnvelope) (m : ℕ) :
    served w authoriser max sink (envelopes.take m) = served w authoriser max sink envelopes ↔
      needed w authoriser max sink envelopes ≤ m := by
  cases envelopes with
  | nil => simp [needed]
  | cons connectEnv rest =>
    cases m with
    | zero =>
      rw [List.take_zero]
      simp only [served, needed]
      split
      · split <;> simp
      · simp
    | succ m =>
      rw [List.take_succ_cons]
      simp only [served, needed]
      split
      · split
        · simp [deliver_take_iff]
        · simp
      · simp

theorem needed_le_length (envelopes : List OtkEnvelope) :
    needed w authoriser max sink envelopes ≤ envelopes.length := by
  rw [← served_take_iff, List.take_length]

end Serving

section Prefixes

variable (w : WireCodec) (max : ℕ)

theorem resultsOf_append (bytes bytes' : List UInt8) :
    resultsOf w max bytes <+: resultsOf w max (bytes ++ bytes') := by
  have h := resumes_parseFrames w.envelope max bytes bytes'
  rw [Resumes] at h
  rw [resultsOf, resultsOf, h]
  exact List.prefix_append _ _

theorem resultsOf_snoc_length (bytes : List UInt8) (b : UInt8) :
    (resultsOf w max (bytes ++ [b])).length ≤ (resultsOf w max bytes).length + 1 := by
  have h := resumes_parseFrames w.envelope max bytes [b]
  have hleft := leftover_parseFrames w.envelope max bytes
  rw [Resumes] at h
  rw [resultsOf, resultsOf, h, List.length_append]
  generalize (parseFrames w.envelope max bytes).2 = state at hleft ⊢
  obtain ⟨buf, skip⟩ := state
  have hone : (parseFrom w.envelope max skip (buf ++ [b])).1.length ≤ 1 := by
    obtain hzero | hpos := Nat.eq_zero_or_pos skip
    · subst hzero
      rw [parseFrom_zero]
      have hunf := congrArg Prod.fst hleft.unfinished
      obtain hs | ⟨hl, hbig⟩ | ⟨hl, hsmall, hshort⟩ | ⟨hsmall, hfull⟩ :=
        frame_cases max (buf ++ [b])
      · simp [parseFrames_short _ _ hs]
      · have hbuf : buf.length = 3 := by
          by_contra hne
          have h4 : 4 ≤ buf.length := by
            rw [List.length_append, List.length_singleton] at hl
            omega
          rw [List.take_append_of_le_length h4] at hbig
          simp [parseFrames_oversize _ _ h4 hbig] at hunf
        have hrest : (buf ++ [b]).drop 4 = [] := List.drop_eq_nil_of_le (by simp [hbuf])
        rw [parseFrames_oversize _ _ hl hbig, hrest, parseFrom_of_lt _ _ (by simp; omega)]
        simp
      · simp [parseFrames_cut _ _ hl hsmall hshort]
      · have hrest : (buf ++ [b]).drop (4 + Bytes.ofBe ((buf ++ [b]).take 4)) = [] := by
          apply List.drop_eq_nil_of_le
          by_contra hlong
          simp only [List.length_append, List.length_singleton] at hlong
          have h4 : 4 ≤ buf.length := by omega
          rw [List.take_append_of_le_length h4] at hlong hsmall
          simp [parseFrames_frame _ _ hsmall (by omega)] at hunf
        rw [parseFrames_frame _ _ hsmall hfull, hrest]
        simp
    · have hbuf : buf = [] := hleft.skipping hpos
      subst hbuf
      by_cases hlt : ([] ++ [b]).length < skip
      · rw [parseFrom_of_lt _ _ hlt]
        simp
      · have hone : skip = 1 := by
          simp at hlt
          omega
        subst hone
        rw [parseFrom_of_le _ _ (by simp)]
        simp
  exact Nat.add_le_add_left hone _

end Prefixes

section Dirty

variable (push : StreamFrameDecoder → List UInt8 → List FrameResult × StreamFrameDecoder)

theorem clean_append (bs bs' : List (List FrameResult)) :
    clean (bs ++ bs') =
      match clean bs with
      | (envelopes, some e) => (envelopes, some e)
      | (envelopes, none) => (envelopes ++ (clean bs').1, (clean bs').2) := by
  induction bs with
  | nil => simp [clean]
  | cons batch bs ih =>
    rw [List.cons_append, clean, clean]
    cases goodPrefix batch with
    | mk envelopes err =>
      cases err with
      | some e => rfl
      | none =>
        simp only [ih]
        cases clean bs with
        | mk envelopes' err' => cases err' <;> simp

/-- A session that meets a bad frame has read what the chunks in front of the
bad frame's chunk complete. -/
theorem clean_first_dirty (d : StreamFrameDecoder) (chunks : List (List UInt8))
    (h : (clean (batches push d chunks)).2 ≠ none) :
    ∃ before chunk after, chunks = before ++ chunk :: after ∧
      goodPrefix (feed push d before).1 = ((clean (batches push d chunks)).1, none) ∧
      (goodPrefix (feed push d (before ++ [chunk])).1).2 ≠ none := by
  induction chunks generalizing d with
  | nil => simp [batches, clean] at h
  | cons chunk chunks ih =>
    rw [batches, clean] at h ⊢
    cases hg : goodPrefix (push d chunk).1 with
    | mk envelopes err =>
      cases err with
      | some e =>
        refine ⟨[], chunk, chunks, rfl, rfl, ?_⟩
        simp [feed_cons, hg]
      | none =>
        simp only [hg] at h
        obtain ⟨before, chunk', after, rfl, hgood, hdirty⟩ := ih (push d chunk).2 h
        refine ⟨chunk :: before, chunk', after, rfl, ?_, ?_⟩
        · simp [feed_cons, goodPrefix_append, hg, hgood]
        · rw [List.cons_append, feed_cons, goodPrefix_append, hg]
          exact hdirty

/-- Conversely, a first bad chunk hides itself and all that follows. -/
theorem clean_of_dirty (d : StreamFrameDecoder) (before after : List (List UInt8))
    (chunk : List UInt8) (hgood : (goodPrefix (feed push d before).1).2 = none)
    (hdirty : (goodPrefix (feed push d (before ++ [chunk])).1).2 ≠ none) :
    (clean (batches push d (before ++ chunk :: after))).1 =
      (goodPrefix (feed push d before).1).1 := by
  have hbefore := (clean_spec (batches push d before)).2.2
  rw [batches_flatten] at hbefore
  rw [batches_append, clean_append, hbefore hgood]
  cases hb : goodPrefix (feed push d before).1 with
  | mk envelopes err =>
    rw [hb] at hgood
    simp only at hgood
    subst hgood
    simp only [batches, clean]
    rw [feed_append, goodPrefix_append, hb] at hdirty
    simp only [feed_cons, feed_nil, List.append_nil] at hdirty
    cases hc : goodPrefix (push (feed push d before).2 chunk).1 with
    | mk envelopes' err' =>
      cases err' with
      | some e => simp
      | none => simp [hc] at hdirty

end Dirty

def IsCut (bytes : List UInt8) (chunks : List (List UInt8)) : Prop :=
  chunks.flatten = bytes ∧ ∀ chunk ∈ chunks, 1 ≤ chunk.length ∧ chunk.length ≤ 4096

section Boundaries

variable (w : WireCodec) (authoriser : ConnectAuthoriser) (max : ℕ) (sink : Option IoErrorKind)

/-- Some read of at most 4096 bytes completes the first bad frame together with
one of the first `n` envelopes. -/
def SharesRead (bytes : List UInt8) (n : ℕ) : Prop :=
  ∃ s t, s < t ∧ t ≤ s + 4096 ∧ t ≤ bytes.length ∧
    (resultsOf w max (bytes.take s)).length < n ∧
    (goodPrefix (resultsOf w max bytes)).1.length < (resultsOf w max (bytes.take t)).length

theorem goodPrefix_of_isPrefix {results results' : List FrameResult} (h : results <+: results') :
    (results.length ≤ (goodPrefix results').1.length →
      goodPrefix results = ((goodPrefix results').1.take results.length, none)) ∧
    ((goodPrefix results').1.length < results.length → (goodPrefix results).2 ≠ none) := by
  induction results generalizing results' with
  | nil => simp [goodPrefix]
  | cons result results ih =>
    cases results' with
    | nil => simp at h
    | cons result' results' =>
      obtain ⟨rfl, htail⟩ := List.cons_prefix_cons.mp h
      cases result with
      | error e => simp [goodPrefix]
      | ok envelope =>
        obtain ⟨ih1, ih2⟩ := ih htail
        constructor
        · intro hle
          have := ih1 (by simpa [goodPrefix] using hle)
          simp [goodPrefix, this]
        · intro hlt
          exact ih2 (by simpa [goodPrefix] using hlt)

theorem feed_results (chunks : List (List UInt8)) :
    (feed (StreamFrameDecoder.push w.envelope) (.new max) chunks).1 =
      resultsOf w max chunks.flatten := by
  rw [StreamFrameDecoder.feed_new]
  rfl

theorem resultsOf_take (bytes : List UInt8) (k : ℕ) :
    resultsOf w max (bytes.take k) <+: resultsOf w max bytes := by
  have h := resultsOf_append w max (bytes.take k) (bytes.drop k)
  rwa [List.take_append_drop] at h

theorem IsCut.ne_nil {bytes : List UInt8} {chunks : List (List UInt8)} (h : IsCut bytes chunks) :
    ∀ chunk ∈ chunks, chunk ≠ [] :=
  fun chunk hc => List.ne_nil_of_length_pos (h.2 chunk hc).1

def observe (peerAddr : String) (chunks : List (List UInt8)) : Option (List IncomingEvent) :=
  (transcript tcp w ⟨chunks.map .ok, sink, []⟩ peerAddr max authoriser).observed

theorem observe_eq (peerAddr : String) {chunks : List (List UInt8)}
    (h : ∀ chunk ∈ chunks, chunk ≠ []) :
    observe w authoriser max sink peerAddr chunks = served w authoriser max sink
      (clean (batches (StreamFrameDecoder.push w.envelope) (.new max) chunks)).1 := by
  rw [observe, transcript_chunks tcp w chunks h, observed_transcriptOf]

/-- A cut serves all good envelopes, or those that are complete where the read
with the bad frame starts. -/
theorem observe_cut (peerAddr : String) {bytes : List UInt8} {chunks : List (List UInt8)}
    (hcut : IsCut bytes chunks) :
    observe w authoriser max sink peerAddr chunks =
        served w authoriser max sink (goodPrefix (resultsOf w max bytes)).1 ∨
      ∃ s t, s < t ∧ t ≤ s + 4096 ∧ t ≤ bytes.length ∧
        (goodPrefix (resultsOf w max bytes)).1.length <
          (resultsOf w max (bytes.take t)).length ∧
        observe w authoriser max sink peerAddr chunks = served w authoriser max sink
          ((goodPrefix (resultsOf w max bytes)).1.take
            (resultsOf w max (bytes.take s)).length) := by
  obtain ⟨-, herr, hall⟩ := clean_spec
    (batches (StreamFrameDecoder.push w.envelope) (.new max) chunks)
  rw [batches_flatten_eq, hcut.1] at herr hall
  rw [observe_eq w authoriser max sink peerAddr hcut.ne_nil]
  by_cases hnone : (goodPrefix (resultsOf w max bytes)).2 = none
  · left
    rw [hall hnone]
  · right
    obtain ⟨before, chunk, after, hsplit, hgood, hdirty⟩ :=
      clean_first_dirty _ (.new max) chunks (by rwa [herr])
    rw [feed_results] at hgood hdirty
    have hbytes : bytes = before.flatten ++ (chunk ++ after.flatten) := by
      rw [← hcut.1, hsplit]
      simp
    have hs : bytes.take before.flatten.length = before.flatten := by
      rw [hbytes, List.take_left]
    have ht : bytes.take (before.flatten.length + chunk.length) =
        (before ++ [chunk]).flatten := by
      rw [hbytes, ← List.append_assoc, ← List.length_append, List.take_left]
      simp
    have hchunk := hcut.2 chunk (by rw [hsplit]; simp)
    have hpre := resultsOf_take w max bytes before.flatten.length
    have hpre' := resultsOf_take w max bytes (before.flatten.length + chunk.length)
    rw [hs] at hpre
    rw [ht] at hpre'
    refine ⟨before.flatten.length, before.flatten.length + chunk.length, by omega, by omega,
      ?_, ?_, ?_⟩
    · rw [hbytes]
      simp
    · rw [ht]
      by_contra hle
      rw [(goodPrefix_of_isPrefix hpre').1 (Nat.not_lt.mp hle)] at hdirty
      exact hdirty rfl
    · rw [hs]
      have hle : (resultsOf w max before.flatten).length ≤
          (goodPrefix (resultsOf w max bytes)).1.length := by
        by_contra hlt
        exact (goodPrefix_of_isPrefix hpre).2 (Nat.not_le.mp hlt) (by rw [hgood])
      have heq := (goodPrefix_of_isPrefix hpre).1 hle
      rw [hgood, Prod.mk.injEq] at heq
      rw [heq.1]

def singles (bytes : List UInt8) : List (List UInt8) := bytes.map fun b => [b]

theorem flatten_singles (bytes : List UInt8) : (singles bytes).flatten = bytes := by
  induction bytes with
  | nil => rfl
  | cons b bytes ih => simpa [singles] using ih

theorem isCut_singles (bytes : List UInt8) : IsCut bytes (singles bytes) := by
  refine ⟨flatten_singles bytes, ?_⟩
  intro chunk hc
  simp only [singles, List.mem_map] at hc
  obtain ⟨b, -, rfl⟩ := hc
  simp

theorem observe_singles (peerAddr : String) (bytes : List UInt8) :
    observe w authoriser max sink peerAddr (singles bytes) =
      served w authoriser max sink (goodPrefix (resultsOf w max bytes)).1 := by
  obtain ⟨-, herr, hall⟩ := clean_spec
    (batches (StreamFrameDecoder.push w.envelope) (.new max) (singles bytes))
  rw [batches_flatten_eq, flatten_singles] at herr hall
  rw [observe_eq w authoriser max sink peerAddr (isCut_singles bytes).ne_nil]
  by_cases hnone : (goodPrefix (resultsOf w max bytes)).2 = none
  · rw [hall hnone]
  · obtain ⟨before, chunk, after, hsplit, hgood, hdirty⟩ :=
      clean_first_dirty _ (.new max) (singles bytes) (by rwa [herr])
    rw [feed_results] at hgood hdirty
    have hmem : chunk ∈ singles bytes := by
      rw [hsplit]
      simp
    simp only [singles, List.mem_map] at hmem
    obtain ⟨b, -, rfl⟩ := hmem
    have hbytes : bytes = before.flatten ++ [b] ++ after.flatten := by
      rw [← flatten_singles bytes, hsplit]
      simp
    have hflat : (before ++ [[b]]).flatten = before.flatten ++ [b] := by simp
    rw [hflat] at hdirty
    have hpre : resultsOf w max before.flatten <+: resultsOf w max bytes := by
      rw [hbytes, List.append_assoc]
      exact resultsOf_append w max _ _
    have hpre' : resultsOf w max (before.flatten ++ [b]) <+: resultsOf w max bytes := by
      rw [hbytes]
      exact resultsOf_append w max _ _
    -- The bad frame is the only one its byte completes.
    have hone := resultsOf_snoc_length w max before.flatten b
    have hle : (resultsOf w max before.flatten).length ≤
        (goodPrefix (resultsOf w max bytes)).1.length := by
      by_contra hlt
      exact (goodPrefix_of_isPrefix hpre).2 (Nat.not_le.mp hlt) (by rw [hgood])
    have hlt : (goodPrefix (resultsOf w max bytes)).1.length <
        (resultsOf w max (before.flatten ++ [b])).length := by
      by_contra hnlt
      rw [(goodPrefix_of_isPrefix hpre').1 (Nat.not_lt.mp hnlt)] at hdirty
      exact hdirty rfl
    have heq := (goodPrefix_of_isPrefix hpre).1 hle
    rw [hgood, Prod.mk.injEq] at heq
    rw [heq.1, List.take_of_length_le (by omega)]

/-- The cut that reads single bytes except for one read from `s` to `t`. -/
def spanCut (bytes : List UInt8) (s t : ℕ) : List (List UInt8) :=
  singles (bytes.take s) ++ (bytes.drop s).take (t - s) :: singles (bytes.drop t)

theorem isCut_spanCut {bytes : List UInt8} {s t : ℕ} (hst : s < t) (ht : t ≤ s + 4096)
    (htl : t ≤ bytes.length) : IsCut bytes (spanCut bytes s t) := by
  constructor
  · have hdrop : bytes.drop t = (bytes.drop s).drop (t - s) := by
      rw [List.drop_drop, Nat.add_sub_cancel' (Nat.le_of_lt hst)]
    rw [spanCut, List.flatten_append, List.flatten_cons, flatten_singles, flatten_singles, hdrop,
      List.take_append_drop, List.take_append_drop]
  · intro chunk hc
    rw [spanCut, List.mem_append, List.mem_cons] at hc
    rcases hc with hc | rfl | hc
    · exact (isCut_singles _).2 chunk hc
    · rw [List.length_take, List.length_drop]
      omega
    · exact (isCut_singles _).2 chunk hc

theorem observe_spanCut (peerAddr : String) {bytes : List UInt8} {s t : ℕ} (hst : s < t)
    (ht : t ≤ s + 4096) (htl : t ≤ bytes.length)
    (hs : (resultsOf w max (bytes.take s)).length ≤
      (goodPrefix (resultsOf w max bytes)).1.length)
    (hbad : (goodPrefix (resultsOf w max bytes)).1.length <
      (resultsOf w max (bytes.take t)).length) :
    observe w authoriser max sink peerAddr (spanCut bytes s t) = served w authoriser max sink
      ((goodPrefix (resultsOf w max bytes)).1.take (resultsOf w max (bytes.take s)).length) := by
  have hflat : (singles (bytes.take s) ++ [(bytes.drop s).take (t - s)]).flatten =
      bytes.take t := by
    rw [List.flatten_append, flatten_singles, List.flatten_singleton, ← List.take_add,
      Nat.add_sub_cancel' (Nat.le_of_lt hst)]
  have hgood := (goodPrefix_of_isPrefix (resultsOf_take w max bytes s)).1 hs
  have hdirty := (goodPrefix_of_isPrefix (resultsOf_take w max bytes t)).2 hbad
  have hclean := clean_of_dirty (StreamFrameDecoder.push w.envelope) (.new max)
    (singles (bytes.take s)) (singles (bytes.drop t)) ((bytes.drop s).take (t - s))
    (by rw [feed_results, flatten_singles, hgood]) (by rw [feed_results, hflat]; exact hdirty)
  rw [feed_results, flatten_singles, hgood] at hclean
  rw [observe_eq w authoriser max sink peerAddr (isCut_spanCut hst ht htl).ne_nil]
  exact congrArg _ hclean

/-- For every stream, authoriser and frame limit: any two ways of reading the
stream give the same handshake verdict and the same events, and serve every good
frame in front of the first bad one, exactly when no read can complete that bad
frame together with an envelope that has to be served. -/
theorem reads_do_not_matter_iff (peerAddr : String) (bytes : List UInt8) :
    (∀ chunks chunks', IsCut bytes chunks → IsCut bytes chunks' →
      observe w authoriser max sink peerAddr chunks =
          observe w authoriser max sink peerAddr chunks' ∧
        observe w authoriser max sink peerAddr chunks =
          served w authoriser max sink (goodPrefix (resultsOf w max bytes)).1) ↔
      ¬ SharesRead w max bytes
        (needed w authoriser max sink (goodPrefix (resultsOf w max bytes)).1) := by
  constructor
  · rintro hsame ⟨s, t, hst, ht, htl, hs, hbad⟩
    have hlen := needed_le_length w authoriser max sink (goodPrefix (resultsOf w max bytes)).1
    have hobs := (hsame _ _ (isCut_spanCut hst ht htl) (isCut_singles bytes)).2
    rw [observe_spanCut w authoriser max sink peerAddr hst ht htl (by omega) hbad,
      served_take_iff] at hobs
    omega
  · intro hapart
    have hall : ∀ chunks, IsCut bytes chunks → observe w authoriser max sink peerAddr chunks =
        served w authoriser max sink (goodPrefix (resultsOf w max bytes)).1 := by
      intro chunks hcut
      rcases observe_cut w authoriser max sink peerAddr hcut with
        hok | ⟨s, t, hst, ht, htl, hbad, hobs⟩
      · exact hok
      · rw [hobs, served_take_iff]
        by_contra hlt
        exact hapart ⟨s, t, hst, ht, htl, Nat.not_le.mp hlt, hbad⟩
    intro chunks chunks' hcut hcut'
    exact ⟨(hall chunks hcut).trans (hall chunks' hcut').symm, hall chunks hcut⟩

end Boundaries

/-- A Connect and a health report, then the header of an oversize frame. -/
def goodBytes : List UInt8 :=
  [0, 0, 0, 17] ++ connectEnvelopeBytes ++ ([0, 0, 0, 28] ++ healthEnvelopeBytes)

def oversizeHeader : List UInt8 := [0xff, 0xff, 0xff, 0xff]

theorem resultsOf_sample (rest : List UInt8) :
    resultsOf sampleWire 65535 (goodBytes ++ rest) =
      [.ok connectEnvelope, .ok healthEnvelope] ++ resultsOf sampleWire 65535 rest := by
  have hw : sampleWire.envelope.Inverts := Cbor.inverts_ofTable (by decide)
  have hconnect : encodeStream sampleWire.envelope connectEnvelope 65535 =
      .ok ([0, 0, 0, 17] ++ connectEnvelopeBytes) := by decide
  have hhealth : encodeStream sampleWire.envelope healthEnvelope 65535 =
      .ok ([0, 0, 0, 28] ++ healthEnvelopeBytes) := by decide
  have hparse := parseFrames_encoded hw 65535 (.cons hconnect (.cons hhealth .nil)) rest
  exact congrArg Prod.fst hparse

theorem resultsOf_oversizeHeader :
    resultsOf sampleWire 65535 oversizeHeader = [.error (.oversizeFrame (some 4294967295) 65535)] := by
  have hlen : Bytes.ofBe (oversizeHeader.take 4) = 4294967295 := by decide
  rw [resultsOf, parseFrames_oversize _ _ (by decide) (by rw [hlen]; decide), hlen]
  rw [parseFrom_of_lt _ _ (by decide)]

/-- The same stream, whole in one read and with the bad header in a read of its
own: once the handshake fails, once the report is delivered. -/
theorem reads_matter_to_sample :
    IsCut (goodBytes ++ oversizeHeader) [goodBytes ++ oversizeHeader] ∧
      IsCut (goodBytes ++ oversizeHeader) [goodBytes, oversizeHeader] ∧
      observe sampleWire (fun _ _ => .ok ()) 65535 none "peer" [goodBytes ++ oversizeHeader] =
        none ∧
      observe sampleWire (fun _ _ => .ok ()) 65535 none "peer" [goodBytes, oversizeHeader] =
        some [⟨sampleHealth, none⟩] := by
  have hgood : goodPrefix (resultsOf sampleWire 65535 goodBytes) =
      ([connectEnvelope, healthEnvelope], none) := by
    have h := resultsOf_sample []
    rw [List.append_nil] at h
    rw [h, resultsOf, parseFrames_nil]
    rfl
  have hdirty : (goodPrefix (resultsOf sampleWire 65535 (goodBytes ++ oversizeHeader))).2 ≠
      none := by
    rw [resultsOf_sample, resultsOf_oversizeHeader]
    simp [goodPrefix]
  have hone := clean_of_dirty (StreamFrameDecoder.push sampleWire.envelope) (.new 65535) [] []
    (goodBytes ++ oversizeHeader) rfl (by rw [feed_results]; simpa using hdirty)
  have htwo := clean_of_dirty (StreamFrameDecoder.push sampleWire.envelope) (.new 65535)
    [goodBytes] [] oversizeHeader (by rw [feed_results, List.flatten_singleton, hgood])
    (by rw [feed_results]; simpa using hdirty)
  rw [feed_results, List.flatten_singleton, hgood] at htwo
  refine ⟨⟨by simp, by decide⟩, ⟨by simp, by decide⟩, ?_, ?_⟩
  · rw [observe_eq _ _ _ _ _ (by decide)]
    exact congrArg _ hone
  · rw [observe_eq _ _ _ _ _ (by decide)]
    exact (congrArg _ htwo).trans (by decide)

end OtkCore.Ingest
