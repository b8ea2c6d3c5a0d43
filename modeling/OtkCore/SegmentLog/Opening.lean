import OtkCore.SegmentLog.Rolling
import OtkCore.SegmentLog.Scan

/-!
# Opening a directory

`open` accepts every directory the log can leave behind: it lists the segments
in order, loads the closed ones through their indexes, recovers the newest one
record by record and takes the next offset from the watermark when nothing is
left. Only an index above the size limit is refused.
-/
namespace OtkCore.SegmentLog

open Effect FileIO Bytes

variable {c : Codec} {m : Mode}

structure Mode.Calm (m : Mode) : Prop where
  never : ∀ o, ¬ m.fails o
  alone : ¬ m.strict

theorem Mode.Calm.undoes (h : m.Calm) : m.Undoes :=
  ⟨fun _ _ => h.never _, fun _ _ _ => h.never _, fun _ _ _ _ _ => h.never _⟩

section Reading

variable {σ : Type} {st : σ} {w : World} (hm : m.Calm)

include hm

theorem safe_seek_calm {f : File} {pos : ℕ} {Q : Except IoErrorKind Unit × File → World → Prop}
    (hQ : Q (.ok (), ⟨f.ino, pos⟩) w) : Safe (setting c m) (File.seek FileName pos f) Q w :=
  safe_seek hQ fun hf => absurd hf (hm.never _)

theorem safe_len_calm {f : File} {Q : Except IoErrorKind ℕ × File → World → Prop}
    (hQ : Q (.ok (w.disk.data f.ino).length, f) w) :
    Safe (setting c m) (File.len FileName f) Q w :=
  safe_len hQ fun hf => absurd hf (hm.never _)

theorem safe_parse {ε α : Type} {ino : ℕ} {inject : IoErrorKind → ε}
    {Q : Except ε α × File → World → Prop} {p : Parser ε α} {pos : ℕ} {r : Except ε α} {n : ℕ}
    (hp : p.parse ((w.disk.data ino).drop pos) = some (r, n)) (hQ : Q (r, ⟨ino, pos + n⟩) w) :
    Safe (setting c m) (p.read FileName inject ⟨ino, pos⟩) Q w := by
  refine quiet_setting.read ino inject (fun ⟨_, _, hf⟩ => absurd hf (hm.never _)) p pos ?_ ?_
  · intro r' n' h'
    obtain ⟨rfl, rfl⟩ : r = r' ∧ n = n' := by
      have := hp.symm.trans h'
      simpa using this
    exact hQ
  · intro hnone
    have := hp.symm.trans hnone
    cases this

theorem safe_readRecord {f : File} {pos : ℕ} {r : Except StorageError LogEntry} {n : ℕ}
    {Q : Except StorageError LogEntry × File → World → Prop}
    (hp : (recordParser c pos).parse ((w.disk.data f.ino).drop pos) = some (r, n))
    (hQ : Q (r, ⟨f.ino, pos + n⟩) w) : Safe (setting c m) (readRecord c pos f) Q w :=
  Safe.bindP (Safe.mapError (safe_seek_calm hm (safe_parse hm hp hQ)))

theorem safe_stat {x : FileName} {Q : Except IoErrorKind ℕ → World → Prop}
    (hok : ∀ i, w.disk.find x = some i → Q (.ok (w.disk.data i).length) w)
    (hnone : w.disk.find x = none → Q (.error .notFound) w) :
    Safe (setting c m) (Prog.op (Op.stat x)) Q w :=
  quiet_setting.stat hok hnone fun hf => absurd hf (hm.never _)

theorem safe_openRead {x : FileName} {Q : Except IoErrorKind ℕ → World → Prop}
    (hok : ∀ i, w.disk.find x = some i → Q (.ok i) w)
    (hnone : w.disk.find x = none → Q (.error .notFound) w) :
    Safe (setting c m) (Prog.op (Op.openRead x)) Q w :=
  quiet_setting.openRead hok hnone fun hf => absurd hf (hm.never _)

omit hm in
theorem filterMap_cons_toList {α β : Type} (f : α → Option β) (x : α) (xs : List α) :
    (x :: xs).filterMap f = (f x).toList ++ xs.filterMap f := by
  cases hx : f x <;> simp [hx]

omit hm in
/-- A listing that nobody disturbs returns the linked segment files. -/
theorem safe_scanDir {W : Type} {T : Setting (Resp (N := FileName)) (Disk FileName) W}
    {fails : Op FileName → Prop} (hT : Quiet T fails) {w : W} {slots : List (Slot FileName)}
    (hknown : ∀ x, .known x ∈ slots → ((T.view w).find x).isSome = true)
    (hfresh : ∀ present, .fresh present ∈ slots → present = (T.view w).dir.keys)
    {Q : Except StorageError (List ℕ) × σ → W → Prop}
    (hok : Q (.ok ((knownNames slots).filterMap FileName.segBase?), st) w)
    (herr : ∀ slot, fails (.dirEntry slot) → Q (.error (.io .other), st) w) :
    Safe T (scanDir slots st) Q w := by
  induction slots generalizing Q with
  | nil => exact hok
  | cons slot rest ih =>
    rw [scanDir]
    refine Safe.bindP (Safe.mapError (Safe.liftE (hT.opStay fun r d' hs => ?_)))
    have hrest := fun {Q} => @ih (fun x hx => hknown x (List.mem_cons_of_mem _ hx))
      (fun p hp => hfresh p (List.mem_cons_of_mem _ hp)) Q
    cases slot with
    | known x =>
      have hx := hknown x List.mem_cons_self
      obtain ⟨rfl, rfl | ⟨hnone, -⟩ | ⟨hf, rfl⟩⟩ := hs
      · refine ⟨rfl, Safe.bindP (hrest ?_ herr)⟩
        have hnames : knownNames (.known x :: rest) = x :: knownNames rest := rfl
        rw [hnames, filterMap_cons_toList] at hok
        exact hok
      · simp [hnone] at hx
      · exact ⟨rfl, herr _ hf⟩
    | fresh present =>
      have hp := hfresh present List.mem_cons_self
      obtain ⟨rfl, rfl | ⟨x, hx, hsome, -⟩ | ⟨hf, rfl⟩⟩ := hs
      · refine ⟨rfl, Safe.bindP (hrest ?_ herr)⟩
        simpa [Safe, knownNames] using hok
      · rw [hp] at hx
        exact absurd (((T.view w).mem_keys x).mpr hsome) hx
      · exact ⟨rfl, herr _ hf⟩

end Reading

/-- The segments of a directory with their files, in order. -/
def Ghost.linked (g : Ghost) : List Segment := g.live ++ g.tail.toList

theorem mem_segBases (d : Disk FileName) (base : ℕ) :
    base ∈ d.dir.keys.filterMap FileName.segBase? ↔ (d.find (.seg base)).isSome = true := by
  rw [List.mem_filterMap]
  constructor
  · rintro ⟨x, hx, hb⟩
    cases x <;> simp only [FileName.segBase?, Option.some.injEq, reduceCtorEq] at hb
    subst hb
    exact (d.mem_keys _).mp hx
  · intro hb
    exact ⟨_, (d.mem_keys _).mpr hb, rfl⟩

theorem nodup_segBases (d : Disk FileName) : (d.dir.keys.filterMap FileName.segBase?).Nodup := by
  refine d.dir.keys_nodup.filterMap fun x y b hx hy => ?_
  cases x <;> cases y <;> simp_all [FileName.segBase?]

/-- Sorting the listed segment files gives the segments in order. -/
theorem Good.sorted_bases {w : World} (h : Good c w) {names : List FileName}
    (hn : names.Perm w.disk.dir.keys) :
    (names.filterMap FileName.segBase?).mergeSort (· ≤ ·) = w.ghost.linked.map Segment.base := by
  have hlt : (w.ghost.linked.map Segment.base).Pairwise (· < ·) := by
    rw [List.pairwise_map]
    have hp := h.ok.chained.stop_le
    rw [Ghost.segments, List.pairwise_append] at hp
    have hpos : ∀ s ∈ w.ghost.closed, s.base < s.stop := fun s hs => by
      have := List.length_pos_of_ne_nil (h.ok.nonempty s hs)
      rw [Segment.stop]
      omega
    rw [Ghost.linked, List.pairwise_append]
    refine ⟨?_, ?_, fun s hs t ht => ?_⟩
    · refine (hp.1.sublist (List.drop_sublist _ _)).imp_of_mem fun hs _ hle => ?_
      exact (hpos _ (Ghost.mem_live hs)).trans_le hle
    · cases w.ghost.tail <;> simp
    · exact (hpos s (Ghost.mem_live hs)).trans_le (hp.2.2 s (Ghost.mem_live hs) t ht)
  have hmem : ∀ b, b ∈ w.disk.dir.keys.filterMap FileName.segBase? ↔
      b ∈ w.ghost.linked.map Segment.base := by
    intro b
    rw [mem_segBases, Option.isSome_iff_exists, List.mem_map]
    constructor
    · rintro ⟨i, hi⟩
      obtain ⟨s, hs, hb, -⟩ := (h.seg b i).mp hi
      exact ⟨s, hs, hb⟩
    · rintro ⟨s, hs, rfl⟩
      exact ⟨s.ino, (h.seg _ _).mpr ⟨s, hs, rfl, rfl⟩⟩
  have hperm : (w.disk.dir.keys.filterMap FileName.segBase?).Perm
      (w.ghost.linked.map Segment.base) :=
    (List.perm_ext_iff_of_nodup (nodup_segBases _) (hlt.imp fun h => h.ne)).mpr hmem
  exact List.Perm.eq_of_pairwise' (List.pairwise_mergeSort' (· ≤ ·) _) (hlt.imp fun h => h.le)
    ((List.mergeSort_perm _ _).trans ((hn.filterMap _).trans hperm))

structure Loaded (c : Codec) (st : OpenState) (done : List Segment) : Prop where
  closed : List.Forall₂ (ClosedRep c) st.closed done
  active : st.active = none
  next : st.nextOffset = (done.getLast?.map Segment.stop).getD 0

theorem Good.idx_tail {w : World} (h : Good c w) {s : Segment} (ht : w.ghost.tail = some s) :
    w.disk.find (.idx s.base) = none := by
  cases hfind : w.disk.find (.idx s.base) with
  | none => rfl
  | some j =>
    obtain ⟨t, htm, hb, -⟩ := h.idxData _ _ hfind
    exact absurd hb (h.ok.closed_ne htm ht)

theorem safe_idxExists (hm : m.Calm) {σ : Type} {st : σ} {w : World} {base : ℕ}
    {Q : Except StorageError Bool × σ → World → Prop}
    (hQ : Q (.ok (w.disk.find (.idx base)).isSome, st) w) :
    Safe (setting c m) (idxExists base st) Q w := by
  refine Safe.bindP (Safe.lift (safe_stat hm (fun i hi => ?_) fun hnone => ?_))
  · rw [hi] at hQ
    exact hQ
  · rw [hnone] at hQ
    exact hQ

theorem Good.position_lt {w : World} (h : Good c w) {s : Segment} (hs : s ∈ w.ghost.closed) :
    ∀ p ∈ s.positions c, p < 2 ^ 64 := by
  intro p hp
  have hlt := lt_of_mem_positionsFrom c hp
  have hsmall := h.tidy.small s.ino
  rw [(h.closedData s hs).2, List.length_append, Segment.length_image, maxFileLen] at hsmall
  omega

theorem safe_readIndex (hm : m.Calm) {σ : Type} {st : σ} {w : World} (h : Good c w) {s : Segment}
    (hs : s ∈ w.ghost.live) (dir : String) {Q : Except StorageError (List ℕ) × σ → World → Prop}
    (hQ : 8 * s.entries.length ≤ maxIndexBytes → Q (.ok (s.positions c), st) w)
    (hbig : maxIndexBytes < 8 * s.entries.length → ∀ msg, Q (.error (.corrupted msg), st) w) :
    Safe (setting c m) (readIndex dir s.base st) Q w := by
  obtain ⟨j, hj⟩ := Option.isSome_iff_exists.mp (h.idx s hs)
  obtain ⟨t, ht, hb, hd⟩ := h.idxData _ _ hj
  obtain rfl := h.ok.closed_inj ht (Ghost.mem_live hs) hb
  have hlen : (indexBytes (t.positions c)).length = 8 * t.entries.length := by simp
  unfold readIndex
  refine Safe.bindP (Safe.mapError (Safe.liftE (safe_stat hm (fun i hi => ?_) fun hnone => ?_)))
  · obtain rfl : j = i := Option.some.inj (hj.symm.trans hi)
    change Safe _ ((if (w.disk.data j).length > maxIndexBytes then _ else _ : Io σ (List ℕ)) st) Q w
    rw [hd, hlen]
    by_cases hlimit : maxIndexBytes < 8 * t.entries.length
    · rw [if_pos hlimit]
      exact hbig hlimit _
    rw [if_neg hlimit]
    refine Safe.bindP (Safe.mapError (Safe.liftE (safe_openRead hm (fun i hi => ?_) fun hnone => ?_)))
    · obtain rfl : j = i := Option.some.inj (hj.symm.trans hi)
      refine Safe.bindP (Safe.mapError (Safe.liftE (quiet_setting.opStay fun r d' hs => ?_)))
      obtain ⟨rfl, rfl | ⟨hf, -⟩⟩ := hs
      · refine ⟨rfl, ?_⟩
        change Safe _ ((if (w.disk.data j).length % 8 ≠ 0 then _
          else pure (chunks8 (w.disk.data j)) : Io σ (List ℕ)) st) Q w
        rw [hd, hlen, if_neg (by omega), chunks8_indexBytes (h.position_lt ht)]
        exact hQ (by omega)
      · exact absurd hf (hm.never _)
    · rw [hj] at hnone
      cases hnone
  · rw [hj] at hnone
    cases hnone

theorem Segment.positions_getLast? (s : Segment) {es : List LogEntry} {e : LogEntry}
    (h : s.entries = es ++ [e]) :
    (s.positions c).getLast? = some (headerLen + (recordsBytes c es).length) := by
  rw [Segment.positions, h, positionsFrom_append]
  simp [positionsFrom]

theorem Loaded.openClosed (hm : m.Calm) {w : World} (h : Good c w) {s : Segment}
    (hs : s ∈ w.ghost.live) (dir : String) {st : OpenState} {done : List Segment}
    (hl : Loaded c st done) {Q : Except StorageError Unit × OpenState → World → Prop}
    (hQ : ∀ st', 8 * s.entries.length ≤ maxIndexBytes → Loaded c st' (done ++ [s]) →
      Q (.ok (), st') w)
    (hbig : maxIndexBytes < 8 * s.entries.length → ∀ msg, Q (.error (.corrupted msg), st) w) :
    Safe (setting c m) (SegmentLog.openClosed c dir s.base st) Q w := by
  have hc := Ghost.mem_live hs
  have hfind := h.find_live hs
  have hdata := (h.closedData s hc).2
  have hmem : s ∈ w.ghost.segments := by simp [Ghost.segments, hc]
  have hstop := h.ok.chained.stop_le_total hmem
  have hcount := h.ok.count
  rw [Ghost.total] at hcount
  rw [Segment.stop] at hstop
  obtain ⟨es, e, hes⟩ : ∃ es e, s.entries = es ++ [e] :=
    ⟨_, _, (List.dropLast_append_getLast (h.ok.nonempty s hc)).symm⟩
  have hlen : s.entries.length = es.length + 1 := by simp [hes]
  have hbase : s.base < 2 ^ 64 := by omega
  unfold SegmentLog.openClosed
  refine Safe.bindP (Safe.lift (safe_openRead hm (fun i hi => ?_) fun hnone => ?_))
  · obtain rfl : s.ino = i := Option.some.inj (hfind.symm.trans hi)
    refine Safe.bindP (safe_readIndex hm h hs dir (fun hlimit => ?_) hbig)
    dsimp only
    rw [s.positions_getLast? hes]
    dsimp only
    rw [s.length_positions, if_neg (by omega)]
    refine Safe.bindP (Safe.on (safe_parse hm (r := .ok ⟨s.base, s.created⟩) (n := 24) ?_ ?_))
    · rw [hdata, Segment.image, List.drop_zero, List.append_assoc]
      exact parse_headerBytes hbase (h.ok.created s hmem) _
    dsimp only [Except.map]
    rw [if_neg (by simp)]
    refine Safe.bindP (Safe.on (safe_readRecord hm (r := .ok e) (n := payloadLen c e + 8) ?_ ?_))
    · rw [hdata, drop_image_append c hes]
      simpa using parse_recordBytes c (h.ok.entryOk s hmem e (by simp [hes])) _ sentinel
    dsimp only [Except.map]
    have hoff : e.offset = s.base + s.entries.length - 1 := by
      have := h.ok.numbered s hmem es.length e (by simp [hes])
      omega
    rw [if_neg (by simpa using hoff)]
    refine Safe.bindP (Safe.mapError (Safe.liftE (safe_stat hm (fun i hi => ?_) fun hnone => ?_)))
    · refine hQ _ hlimit ⟨List.rel_append hl.closed (.cons ⟨rfl, ?_, rfl, rfl⟩ .nil), hl.active, ?_⟩
      · simp only [Segment.stop]
        omega
      · simp [Segment.stop]
    · rw [hfind] at hnone
      cases hnone
  · rw [hfind] at hnone
    cases hnone

theorem safe_readExact (hm : m.Calm) {w : World} {ino pos n : ℕ}
    {Q : Except IoErrorKind (List UInt8) × File → World → Prop}
    (hok : n ≤ ((w.disk.data ino).drop pos).length →
      Q (.ok (((w.disk.data ino).drop pos).take n), ⟨ino, pos + n⟩) w)
    (heof : ((w.disk.data ino).drop pos).length < n → ∀ p, Q (.error .unexpectedEof, ⟨ino, p⟩) w) :
    Safe (setting c m) (File.readExact FileName n ⟨ino, pos⟩) Q w :=
  quiet_setting.readExactAux ino (fun ⟨_, _, hf⟩ => absurd hf (hm.never _)) n n pos [] le_rfl
    (by rw [List.nil_append]; exact hok) heof

theorem take_recordBytes (e : LogEntry) : (recordBytes c e).take 4 = le 4 (payloadLen c e) := by
  rw [recordBytes, List.append_assoc, List.take_append_of_le_length (by simp)]
  exact List.take_of_length_le (by simp)

section Recover

variable {w : World} {s : Segment} {t : List UInt8}

theorem Good.cutAt (h : Good c w) (hm : m.Calm) (ht : w.ghost.tail = some s)
    (hd : w.disk.data s.ino = s.image c ++ t) (hU : m.allowed w.ghost.total) {p : ℕ}
    {Q : Except StorageError Unit × File → World → Prop}
    (hQ : ∀ p, Good c (w.setTail s (s.image c)) →
      Q (.ok (), ⟨s.ino, p⟩) (w.setTail s (s.image c))) :
    Safe (setting c m) (SegmentLog.cutAt (s.image c).length ⟨s.ino, p⟩) Q w := by
  have hcut := Segment.cut_length s
  have hv := h.validTail ht
  have hlen : (s.image c).length ≤ maxFileLen := by
    have := h.tidy.small s.ino
    rw [hd, List.length_append] at this
    omega
  have hback : (w.setTail s (s.image c)).ghost = w.ghost := by
    rw [World.setTail, ← ht]
  have hne : m.strict → w.disk.data s.ino ≠ s.image c ++ sentinel := fun hs => absurd hs hm.alone
  have hguar := guar_cut (c := c) (m := m) (k := s.entries.length) (r := .ok ()) ht hv
  have hsafe := safe_cut (c := c) (m := m) (k := s.entries.length) (p := p) (z := t) ht hv
    hm.undoes.setLen
  rw [hcut, hback] at hguar hsafe
  refine Safe.bindP (Safe.mapError (hsafe hd hlen hne hU ?_))
  exact Safe.mapError (safe_seek_calm hm (hQ _ (h.move (hguar hlen hne hU).1)))

theorem Segment.Valid.recordChain (hv : s.Valid c) (t : List UInt8) :
    RecordChain c (s.image c ++ t) s.base headerLen (s.positions c) (s.image c).length := by
  have hdrop := drop_image_append c (List.nil_append s.entries).symm t
  rw [recordsBytes_nil, List.length_nil, Nat.add_zero] at hdrop
  rw [Segment.length_image]
  exact recordChain_of_entries hv.entryOk hv.numbered hdrop

theorem TailOk.not_read (htail : TailOk c t) (e : LogEntry) (m : ℕ) :
    (recordParser c (s.image c).length).parse ((s.image c ++ t).drop (s.image c).length) ≠
      some (.ok e, m) := by
  rw [List.drop_left]
  rcases TailOk.parse c htail (s.image c).length with ⟨-, hparse⟩ | ⟨-, hparse⟩
  · rw [hparse]
    simp
  · rw [hparse]
    simp

/-- The scan of `recover_active` finds the records of the segment. -/
theorem Good.recoverLoop (h : Good c w) (hm : m.Calm) (ht : w.ghost.tail = some s)
    (hd : w.disk.data s.ino = s.image c ++ t) (htail : TailOk c t) (hU : m.allowed w.ghost.total)
    {Q : Except StorageError (List ℕ × ℕ) × File → World → Prop}
    (hQ : ∀ p, Good c (w.setTail s (s.image c)) →
      Q (.ok (s.positions c, (s.image c).length), ⟨s.ino, p⟩) (w.setTail s (s.image c))) (p : ℕ) :
    Safe (setting c m) (SegmentLog.recoverLoop c s.base (w.disk.data s.ino).length
      ((w.disk.data s.ino).length + 1) [] headerLen ⟨s.ino, p⟩) Q w := by
  have hsmall := h.tidy.small s.ino
  have hchain := (h.validTail ht).recordChain t
  have hnone := htail.not_read (s := s)
  rw [← hd] at hchain hnone
  have hend : ChainEnd c (w.disk.data s.ino) (s.base + (s.positions c).length)
      (s.image c).length := fun e m he => absurd he (hnone e m)
  have hheader : headerLen ≤ (w.disk.data s.ino).length := by
    rw [hd, List.length_append, Segment.length_image]
    omega
  refine quiet_recoverLoop quiet_setting (w.disk.data s.ino) rfl (Nat.add_zero s.base) hheader
    (Nat.lt_add_left headerLen (Nat.lt_succ_self _)) (by decide) (fun more q hmore _ => ?_)
    (fun more stop hmore hend' _ q => ?_)
    (fun more stop e n hmore hread hwide => ?_) (fun more stop e n hmore hread _ _ hwide => ?_)
    fun ⟨o, hf⟩ => absurd hf (hm.never o)
  · obtain ⟨rfl, hlen⟩ := hchain.unique hend hmore (chainEnd_length _)
    have hself : w.setTail s (s.image c) = w := by
      refine World.setTail_self ht ?_
      have hnil : t = [] := by
        have hlen' := congrArg List.length hd
        rw [List.length_append] at hlen'
        exact List.length_eq_zero_iff.mp (by omega)
      rw [hd, hnil, List.append_nil]
    rw [hself] at hQ
    have hq := hQ q h
    rwa [← hlen] at hq
  · obtain ⟨rfl, rfl⟩ := hchain.unique hend hmore hend'
    exact Safe.bindP (h.cutAt hm ht hd hU hQ)
  · have hlt := hchain.expected_lt hnone hmore hread
    exact absurd hwide (Nat.not_le.mpr hlt)
  · have hfit := Parser.parse_consumed_le hread
    have hle := hmore.le_length hheader
    rw [List.length_drop] at hfit
    unfold maxFileLen at hsmall
    omega

/-- The newest segment of a directory that is being opened: the same entries,
and a complete header. -/
structure Reheaded (c : Codec) (w : World) (s : Segment) (w' : World) (s' : Segment) : Prop where
  good : Good c w'
  ghost : w'.ghost = { w.ghost with tail := some s' }
  base : s'.base = s.base
  ino : s'.ino = s.ino
  entries : s'.entries = s.entries

theorem Reheaded.total {w' : World} {s' : Segment} (h : Reheaded c w s w' s')
    (ht : w.ghost.tail = some s) : w'.ghost.total = w.ghost.total := by
  rw [h.ghost, Ghost.total_tail rfl, Ghost.total_tail ht, h.entries]

theorem Good.openHeader (h : Good c w) (hm : m.Calm) (ht : w.ghost.tail = some s)
    {Q : Except StorageError ℕ × File → World → Prop}
    (hQ : ∀ w' s' t p, Reheaded c w s w' s' → w'.disk.data s'.ino = s'.image c ++ t → TailOk c t →
      Q (.ok s'.created, ⟨s.ino, p⟩) w') :
    Safe (setting c m) (SegmentLog.openHeader s.base ⟨s.ino, 0⟩) Q w := by
  have hv := h.validTail ht
  unfold SegmentLog.openHeader
  refine Safe.bindP (Safe.mapError (safe_len_calm hm ?_))
  rcases h.tailData s ht with ⟨-, hlt, hes⟩ | ⟨t, hd, htail⟩
  · dsimp only [Except.mapError]
    rw [if_neg (by omega)]
    refine Safe.bindP (safe_nowNs fun ts hts => ?_)
    have hv' : Segment.Valid c { s with created := ts } :=
      ⟨hts, hv.entryOk, hv.numbered, hv.count⟩
    have hmove := Move.setTail ht
      (show ({ s with created := ts } : Segment).base = s.base from rfl) rfl hv'
      (Or.inl ⟨List.nil_prefix, by simp [headerLen], hes⟩) (by simp) (.setLen s.ino 0)
    have htotal : (w.setTail { s with created := ts } []).ghost.total = w.ghost.total := by
      rw [Ghost.total_tail ht, Ghost.total_tail rfl]
      rfl
    refine Safe.bindP (Safe.mapError (quiet_setting.op fun r d' hs => ?_))
    obtain ⟨rfl, rfl⟩ | ⟨hf, -⟩ := hs
    · refine ⟨w.setTail { s with created := ts } [], ?_, ⟨hmove, by rw [htotal]; exact id,
        fun hs => absurd hs hm.alone⟩, ?_⟩
      · simp [setting, World.setTail, resize]
      refine Safe.bindP (Safe.mapError (safe_seek_calm hm ?_))
      refine Safe.bindP (safe_writeHeader (s := { s with created := ts }) hm.undoes (h.move hmove)
        rfl hes (by simp) (fun hat => ?_) ?_)
      · rw [World.setTail_setTail rfl] at hat ⊢
        exact hQ _ { s with created := ts } [] _ ⟨hat.good, rfl, rfl, rfl, rfl⟩ hat.data (tailOk_nil c)
      · rintro err p bytes ⟨o, hf⟩
        exact absurd hf (hm.never o)
    · exact absurd hf (hm.never _)
  · dsimp only [Except.mapError]
    rw [hd, if_pos (by simp; omega)]
    refine Safe.bindP (safe_parse hm (r := .ok ⟨s.base, s.created⟩) (n := 24) ?_ ?_)
    · rw [hd, Segment.image, List.drop_zero, List.append_assoc]
      have := hv.count
      exact parse_headerBytes (by simpa using Nat.lt_of_le_of_lt (Nat.le_add_right _ _) this)
        hv.created _
    dsimp only
    rw [if_neg (by simp)]
    refine hQ w s t _ ⟨h, ?_, rfl, rfl, rfl⟩ hd htail
    rw [← ht]

theorem Good.recoverFile (h : Good c w) (hm : m.Calm) (ht : w.ghost.tail = some s)
    (hU : m.allowed w.ghost.total)
    {Q : Except StorageError (ℕ × List ℕ × ℕ × ℕ × ℕ) × File → World → Prop}
    (hQ : ∀ w' s' p last, Reheaded c w s w' s' → AtTail c m w' s' [] →
      Q (.ok (s'.created, s'.positions c, (s'.image c).length, s'.entries.length, last), ⟨s.ino, p⟩)
        w') :
    Safe (setting c m) (SegmentLog.recoverFile c s.base ⟨s.ino, 0⟩) Q w := by
  unfold SegmentLog.recoverFile
  refine Safe.bindP (h.openHeader hm ht fun w₁ s' t p h₁ hd htail => ?_)
  have ht₁ : w₁.ghost.tail = some s' := by rw [h₁.ghost]
  rw [← h₁.total ht] at hU
  rw [← h₁.ino, ← h₁.base]
  refine Safe.bindP (Safe.bindP (Safe.mapError (safe_len_calm hm (Safe.bindP ?_))))
  refine h₁.good.recoverLoop hm ht₁ hd htail hU (fun q hg => ?_) _
  have hback : (w₁.setTail s' (s'.image c)).ghost = w₁.ghost := by
    rw [World.setTail, ← ht₁]
  have h₂ : Reheaded c w s (w₁.setTail s' (s'.image c)) s' :=
    ⟨hg, hback.trans h₁.ghost, h₁.base, h₁.ino, h₁.entries⟩
  have hat : AtTail c m (w₁.setTail s' (s'.image c)) s' [] :=
    ⟨hg, rfl, by simp, by simp, fun _ => rfl⟩
  have hfin := fun p last => hQ _ s' p last h₂ hat
  rw [← h₁.ino] at hfin
  dsimp only
  rw [Proc.pure_apply, Safe]
  dsimp only
  rw [s'.length_positions]
  rcases List.eq_nil_or_concat s'.entries with hnil | ⟨es, e, hes⟩
  · have hnone : (s'.positions c).getLast? = none := by
      rw [Segment.positions, hnil]
      rfl
    rw [hnone]
    exact hfin _ _
  · rw [List.concat_eq_append] at hes
    rw [s'.positions_getLast? hes]
    refine Safe.bindP (safe_readRecord hm (r := .ok e) (n := payloadLen c e + 8) ?_ ?_)
    · rw [World.setTail_data, ← List.append_nil (s'.image c), drop_image_append c hes]
      simpa using parse_recordBytes c (hat.valid.entryOk e (by simp [hes])) _ []
    · exact hfin _ _

theorem Loaded.openActive (hm : m.Calm) (h : Good c w) (ht : w.ghost.tail = some s)
    (hU : m.allowed w.ghost.total) {st : OpenState} {done : List Segment} (hl : Loaded c st done)
    {Q : Except StorageError Unit × OpenState → World → Prop}
    (hQ : ∀ w' s' a, Reheaded c w s w' s' → AtTail c m w' s' [] → ActiveRep c a s' →
      Q (.ok (), { st with active := some a, nextOffset := s'.stop }) w') :
    Safe (setting c m) (SegmentLog.openActive c s.base st) Q w := by
  have hfind := h.find_tail ht
  unfold SegmentLog.openActive discardOrphan
  refine Safe.bindP (Safe.getP ?_)
  rw [hl.active]
  refine Safe.bindP (Safe.mapError (Safe.liftE (quiet_setting.op fun r d' hs => ?_)))
  obtain hs | ⟨hf, -⟩ := hs
  · simp only [setting, hfind] at hs
    obtain ⟨rfl, rfl⟩ := hs
    refine ⟨w, rfl, quiet_setting.stay _ _ _, ?_⟩
    refine Safe.bindP (Safe.on (h.recoverFile hm ht hU fun w' s' p last hr hat => ?_))
    dsimp only [Except.map]
    have hcount := hat.valid.count
    rw [← hr.base, if_neg (by omega), ← hr.ino]
    exact hQ w' s' _ hr hat ⟨rfl, rfl, rfl, rfl, rfl⟩
  · exact absurd hf (hm.never _)

end Recover

section OpenDir

variable {w : World}

/-- No index is above the size that is read back. -/
def IndexesFit (w : World) : Prop := ∀ s ∈ w.ghost.live, 8 * s.entries.length ≤ maxIndexBytes

theorem Loaded.openSegments (hm : m.Calm) (h : Good c w) (dir : String)
    {bases : List ℕ} {Q : Except StorageError Unit × OpenState → World → Prop}
    (hrest : IndexesFit w → ∀ st, Loaded c st w.ghost.live →
      Safe (setting c m) (SegmentLog.openSegments c dir bases st) Q w)
    (hbig : ¬ IndexesFit w → ∀ msg st, Q (.error (.corrupted msg), st) w)
    (rest done : List Segment) (hsplit : done ++ rest = w.ghost.live)
    (hfit : ∀ s ∈ done, 8 * s.entries.length ≤ maxIndexBytes) {st : OpenState}
    (hl : Loaded c st done) :
    Safe (setting c m) (SegmentLog.openSegments c dir (rest.map Segment.base ++ bases) st) Q w := by
  induction rest generalizing done st with
  | nil =>
    rw [List.append_nil] at hsplit
    subst hsplit
    exact hrest hfit st hl
  | cons s rest ih =>
    have hs : s ∈ w.ghost.live := by simp [← hsplit]
    rw [List.map_cons, List.cons_append, SegmentLog.openSegments]
    refine Safe.bindP (safe_idxExists hm ?_)
    rw [h.idx s hs]
    refine Safe.bindP (hl.openClosed hm h hs dir (fun st' hlimit hl' => ?_) fun hlt msg => ?_)
    · refine ih (done ++ [s]) (by simp [hsplit]) (fun t ht => ?_) hl'
      rcases List.mem_append.mp ht with ht | ht
      · exact hfit t ht
      · exact (List.mem_singleton.mp ht) ▸ hlimit
    · exact hbig (fun hall => absurd (hall s hs) (by omega)) msg st

theorem Chained.stop_getLast? {n : ℕ} {xs : List Segment} (h : Chained n xs) {s : Segment}
    (hs : xs.getLast? = some s) : s.stop = n + (xs.flatMap Segment.entries).length := by
  obtain ⟨ys, rfl⟩ := List.getLast?_eq_some_iff.mp hs
  rw [chained_append] at h
  rw [Segment.stop, h.2.1]
  simp [Nat.add_assoc]

theorem Ghost.live_getLast? {g : Ghost} (h : g.live ≠ []) :
    g.live.getLast? = g.closed.getLast? := by
  rw [Ghost.live, List.getLast?_drop, if_neg]
  intro hle
  exact h (List.drop_eq_nil_iff.mpr hle)

/-- The watermark of a directory without segments is its number of entries. -/
theorem Good.readWatermark (h : Good c w) (hm : m.Calm) (hl : w.ghost.live = [])
    (ht : w.ghost.tail = none) {σ : Type} {st : σ}
    {Q : Except StorageError (Option ℕ) × σ → World → Prop}
    (hQ : ∀ r, (∀ n, r = some n → n = w.ghost.total.length) → (r = none → w.ghost.total = []) →
      Q (.ok r, st) w) : Safe (setting c m) (SegmentLog.readWatermark st) Q w := by
  have hcount := h.ok.count
  have htotal : w.ghost.closedCount = w.ghost.total.length := by
    simp [Ghost.closedCount, Ghost.total_eq, ht]
  unfold SegmentLog.readWatermark
  refine Safe.bindP (Safe.lift (safe_openRead hm (fun i hi => ?_) fun hnone => ?_))
  · have hd : w.disk.data i = le 8 w.ghost.total.length := by
      by_cases h0 : w.ghost.total = []
      · obtain ⟨n, hn, hd⟩ := h.watermark i hi
        rw [htotal, h0] at hn
        rw [hd, h0]
        simp at hn
        rw [hn]
        rfl
      · obtain ⟨j, hj, hd⟩ := h.evicted hl ht h0
        obtain rfl : i = j := Option.some.inj (hi.symm.trans hj)
        exact hd
    refine Safe.bindP (Safe.on (Safe.attempt (safe_readExact hm (fun _ => ?_) fun hlt => ?_)))
    · refine hQ _ (fun n hn => ?_) (by simp)
      rw [hd, List.drop_zero, List.take_of_length_le (by simp), ofLe_le hcount] at hn
      exact (Option.some.inj hn).symm
    · rw [hd] at hlt
      simp at hlt
  · refine hQ none (by simp) fun _ => ?_
    by_contra h0
    obtain ⟨j, hj, -⟩ := h.evicted hl ht h0
    rw [hnone] at hj
    cases hj

/-- `SegmentLog::open` on a directory the log has left behind. The log agrees with
the directory it leaves, also where readers are going to follow. -/
theorem Good.openDir_any (h : Good c w) (hm : m.Calm) (hU : m.allowed w.ghost.total)
    (config : SegmentLogConfig) {Q : Except StorageError Log → World → Prop}
    (hQ : IndexesFit w → ∀ l w', (∀ m', Rep c m' l w') → l.config = config →
      l.poisoned = false → w'.ghost.total = w.ghost.total → w'.ghost.closed = w.ghost.closed →
      w'.ghost.dropped = w.ghost.dropped → Q (.ok l) w')
    (hbig : ¬ IndexesFit w → ∀ msg, Q (.error (.corrupted msg)) w) :
    Safe (setting c m) (SegmentLog.openDir c config) Q w := by
  unfold SegmentLog.openDir
  refine Safe.bind ?_
  unfold openLog
  refine Safe.bindP (Safe.mapError (Safe.liftE (quiet_setting.opStay fun r d' hs => ?_)))
  obtain ⟨rfl, rfl | ⟨hf, -⟩⟩ := hs
  swap
  · exact absurd hf (hm.never _)
  refine ⟨rfl, Safe.bindP (Safe.mapError (Safe.liftE (quiet_setting.opStay fun r d' hs => ?_)))⟩
  obtain ⟨rfl, ⟨slots, rfl, hperm, hfresh⟩ | ⟨hf, -⟩⟩ := hs
  swap
  · exact absurd hf (hm.never _)
  refine ⟨rfl, Safe.bindP (safe_scanDir quiet_setting (fun x hx => ?_) hfresh ?_
    fun _ hf => absurd hf (hm.never _))⟩
  · refine (w.disk.mem_keys x).mp (hperm.mem_iff.mp ?_)
    exact List.mem_filterMap.mpr ⟨_, hx, rfl⟩
  dsimp only
  rw [h.sorted_bases hperm, Ghost.linked, List.map_append]
  have hnil : Loaded c ⟨[], none, 0⟩ [] := ⟨.nil, rfl, rfl⟩
  refine Safe.bindP (hnil.openSegments hm h config.dir (fun hfit st hl => ?_)
    (fun hno msg _ => hbig hno msg) _ _ rfl (by simp))
  cases ht : w.ghost.tail with
  | none =>
    have htotal : w.ghost.total = w.ghost.closed.flatMap Segment.entries := by
      simp [Ghost.total_eq, ht]
    have hrep : ∀ n, n = w.ghost.total.length →
        ∀ m', Rep c m' ⟨config, st.closed, st.active, n, false⟩ w := fun n hn m' =>
      ⟨h, hl.closed, hn.le, fun _ => hn, fun _ => ⟨hn, by simp [ht]⟩, by simp [hl.active]⟩
    have hfin := fun n hn => hQ hfit _ w (hrep n hn) rfl rfl rfl rfl rfl
    refine Safe.getP ?_
    by_cases hlive : w.ghost.live = []
    · have hclosed : st.closed = [] := by
        have := hl.closed
        rw [hlive] at this
        exact List.forall₂_nil_right_iff.mp this
      have hzero : st.nextOffset = 0 := by
        rw [hl.next, hlive]
        rfl
      rw [if_pos ⟨hzero, hclosed, hl.active⟩]
      refine Safe.bindP (h.readWatermark hm hlive ht fun r hsome hnone => ?_)
      cases r with
      | some n => exact hfin n (hsome n rfl)
      | none =>
        refine hfin _ ?_
        rw [hzero, hnone rfl]
        rfl
    · have hnext : st.nextOffset = w.ghost.total.length := by
        have hs := List.getLast?_eq_some_getLast hlive
        generalize w.ghost.live.getLast hlive = s at hs
        have hc := h.ok.chained
        rw [Ghost.segments, ht, Option.toList_none, List.append_nil] at hc
        rw [hl.next, hs]
        rw [Ghost.live_getLast? hlive] at hs
        rw [Option.map_some, Option.getD_some, hc.stop_getLast? hs, htotal, Nat.zero_add]
      have hne : st.closed ≠ [] := by
        intro h0
        have := hl.closed
        rw [h0] at this
        exact hlive (List.forall₂_nil_left_iff.mp this)
      rw [if_neg (by simp [hne])]
      exact hfin _ hnext
  | some s =>
    have hnone := h.idx_tail ht
    refine Safe.bindP (safe_idxExists hm ?_)
    rw [hnone]
    refine Safe.bindP (hl.openActive hm h ht hU fun w' s' a hr hat hact => ?_)
    refine Safe.getP ?_
    rw [if_neg (by simp)]
    have hnext : s'.stop = w'.ghost.total.length := hat.base
    refine hQ hfit _ w' (fun m' => ⟨hat.good, ?_, hnext.le, fun _ => hnext, by simp, ?_⟩) rfl rfl
      (hr.total ht) ?_ ?_
    · rw [hr.ghost]
      exact hl.closed
    · intro b hb
      obtain rfl := Option.some.inj hb
      have hat' : AtTail c m' w' s' [] := ⟨hat.good, hat.tail, hat.data, hat.short, fun _ => rfl⟩
      refine ⟨s', [], hat', Nat.le_add_right _ _, ?_⟩
      rw [Segment.stop, Nat.add_sub_cancel_left, Segment.cut_length]
      exact hact
    · rw [hr.ghost]
    · rw [hr.ghost]

theorem Good.openDir (h : Good c w) (hm : m.Calm) (hU : m.allowed w.ghost.total)
    (config : SegmentLogConfig) {Q : Except StorageError Log → World → Prop}
    (hQ : IndexesFit w → ∀ l w', Rep c m l w' → l.config = config → l.poisoned = false →
      w'.ghost.total = w.ghost.total → w'.ghost.closed = w.ghost.closed →
      w'.ghost.dropped = w.ghost.dropped → Q (.ok l) w')
    (hbig : ¬ IndexesFit w → ∀ msg, Q (.error (.corrupted msg)) w) :
    Safe (setting c m) (SegmentLog.openDir c config) Q w :=
  h.openDir_any hm hU config (fun hfit l w' hrep => hQ hfit l w' (hrep m)) hbig

end OpenDir

end OtkCore.SegmentLog
