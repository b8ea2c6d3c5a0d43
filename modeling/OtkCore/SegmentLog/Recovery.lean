import OtkCore.SegmentLog.Records

/-!
# Recovery of a segment

The scan of an unindexed segment keeps the longest chain of records that follow
each other from the header on with consecutive offsets, and cuts the file
behind it, whatever the bytes are.
-/
namespace OtkCore.SegmentLog

open Effect FileIO Bytes

/-- What may stand behind the records: nothing, an end mark, or a torn record. -/
def Remainder (c : Codec) (tail : List UInt8) : Prop :=
  tail = [] ∨ sentinel <+: tail ∨
    ∃ e, EntryOk c e ∧ tail <+: recordBytes c e ∧ tail ≠ recordBytes c e

theorem Remainder.not_read {tail : List UInt8} (h : Remainder c tail) (pos : ℕ) (e : LogEntry)
    (m : ℕ) : (recordParser c pos).parse tail ≠ some (.ok e, m) := by
  rcases h with rfl | ⟨rest, rfl⟩ | ⟨e', he', hpre, hne⟩
  · rw [parse_short c pos (by simp)]
    simp
  · rw [parse_sentinel]
    simp
  · have hlt : tail.length < (recordBytes c e').length :=
      lt_of_le_of_ne hpre.length_le fun hlen => hne (hpre.eq_of_length hlen)
    rw [parse_torn c he' pos hpre hlt]
    simp

variable {fails : Op FileName → Prop} {d : Disk FileName}

theorem safe_cutAt {pos : ℕ} {f : File}
    {Q : Except StorageError Unit × File → Disk FileName → Prop}
    (hok : Q (.ok (), ⟨f.ino, pos⟩) (d.setData f.ino (resize (d.data f.ino) pos)))
    (hfail : (∃ o, fails o) → ∀ k f' d', Q (.error (.io k), f') d') :
    Safe (bare fails) (cutAt pos f) Q d := by
  refine Safe.bindP (Safe.mapError (safe_bare fun r d' hs => ?_))
  obtain ⟨rfl, rfl⟩ | ⟨hf, rfl, rfl⟩ := hs
  · exact Safe.mapError (quiet_bare.seek hok fun hf => hfail ⟨_, hf⟩ _ _ _)
  · exact hfail ⟨_, hf⟩ _ _ _

/-- What recovery does: the longest chain of records from the header on, and the
file cut behind it. -/
theorem safe_recoverActive {base ino p : ℕ}
    {Q : Except StorageError (List ℕ × ℕ × ℕ) × File → Disk FileName → Prop}
    (hheader : headerLen ≤ (d.data ino).length) (hlen : (d.data ino).length < 2 ^ 64)
    (hok : ∀ positions stop q, RecordChain c (d.data ino) base headerLen positions stop →
      ChainEnd c (d.data ino) (base + positions.length) stop →
      Q (.ok (positions, stop, positions.length), ⟨ino, q⟩)
        (d.setData ino ((d.data ino).take stop)))
    (hover : ∀ positions stop e m msg f',
      RecordChain c (d.data ino) base headerLen positions stop →
      (recordParser c stop).parse ((d.data ino).drop stop) = some (.ok e, m) →
      2 ^ 64 ≤ base + positions.length → Q (.error (.corrupted msg), f') d)
    (hfail : (∃ o, fails o) → ∀ k f' d', Q (.error (.io k), f') d') :
    Safe (bare fails) (recoverActive c base ⟨ino, p⟩) Q d := by
  refine Safe.bindP (Safe.mapError (quiet_bare.len ?_ fun hf => hfail ⟨_, hf⟩ _ _ _))
  refine Safe.bindP (quiet_recoverLoop quiet_bare (d.data ino) rfl (Nat.add_zero base) hheader
    (Nat.lt_add_left _ (Nat.lt_succ_self _)) (by decide) (fun more q hmore _ => ?_)
    (fun more stop hmore hend _ q => ?_)
    (fun more stop e m hmore hread hwide msg q => hover more stop e m msg _ hmore hread hwide)
    (fun more stop e m hmore hread _ _ hwide => ?_) fun hf k q => hfail hf k _ _)
  · have hq : Q (.ok (more, (d.data ino).length, more.length), ⟨ino, q⟩)
        (d.setData ino ((d.data ino).take (d.data ino).length)) :=
      hok more _ q hmore (chainEnd_length _)
    rw [List.take_length, Disk.setData_data] at hq
    exact hq
  · have hstop : stop ≤ (d.data ino).length := hmore.le_length hheader
    have hq := hok more stop stop hmore hend
    rw [← resize_le hstop] at hq
    exact Safe.bindP (safe_cutAt hq hfail)
  · -- The file is too short for that.
    have hstop : stop ≤ (d.data ino).length := hmore.le_length hheader
    have hfit : m ≤ ((d.data ino).drop stop).length := Parser.parse_consumed_le hread
    rw [List.length_drop] at hfit
    omega

theorem free_recoverActive (base : ℕ) : Free fails (recoverActive c base) :=
  ((Free.len).mapError _).bind fun _ => (free_recoverLoop _ _ _ _ _).bind fun _ => .pure _

theorem recoverActive_of_chain {base ino p stop : ℕ} {positions : List ℕ} {d' : Disk FileName}
    {r : Except StorageError (List ℕ × ℕ × ℕ)} {f' : File}
    (hheader : headerLen ≤ (d.data ino).length) (hlen : (d.data ino).length < 2 ^ 64)
    (hchain : RecordChain c (d.data ino) base headerLen positions stop)
    (hnone : ∀ e m, (recordParser c stop).parse ((d.data ino).drop stop) ≠ some (.ok e, m))
    (hx : Finishes (Step NoFail) d (recoverActive c base ⟨ino, p⟩) d' (r, f')) :
    r = .ok (positions, stop, positions.length) ∧
      d' = d.setData ino ((d.data ino).take stop) := by
  refine finishes_bare hx (safe_recoverActive (Q := fun x w =>
    x.1 = .ok (positions, stop, positions.length) ∧
      w = d.setData ino ((d.data ino).take stop)) hheader hlen ?_ ?_ ?_)
  · intro positions' stop' q hchain' hend'
    obtain ⟨rfl, rfl⟩ := hchain.unique (fun e m he => absurd he (hnone e m)) hchain' hend'
    exact ⟨rfl, rfl⟩
  · intro positions' stop' e m msg f'' hchain' hread hwide
    have hlt := hchain.expected_lt hnone hchain' hread
    omega
  · rintro ⟨o, ho⟩
    exact absurd ho (by simp [NoFail])

theorem recoverActive_outcome {base ino p : ℕ} {d' : Disk FileName}
    {r : Except StorageError (List ℕ × ℕ × ℕ)} {f' : File}
    (hheader : headerLen ≤ (d.data ino).length) (hlen : (d.data ino).length < 2 ^ 64)
    (hx : Finishes (Step fails) d (recoverActive c base ⟨ino, p⟩) d' (r, f')) :
    (∃ positions stop, r = .ok (positions, stop, positions.length) ∧
      RecordChain c (d.data ino) base headerLen positions stop ∧
      ChainEnd c (d.data ino) (base + positions.length) stop ∧
      d' = d.setData ino ((d.data ino).take stop)) ∨
    (∃ positions stop msg, r = .error (.corrupted msg) ∧
      RecordChain c (d.data ino) base headerLen positions stop ∧
      2 ^ 64 ≤ base + positions.length) ∨
    ∃ k o, r = .error (.io k) ∧ fails o := by
  refine finishes_bare hx (safe_recoverActive (Q := fun x w =>
    (∃ positions stop, x.1 = .ok (positions, stop, positions.length) ∧
      RecordChain c (d.data ino) base headerLen positions stop ∧
      ChainEnd c (d.data ino) (base + positions.length) stop ∧
      w = d.setData ino ((d.data ino).take stop)) ∨
    (∃ positions stop msg, x.1 = .error (.corrupted msg) ∧
      RecordChain c (d.data ino) base headerLen positions stop ∧
      2 ^ 64 ≤ base + positions.length) ∨
    ∃ k o, x.1 = .error (.io k) ∧ fails o) hheader hlen ?_ ?_ ?_)
  · exact fun positions stop q hchain hend =>
      Or.inl ⟨positions, stop, rfl, hchain, hend, rfl⟩
  · exact fun positions stop e m msg f'' hchain _ hwide =>
      Or.inr (Or.inl ⟨positions, stop, msg, rfl, hchain, hwide⟩)
  · rintro ⟨o, ho⟩ k f'' d''
    exact Or.inr (Or.inr ⟨k, o, rfl, ho⟩)

theorem recoverActive_again {base ino q stop : ℕ} {positions : List ℕ} {d'' : Disk FileName}
    {r : Except StorageError (List ℕ × ℕ × ℕ)} {f' : File}
    (hlen : (d.data ino).length < 2 ^ 64) (hstop : stop ≤ (d.data ino).length)
    (hchain : RecordChain c (d.data ino) base headerLen positions stop)
    (hx : Finishes (Step NoFail) (d.setData ino ((d.data ino).take stop))
      (recoverActive c base ⟨ino, q⟩) d'' (r, f')) :
    r = .ok (positions, stop, positions.length) ∧
      d'' = d.setData ino ((d.data ino).take stop) := by
  have hcut : (d.setData ino ((d.data ino).take stop)).data ino = (d.data ino).take stop := by
    simp
  have hsize : ((d.data ino).take stop).length = stop := by
    rw [List.length_take]
    omega
  have hall : r = .ok (positions, stop, positions.length) ∧ d'' =
      (d.setData ino ((d.data ino).take stop)).setData ino
        (((d.setData ino ((d.data ino).take stop)).data ino).take stop) := recoverActive_of_chain
    (by rw [hcut, hsize]; exact hchain.le_stop) (by rw [hcut]; omega)
    (by rw [hcut]; exact hchain.take) (fun e m h => by
      rw [hcut, List.drop_eq_nil_of_le hsize.le, parse_short c _ (by simp)] at h
      cases h) hx
  obtain ⟨rfl, rfl⟩ := hall
  have hsame : ((d.data ino).take stop).take stop = (d.data ino).take stop := by
    rw [List.take_take, min_self]
  refine ⟨rfl, ?_⟩
  rw [hcut, hsame]
  simp [Disk.setData]

/-- Recovery of a file with any bytes behind its header ends; it keeps the
longest chain of records with consecutive offsets and nothing else, and a second
run finds the same. Failures of the file system aside, only an offset beyond 64
bits makes it fail. Written records are all kept, and no rest behind them. -/
theorem recoverActive_longest (c : Codec) (base : ℕ) (d : Disk FileName) (ino p : ℕ)
    (hheader : headerLen ≤ (d.data ino).length) (hlen : (d.data ino).length < 2 ^ 64) :
    (∀ fails, ∃ d' x, Finishes (Step fails) d (recoverActive c base ⟨ino, p⟩) d' x) ∧
    (∀ fails d' r f', Finishes (Step fails) d (recoverActive c base ⟨ino, p⟩) d' (r, f') →
      (∀ positions stop count, r = .ok (positions, stop, count) →
        RecordChain c (d.data ino) base headerLen positions stop ∧ count = positions.length ∧
        (∀ positions' stop', RecordChain c (d.data ino) base headerLen positions' stop' →
          positions' <+: positions) ∧
        stop ≤ (d.data ino).length ∧ d' = d.setData ino ((d.data ino).take stop) ∧
        ∀ q d'' r' f'', Finishes (Step NoFail) d' (recoverActive c base ⟨ino, q⟩) d'' (r', f'') →
          r' = r ∧ d'' = d') ∧
      ∀ err, r = .error err → (∃ k o, err = .io k ∧ fails o) ∨
        ∃ positions stop, RecordChain c (d.data ino) base headerLen positions stop ∧
          2 ^ 64 ≤ base + positions.length) ∧
    ∀ es tail, (d.data ino).drop headerLen = recordsBytes c es ++ tail →
      (∀ e ∈ es, EntryOk c e) → Numbered base es → Remainder c tail →
      ∀ d' r f', Finishes (Step NoFail) d (recoverActive c base ⟨ino, p⟩) d' (r, f') →
        r = .ok (positionsFrom c headerLen es, headerLen + (recordsBytes c es).length,
          es.length) ∧
        d' = d.setData ino ((d.data ino).take (headerLen + (recordsBytes c es).length)) := by
  refine ⟨fun fails => ?_, fun fails d' r f' hx => ?_,
    fun es tail hdata hes hnum htail d' r f' hx => ?_⟩
  · obtain ⟨d', x, hx, -⟩ := (free_recoverActive (c := c) base ⟨ino, p⟩).finishes d
    exact ⟨d', x, hx⟩
  · rcases recoverActive_outcome hheader hlen hx with ⟨positions, stop, rfl, hchain, hend, rfl⟩ |
      ⟨positions, stop, msg, rfl, hchain, hwide⟩ | ⟨k, o, rfl, ho⟩
    · refine ⟨fun positions' stop' count heq => ?_, fun err herr => by cases herr⟩
      obtain ⟨rfl, hrest⟩ := Prod.mk.inj (Except.ok.inj heq)
      obtain ⟨rfl, rfl⟩ := Prod.mk.inj hrest
      have hstop := hchain.le_length hheader
      refine ⟨hchain, rfl, fun positions' stop' hchain' => ?_, hstop, rfl, ?_⟩
      · obtain ⟨more, rfl, -⟩ := hchain'.compare hchain hend
        exact List.prefix_append _ _
      · exact fun q d'' r' f'' hx' => recoverActive_again hlen hstop hchain hx'
    · exact ⟨fun _ _ _ h => (by cases h), fun _ _ => Or.inr ⟨positions, stop, hchain, hwide⟩⟩
    · refine ⟨fun _ _ _ h => (by cases h), fun err herr => Or.inl ⟨k, o, ?_, ho⟩⟩
      exact (Except.error.inj herr).symm
  · have hchain := recordChain_of_entries hes hnum hdata
    have hrest : (d.data ino).drop (headerLen + (recordsBytes c es).length) = tail := by
      rw [← List.drop_drop, hdata, List.drop_left]
    have hall := recoverActive_of_chain hheader hlen hchain
      (fun e m => by rw [hrest]; exact htail.not_read _ e m) hx
    rwa [length_positionsFrom] at hall

/-- A segment with one record, an end mark and bytes behind it. -/
def markedSegment : List UInt8 :=
  SegmentHeader.bytes ⟨7, 0⟩ ++ (recordBytes sampleCodec ⟨7, 0, "p", sampleHealth⟩ ++
    (sentinel ++ [1, 2]))

def markedDisk : Disk FileName := (Disk.empty.create (.seg 7)).setData 0 markedSegment

theorem recoverActive_longest_sample : ∃ d' f', Finishes (Step NoFail) markedDisk
      (recoverActive sampleCodec 7 ⟨0, 0⟩) d'
      (.ok ([24], 24 + (recordBytes sampleCodec ⟨7, 0, "p", sampleHealth⟩).length, 1), f') := by
  have hdata : markedDisk.data 0 = markedSegment := by simp [markedDisk]
  have hes : ∀ e ∈ [(⟨7, 0, "p", sampleHealth⟩ : LogEntry)], EntryOk sampleCodec e := by
    simp only [List.mem_singleton, forall_eq]
    exact ⟨by decide, by decide, by decide, by decide, by decide, by simp [sampleCodec]⟩
  obtain ⟨hends, -, hrecords⟩ := recoverActive_longest sampleCodec 7 markedDisk 0 0
    (by rw [hdata]; decide +kernel) (by rw [hdata]; decide +kernel)
  obtain ⟨d', ⟨r, f'⟩, hx⟩ := hends NoFail
  obtain ⟨rfl, -⟩ := hrecords _ (sentinel ++ [1, 2]) (by
    rw [hdata, markedSegment, List.drop_left' (by decide), recordsBytes_cons, recordsBytes_nil,
      List.append_nil]) hes (by simp [numbered_cons, numbered_nil])
    (Or.inr (Or.inl (List.prefix_append _ _))) d' r f' hx
  refine ⟨d', f', ?_⟩
  rwa [recordsBytes_cons, recordsBytes_nil, List.append_nil] at hx

end OtkCore.SegmentLog
