import OtkCore.SegmentLog.Following
import OtkCore.SegmentLog.AnyDirectory
import OtkCore.SegmentLog.Recovery
import OtkCore.Lib.Looping

/-!
# Rounds in an unchanged directory

The loop of `next_entry` while nobody writes. Whatever the directory holds, one
round does what `again` computes from it: it skips a record below the next
offset, or it finds a sentinel and reopens, or it leaves the loop. Skipping moves
on in a file, so the loop stays only if it comes from a sentinel to a sentinel.
-/
namespace OtkCore.SegmentLog.Subscription

open Effect FileIO Bytes Looping

section Directory

variable (c : Codec) (d : Disk FileName)

/-- The segment that should contain offset `n`. -/
def bestBase (n : ℕ) : Option ℕ :=
  ((d.dir.keys.filterMap FileName.segBase?).filter (· ≤ n)).max?

/-- The content of an index file that can be read. -/
def indexOf (bytes : List UInt8) : Option (List ℕ) :=
  if bytes.length > maxIndexBytes ∨ bytes.length % 8 ≠ 0 then none else some (chunks8 bytes)

/-- The position behind `k` readable records. -/
def behind (bytes : List UInt8) : ℕ → ℕ → Option ℕ
  | 0, pos => some pos
  | k + 1, pos =>
    match (recordParser c pos).parse (bytes.drop pos) with
    | some (.ok _, m) => behind bytes k (pos + m)
    | _ => none

/-- The file, position and activity that `open_to_offset` finds for offset `n`. -/
def placeOf (n : ℕ) : Option (ℕ × ℕ × Bool) := do
  let base ← bestBase d n
  let ino ← d.find (.seg base)
  match d.find (.idx base) with
  | some j => do
    let positions ← indexOf (d.data j)
    let pos ← positions[n - base]?
    some (ino, pos, false)
  | none => do
    let pos ← behind c (d.data ino) (n - base) headerLen
    some (ino, pos, true)

def place (s : Subscription) : Option (ℕ × ℕ × Bool) :=
  match s.currentFile with
  | some (file, pos, active) => some (file.ino, pos, active)
  | none => placeOf c d s.nextOffset

/-- The subscription behind a sentinel: at the start of the segment that is named
after the next offset, or with no file. -/
def reopened (s : Subscription) : Subscription :=
  { s with currentFile := (d.find (.seg s.nextOffset)).map fun ino =>
      (⟨ino, 0⟩, headerLen, (d.find (.idx s.nextOffset)).isNone) }

/-- The next state of the loop, when it reads on at a place and does not leave. -/
def againAt (s : Subscription) (at_ : ℕ × ℕ × Bool) : Option Subscription :=
  match (recordParser c at_.2.1).parse ((d.data at_.1).drop at_.2.1) with
  | some (.ok e, m) =>
    if e.offset < s.nextOffset ∧ at_.2.2 = true then
      some { s with currentFile := some (⟨at_.1, at_.2.1 + m⟩, at_.2.1 + m, at_.2.2) }
    else none
  | some (.error (.corrupted msg), _) => if msg = sentinelMsg then some (reopened d s) else none
  | _ => none

/-- What one more round makes of a subscription, unless the loop is left. -/
def again (s : Subscription) : Option Subscription := (place c d s).bind (againAt c d s)

end Directory

variable {c : Codec} {d : Disk FileName} {fails : Op FileName → Prop}

theorem Shows.bestBase_eq {n : ℕ} {seen : List ℕ} {found : Option ℕ × Option ℕ}
    (h : Shows n seen found) (hseen : ∀ b, b ∈ seen ↔ (d.find (.seg b)).isSome = true) :
    found.1 = bestBase d n := by
  have hmem : ∀ b, b ∈ (d.dir.keys.filterMap FileName.segBase?).filter (· ≤ n) ↔
      b ∈ seen ∧ b ≤ n := by
    intro b
    rw [List.mem_filter, List.mem_filterMap, hseen, ← Disk.mem_keys]
    simp only [decide_eq_true_eq, and_congr_left_iff]
    intro _
    constructor
    · rintro ⟨x, hx, hb⟩
      rwa [segBase?_eq_some hb] at hx
    · exact fun hx => ⟨_, hx, rfl⟩
  unfold bestBase
  cases hfound : found.1 with
  | none =>
    symm
    rw [List.max?_eq_none_iff, List.eq_nil_iff_forall_not_mem]
    intro b hb
    obtain ⟨hb, hle⟩ := (hmem b).mp hb
    obtain ⟨m, hm, -⟩ := h.greatest b hb hle
    rw [hfound] at hm
    cases hm
  | some best =>
    symm
    rw [List.max?_eq_some_iff]
    refine ⟨(hmem best).mpr (h.best best hfound), fun b hb => ?_⟩
    obtain ⟨hb, hle⟩ := (hmem b).mp hb
    obtain ⟨m, hm, hbm⟩ := h.greatest b hb hle
    obtain rfl := Option.some.inj (hfound.symm.trans hm)
    exact hbm

section Open

variable {σ : Type} {st : σ} {n : ℕ}

theorem safe_scanEntries_still
    {Q : Except StorageError (Option ℕ × Option ℕ) × σ → Disk FileName → Prop}
    (hok : ∀ found, found.1 = bestBase d n → Q (.ok found, st) d)
    (herr : (∃ o, fails o) → ∀ k, Q (.error (.io k), st) d) {slots : List (Slot FileName)}
    (hknown : ∀ x, .known x ∈ slots → (d.find x).isSome = true)
    (hfresh : ∀ present, .fresh present ∈ slots → present = d.dir.keys) {seen : List ℕ}
    {found : Option ℕ × Option ℕ} (hshows : Shows n seen found)
    (hseen : ∀ b, b ∈ seen ∨ .known (.seg b) ∈ slots ↔ (d.find (.seg b)).isSome = true) :
    Safe (bare fails) (scanEntries n slots found st) Q d := by
  induction slots generalizing seen found with
  | nil => exact hok found (hshows.bestBase_eq (by simpa using hseen))
  | cons slot rest ih =>
    have hrest : ∀ {seen found}, Shows n seen found →
        (∀ b, b ∈ seen ∨ .known (.seg b) ∈ rest ↔ (d.find (.seg b)).isSome = true) →
        Safe (bare fails) (scanEntries n rest found st) Q d :=
      fun h h' => ih (fun x hx => hknown x (List.mem_cons_of_mem _ hx))
        (fun p hp => hfresh p (List.mem_cons_of_mem _ hp)) h h'
    rw [scanEntries]
    refine Safe.bindP (Safe.mapError (Safe.liftE (safe_bare fun r d' hs => ?_)))
    cases slot with
    | known x =>
      have hlinked := hknown x List.mem_cons_self
      obtain ⟨rfl, rfl | ⟨hnone, -⟩ | ⟨hf, rfl⟩⟩ := hs
      · change Safe _ (scanEntries n rest (x.segBase?.elim found (scanEntry n found)) st) Q _
        cases hb : x.segBase? with
        | none =>
          refine hrest hshows fun b => ?_
          rw [← hseen b, List.mem_cons]
          constructor
          · exact Or.imp_right .inr
          · rintro (hb' | heq | hb')
            · exact .inl hb'
            · obtain rfl := Slot.known.inj heq
              cases hb
            · exact .inr hb'
        | some base =>
          obtain rfl := segBase?_eq_some hb
          refine hrest (hshows.entry base) fun b => ?_
          rw [← hseen b, List.mem_cons, List.mem_cons]
          constructor
          · rintro ((rfl | hb') | hb')
            · exact .inr (.inl rfl)
            · exact .inl hb'
            · exact .inr (.inr hb')
          · rintro (hb' | heq | hb')
            · exact .inl (.inr hb')
            · exact .inl (.inl (FileName.seg.inj (Slot.known.inj heq)))
            · exact .inr hb'
      · rw [hnone] at hlinked
        cases hlinked
      · exact herr ⟨_, hf⟩ _
    | fresh present =>
      have hpresent := hfresh present List.mem_cons_self
      obtain ⟨rfl, rfl | ⟨x, hx, hlinked, -⟩ | ⟨hf, rfl⟩⟩ := hs
      · refine hrest hshows fun b => ?_
        rw [← hseen b, List.mem_cons]
        simp
      · rw [hpresent] at hx
        exact absurd ((Disk.mem_keys _ x).mpr hlinked) hx
      · exact herr ⟨_, hf⟩ _

theorem safe_scanSegments_still
    {Q : Except StorageError (Option ℕ × Option ℕ) × σ → Disk FileName → Prop}
    (hok : ∀ found, found.1 = bestBase d n → Q (.ok found, st) d)
    (herr : (∃ o, fails o) → ∀ k, Q (.error (.io k), st) d) :
    Safe (bare fails) (scanSegments n st) Q d := by
  refine Safe.bindP (Safe.mapError (Safe.liftE (safe_bare fun r d' hs => ?_)))
  obtain ⟨rfl, ⟨slots, rfl, hperm, hfresh⟩ | ⟨hf, rfl⟩⟩ := hs
  · have hmem : ∀ x, .known x ∈ slots ↔ (d'.find x).isSome = true := fun x => by
      rw [← mem_knownNames, hperm.mem_iff, Disk.mem_keys]
    exact safe_scanEntries_still hok herr (fun x hx => (hmem x).mp hx) hfresh (Shows.nil n)
      fun b => by simp [hmem]
  · exact herr ⟨_, hf⟩ _

/-- What opening at offset `n` answers: the place, or a file in which no record
can be read on, or nothing. -/
def Located (c : Codec) (d : Disk FileName) (fails : Op FileName → Prop) (n : ℕ) :
    Except StorageError Opened → Prop
  | .ok (some (file, pos, active)) => placeOf c d n = some (file.ino, pos, active) ∨
      placeOf c d n = none ∧ ∀ (s : Subscription) active, againAt c d s (file.ino, pos, active) = none
  | _ => placeOf c d n = none ∨ ∃ o, fails o

variable {Q : Except StorageError Opened × σ → Disk FileName → Prop}

theorem safe_idxExists_still {base : ℕ} {Q : Except StorageError Bool × σ → Disk FileName → Prop}
    (hok : Q (.ok (d.find (.idx base)).isSome, st) d)
    (herr : (∃ o, fails o) → Q (.error (.io .other), st) d) :
    Safe (bare fails) (idxExists base st) Q d := by
  refine Safe.bindP (Safe.lift (quiet_bare.stat (fun i hi => ?_) (fun hnone => ?_)
    fun hf => herr ⟨_, hf⟩))
  · rw [show d.find (.idx base) = some i from hi] at hok
    exact hok
  · rw [show d.find (.idx base) = none from hnone] at hok
    exact hok

theorem safe_readIndex_still {base j : ℕ} (hidx : d.find (.idx base) = some j) (dir : String)
    {Q : Except StorageError (List ℕ) × σ → Disk FileName → Prop}
    (hok : ∀ positions, indexOf (d.data j) = some positions → Q (.ok positions, st) d)
    (herr : indexOf (d.data j) = none ∨ (∃ o, fails o) → ∀ err, err ≠ .io .notFound →
      Q (.error err, st) d) :
    Safe (bare fails) (readIndex dir base st) Q d := by
  refine safe_readIndex_at hidx dir (fun hle hmod => ?_) (fun hbad msg => ?_) fun hf => ?_
  · exact hok _ (if_neg (by omega))
  · exact herr (.inl (if_pos hbad)) _ (by simp)
  · exact herr (.inr hf) _ (by simp)

theorem safe_seekTo_still (hQ : ∀ r, Located c d fails n r → Q (r, st) d) {file : File} {pos : ℕ}
    {active : Bool} (h : Located c d fails n (.ok (some (file, pos, active)))) :
    Safe (bare fails) (seekTo file pos active st) Q d := by
  refine Safe.bindP (Safe.on (Safe.mapError (quiet_bare.seek ?_
    fun hf => hQ (.error _) (.inr ⟨_, hf⟩))))
  exact hQ (.ok (some (⟨file.ino, pos⟩, pos, active))) h

theorem safe_openIndexed_still (hQ : ∀ r, Located c d fails n r → Q (r, st) d) {base ino j : ℕ}
    (hbest : bestBase d n = some base) (hseg : d.find (.seg base) = some ino)
    (hidx : d.find (.idx base) = some j) (dir : String) :
    Safe (bare fails) (openIndexed dir n base ino st) Q d := by
  have hplace : placeOf c d n = (indexOf (d.data j)).bind fun positions =>
      (positions[n - base]?).bind fun pos => some (ino, pos, false) := by
    simp [placeOf, hbest, hseg, hidx]
  refine Safe.bindP (Safe.attempt (safe_readIndex_still hidx dir (fun positions hpos => ?_)
    fun hwhy err hne => ?_))
  · rw [hpos, Option.bind_some] at hplace
    dsimp only
    cases hat : positions[n - base]? with
    | none => exact hQ (.ok none) (.inl (by rw [hplace, hat, Option.bind_none]))
    | some pos =>
      rw [hat, Option.bind_some] at hplace
      exact safe_seekTo_still hQ (.inl hplace)
  · have hnone : Located c d fails n (.error err) := by
      rcases hwhy with hindex | hf
      · exact .inl (by rw [hplace, hindex, Option.bind_none])
      · exact .inr hf
    cases err with
    | io k =>
      cases k with
      | notFound => exact absurd rfl hne
      | _ => exact hQ _ hnone
    | _ => exact hQ _ hnone

/-- Skipping `k` records ends behind them, or at what is no record. -/
theorem safe_scanRecords_still {ino k pos p : ℕ}
    {Q : Except StorageError Scan × File → Disk FileName → Prop}
    (hreached : ∀ pos' p', behind c (d.data ino) k pos = some pos' →
      Q (.ok (.reached pos'), ⟨ino, p'⟩) d)
    (hended : ∀ pos' p', behind c (d.data ino) k pos = none →
      (∀ s active, againAt c d s (ino, pos', active) = none) → Q (.ok (.ended pos'), ⟨ino, p'⟩) d)
    (hrolled : ∀ p', behind c (d.data ino) k pos = none → Q (.ok .rolled, ⟨ino, p'⟩) d)
    (herr : behind c (d.data ino) k pos = none ∨ (∃ o, fails o) → ∀ err p',
      Q (.error err, ⟨ino, p'⟩) d) :
    Safe (bare fails) (scanRecords c k pos ⟨ino, p⟩) Q d := by
  induction k generalizing pos p with
  | zero => exact hreached pos p rfl
  | succ k ih =>
    rw [scanRecords]
    refine Safe.bindP (Safe.attempt (safe_readRecord_at (fun r m hm => ?_) (fun hm q => ?_)
      fun hf q => herr (.inr hf) _ q))
    · dsimp only at hm ⊢
      cases r with
      | ok e =>
        have hnext : behind c (d.data ino) (k + 1) pos = behind c (d.data ino) k (pos + m) := by
          rw [behind, hm]
        rw [hnext] at hreached hended hrolled herr
        refine Safe.bindP (Safe.mapError (safe_bare fun r d' hs => ?_))
        obtain ⟨rfl, rfl | ⟨hf, rfl⟩⟩ := hs
        · exact ih hreached hended hrolled herr
        · exact herr (.inr ⟨_, hf⟩) _ _
      | error err =>
        have hnone : behind c (d.data ino) (k + 1) pos = none := by rw [behind, hm]
        cases err with
        | corrupted msg =>
          dsimp only
          split_ifs with hmsg
          · exact hrolled _ hnone
          · exact herr (.inl hnone) _ _
        | io kind =>
          have hleft : ∀ s active, againAt c d s (ino, pos, active) = none := fun s active => by
            simp [againAt, hm]
          cases kind with
          | unexpectedEof => exact hended _ _ hnone hleft
          | _ => exact herr (.inl hnone) _ _
        | _ => exact herr (.inl hnone) _ _
    · have hnone : behind c (d.data ino) (k + 1) pos = none := by
        dsimp only at hm
        rw [behind, hm]
      refine hended pos q hnone fun s active => ?_
      dsimp only at hm
      simp [againAt, hm]

theorem safe_openUnindexed_still (hQ : ∀ r, Located c d fails n r → Q (r, st) d) {base ino : ℕ}
    (hbest : bestBase d n = some base) (hseg : d.find (.seg base) = some ino)
    (hidx : d.find (.idx base) = none) :
    Safe (bare fails) (openUnindexed c n base ino st) Q d := by
  have hplace : placeOf c d n =
      (behind c (d.data ino) (n - base) headerLen).bind fun pos => some (ino, pos, true) := by
    simp [placeOf, hbest, hseg, hidx]
  refine Safe.bindP (Safe.on (safe_scanRecords_still (fun pos p hpos => ?_)
    (fun pos p hnone hleft => ?_) (fun p hnone => ?_) fun hwhy err p => ?_))
  · rw [hpos, Option.bind_some] at hplace
    exact safe_seekTo_still hQ (.inl hplace)
  · rw [hnone, Option.bind_none] at hplace
    exact safe_seekTo_still hQ (.inr ⟨hplace, hleft⟩)
  · rw [hnone, Option.bind_none] at hplace
    exact hQ (.ok none) (.inl hplace)
  · refine hQ (.error err) (hwhy.imp_left fun hnone => ?_)
    rw [hplace, hnone, Option.bind_none]

theorem safe_openSegment_still (hQ : ∀ r, Located c d fails n r → Q (r, st) d) {base : ℕ}
    (hbest : bestBase d n = some base) (dir : String) :
    Safe (bare fails) (openSegment c dir n base st) Q d := by
  have hlinked : (d.find (.seg base)).isSome = true := by
    have hmem := (List.max?_eq_some_iff.mp hbest).1
    obtain ⟨x, hx, hb⟩ := List.mem_filterMap.mp (List.mem_of_mem_filter hmem)
    rwa [segBase?_eq_some hb, Disk.mem_keys] at hx
  refine Safe.bindP (Safe.lift (quiet_bare.openRead (fun ino hino => ?_) (fun hnone => ?_)
    fun hf => hQ (.error _) (.inr ⟨_, hf⟩)))
  · refine Safe.bindP (safe_idxExists_still ?_ fun hf => hQ (.error _) (.inr hf))
    cases hidx : d.find (.idx base) with
    | some j => exact safe_openIndexed_still hQ hbest hino hidx dir
    | none => exact safe_openUnindexed_still hQ hbest hino hidx
  · rw [show d.find (.seg base) = none from hnone] at hlinked
    cases hlinked

theorem safe_openNothing_still (hQ : ∀ r, Located c d fails n r → Q (r, st) d)
    (hplace : placeOf c d n = none) : Safe (bare fails) (openNothing n st) Q d := by
  refine Safe.bindP (bare_readWatermark (fun mark _ => ?_) fun err _ => hQ (.error err) (.inl hplace))
  cases mark with
  | none => exact hQ (.ok none) (.inl hplace)
  | some mark =>
    dsimp only
    split_ifs
    · exact hQ (.error _) (.inl hplace)
    · exact hQ (.ok none) (.inl hplace)

theorem safe_openToOffset_still (hQ : ∀ r, Located c d fails n r → Q (r, st) d) (dir : String) :
    Safe (bare fails) (openToOffset c dir n st) Q d := by
  refine Safe.bindP (safe_scanSegments_still (fun found hfound => ?_)
    fun hf k => hQ (.error _) (.inr hf))
  obtain ⟨best, least⟩ := found
  dsimp only at hfound
  cases best with
  | some base => exact safe_openSegment_still hQ hfound.symm dir
  | none =>
    have hplace : placeOf c d n = none := by simp [placeOf, ← hfound]
    cases least with
    | some oldest => exact hQ (.error _) (.inl hplace)
    | none => exact safe_openNothing_still hQ hplace

end Open

/-- What a round does to a subscription: it asks for another one exactly if `next`
is a state, and then leads to it; but any operation may fail. -/
structure Turned (fails : Op FileName → Prop) (d : Disk FileName) (next : Option Subscription)
    (x : Except StorageError Round × Subscription) (d' : Disk FileName) : Prop where
  still : d' = d
  again : x.1 = .ok .again → next = some x.2
  only : ∀ s, next = some s → x = (.ok .again, s) ∨ ∃ o, fails o

theorem Turned.left {x : Except StorageError Round × Subscription} (h : x.1 ≠ .ok .again) :
    Turned fails d none x d :=
  ⟨rfl, fun ha => absurd ha h, by simp⟩

theorem Turned.failed {next : Option Subscription} {err : StorageError} {s : Subscription}
    (h : ∃ o, fails o) : Turned fails d next (.error err, s) d :=
  ⟨rfl, by simp, fun _ _ => .inr h⟩

theorem Turned.go (s : Subscription) : Turned fails d (some s) (.ok .again, s) d :=
  ⟨rfl, fun _ => rfl, fun _ hs => .inl (by rw [Option.some.inj hs])⟩

section Rounds

variable {s : Subscription}

theorem safe_openNext_still :
    Safe (bare fails) (openNext s) (Turned fails d (some (reopened d s))) d := by
  refine Safe.getP (Safe.bindP (Safe.lift (quiet_bare.openRead (fun ino hino => ?_)
    (fun hnone => ?_) fun hf => .failed ⟨_, hf⟩)))
  · refine Safe.bindP (safe_idxExists_still ?_ fun hf => .failed hf)
    have hre : reopened d s =
        { s with currentFile := some (⟨ino, 0⟩, headerLen, !(d.find (.idx s.nextOffset)).isSome) } := by
      simp [reopened, show d.find (.seg s.nextOffset) = some ino from hino]
    rw [hre]
    exact Turned.go _
  · have hre : reopened d s = { s with currentFile := none } := by
      simp [reopened, show d.find (.seg s.nextOffset) = none from hnone]
    rw [hre]
    exact Turned.go _

theorem safe_readNext_still {file : File} {pos : ℕ} {active : Bool} :
    Safe (bare fails) (readNext c file pos active s)
      (Turned fails d (againAt c d s (file.ino, pos, active))) d := by
  refine Safe.bindP (Safe.on (Safe.attempt (safe_readRecord_at (fun r m hm => ?_)
    (fun hm q => ?_) fun hf q => .failed hf)))
  · cases r with
    | ok e =>
      refine Safe.bindP (Safe.on (Safe.mapError (safe_bare fun r d' hs => ?_)))
      obtain ⟨rfl, rfl | ⟨hf, rfl⟩⟩ := hs
      · refine Safe.modifyP (Safe.getP ?_)
        dsimp only
        split_ifs with hskip hwrong
        · have hat : againAt c d' s (file.ino, pos, active) =
              some { s with currentFile := some (⟨file.ino, pos + m⟩, pos + m, active) } := by
            simp only [againAt, hm]
            exact if_pos hskip
          rw [hat]
          exact .go _
        · rw [show againAt c d' s (file.ino, pos, active) = none by
            simp only [againAt, hm]
            exact if_neg hskip]
          exact .left (by simp)
        · rw [show againAt c d' s (file.ino, pos, active) = none by
            simp only [againAt, hm]
            exact if_neg hskip]
          exact .left (by simp)
      · exact .failed ⟨_, hf⟩
    | error err =>
      cases err with
      | corrupted msg =>
        change Safe _ ((if msg = sentinelMsg then openNext
          else Proc.throw (.corrupted msg) : Io Subscription Round) s) _ d
        by_cases hmsg : msg = sentinelMsg
        · rw [show againAt c d s (file.ino, pos, active) = some (reopened d s) by
            simp [againAt, hm, hmsg], if_pos hmsg]
          exact safe_openNext_still
        · rw [show againAt c d s (file.ino, pos, active) = none by simp [againAt, hm, hmsg],
            if_neg hmsg]
          exact Turned.left (by simp)
      | io kind =>
        rw [show againAt c d s (file.ino, pos, active) = none by simp [againAt, hm]]
        cases kind with
        | unexpectedEof =>
          refine Safe.modifyP ?_
          cases active with
          | true => exact Turned.left (by simp)
          | false => exact Turned.left (by simp)
        | _ => exact Turned.left (by simp)
      | _ =>
        rw [show againAt c d s (file.ino, pos, active) = none by simp [againAt, hm]]
        exact Turned.left (by simp)
  · rw [show againAt c d s (file.ino, pos, active) = none by simp [againAt, hm]]
    refine Safe.modifyP ?_
    cases active with
    | true => exact Turned.left (by simp)
    | false => exact Turned.left (by simp)

theorem safe_tryRound_still (dir : String) :
    Safe (bare fails) (tryRound c dir s) (Turned fails d (again c d s)) d := by
  refine Safe.bindP (Safe.getP ?_)
  cases hfile : s.currentFile with
  | some opened =>
    obtain ⟨file, pos, active⟩ := opened
    refine Safe.getP ?_
    rw [hfile]
    have hplace : place c d s = some (file.ino, pos, active) := by simp [place, hfile]
    rw [again, hplace, Option.bind_some]
    exact safe_readNext_still
  | none =>
    have hplace : place c d s = placeOf c d s.nextOffset := by simp [place, hfile]
    rw [again, hplace]
    refine Safe.bindP (safe_openToOffset_still (fun r hr => ?_) dir)
    cases r with
    | error err =>
      rcases hr with hnone | hf
      · rw [hnone, Option.bind_none]
        exact .left (by simp)
      · exact .failed hf
    | ok opened =>
      cases opened with
      | none =>
        rcases hr with hnone | hf
        · rw [hnone, Option.bind_none]
          exact .left (by simp)
        · exact ⟨rfl, by simp, fun _ _ => .inr hf⟩
      | some opened =>
        obtain ⟨file, pos, active⟩ := opened
        have hread : Safe (bare fails) (readNext c file pos active
            { s with currentFile := some (file, pos, active) })
            (Turned fails d (againAt c d s (file.ino, pos, active))) d :=
          safe_readNext_still
        rcases hr with hsome | ⟨hnone, hleft⟩
        · rw [hsome, Option.bind_some]
          exact hread
        · rw [hnone, Option.bind_none]
          rw [hleft s active] at hread
          exact hread

/-- A round of `next_entry` turns the subscription as computed. -/
theorem round_turned {dir : String} {d' : Disk FileName}
    {x : Except StorageError Round × Subscription}
    (h : Finishes (Step fails) d (round c dir s) d' x) : Turned fails d (again c d s) x d' := by
  refine finishes_bare h (Safe.bind ((safe_tryRound_still dir).mono fun y e hy => ?_))
  obtain ⟨r, s'⟩ := y
  cases r with
  | ok r => exact hy
  | error err =>
    obtain ⟨rfl, -, honly⟩ := hy
    refine ⟨rfl, nofun, fun t ht => .inr ((honly t ht).resolve_left ?_)⟩
    simp

end Rounds

section Progress

variable {σ : Type}

theorem free_scanEntries (n : ℕ) (slots : List (Slot FileName)) (found : Option ℕ × Option ℕ) :
    Free fails (scanEntries n slots found : Io σ _) := by
  induction slots generalizing found with
  | nil => exact .pure _
  | cons slot rest ih => exact (free_call (flows_op (by trivial))).bind fun _ => ih _

theorem free_scanSegments (n : ℕ) : Free fails (scanSegments n : Io σ _) :=
  (free_call (flows_op (by trivial))).bind fun _ => free_scanEntries n _ _

theorem free_rescan (n : ℕ) : Free fails (rescan n : Io σ Opened) := by
  refine (free_scanSegments n).bind fun found => ?_
  match found with
  | (none, some _) => exact .throw _
  | (none, none) => exact .pure _
  | (some _, _) => exact .pure _

theorem free_scanRecords (k pos : ℕ) : Free fails (scanRecords c k pos) := by
  induction k generalizing pos with
  | zero => exact .pure _
  | succ k ih =>
    refine ((free_readRecord pos).attempt).bind fun r => ?_
    match r with
    | .ok _ => exact ((Free.streamPosition).mapError _).bind fun next => ih next
    | .error (.corrupted msg) =>
      dsimp only
      split_ifs
      · exact .pure _
      · exact .throw _
    | .error (.io .unexpectedEof) => exact .pure _
    | .error (.io .notFound) => exact .throw _
    | .error (.io .writeZero) => exact .throw _
    | .error (.io .other) => exact .throw _
    | .error (.retentionExpired _ _) => exact .throw _
    | .error (.invalidInput _) => exact .throw _
    | .error (.configuration _) => exact .throw _

theorem free_seekTo (file : File) (pos : ℕ) (active : Bool) :
    Free fails (seekTo file pos active : Io σ Opened) :=
  (Free.on (((Free.seek pos).mapError _) _)).bind fun _ => .pure _

theorem free_openIndexed (dir : String) (n base ino : ℕ) :
    Free fails (openIndexed dir n base ino : Io σ Opened) := by
  refine ((free_readIndex dir base).attempt).bind fun r => ?_
  match r with
  | .ok positions =>
    dsimp only
    cases positions[n - base]? with
    | none => exact .pure _
    | some pos => exact free_seekTo _ _ _
  | .error (.io .notFound) => exact free_rescan n
  | .error (.io .unexpectedEof) => exact .throw _
  | .error (.io .writeZero) => exact .throw _
  | .error (.io .other) => exact .throw _
  | .error (.corrupted _) => exact .throw _
  | .error (.retentionExpired _ _) => exact .throw _
  | .error (.invalidInput _) => exact .throw _
  | .error (.configuration _) => exact .throw _

theorem free_openUnindexed (n base ino : ℕ) :
    Free fails (openUnindexed c n base ino : Io σ Opened) := by
  refine (Free.on (free_scanRecords _ _ _)).bind fun x => ?_
  match x with
  | (.reached pos, file) => exact free_seekTo _ _ _
  | (.ended pos, file) => exact free_seekTo _ _ _
  | (.rolled, file) => exact .pure _

theorem free_openSegment (dir : String) (n base : ℕ) :
    Free fails (openSegment c dir n base : Io σ Opened) := by
  refine (Free.lift (by trivial)).bind fun r => ?_
  match r with
  | .ok ino =>
    refine (free_idxExists base).bind fun indexed => ?_
    split_ifs
    · exact free_openIndexed _ _ _ _
    · exact free_openUnindexed _ _ _
  | .error .notFound => exact free_rescan n
  | .error .unexpectedEof => exact .throw _
  | .error .writeZero => exact .throw _
  | .error .other => exact .throw _

theorem free_openNothing (n : ℕ) : Free fails (openNothing n : Io σ Opened) := by
  refine free_readWatermark.bind fun mark => ?_
  cases mark with
  | none => exact .pure _
  | some mark =>
    dsimp only
    split_ifs
    · exact .throw _
    · exact .pure _

theorem free_openToOffset (dir : String) (n : ℕ) :
    Free fails (openToOffset c dir n : Io σ Opened) := by
  refine (free_scanSegments n).bind fun found => ?_
  match found with
  | (some base, _) => exact free_openSegment dir n base
  | (none, some _) => exact .throw _
  | (none, none) => exact free_openNothing n

theorem free_openNext : Free fails openNext := by
  refine Free.get.bind fun s => (Free.lift (by trivial)).bind fun r => ?_
  match r with
  | .ok ino => exact (free_idxExists _).bind fun _ => (Free.modify _).bind fun _ => .pure _
  | .error .notFound => exact (Free.modify _).bind fun _ => .pure _
  | .error .unexpectedEof => exact .throw _
  | .error .writeZero => exact .throw _
  | .error .other => exact .throw _

theorem free_readNext (file : File) (pos : ℕ) (active : Bool) :
    Free fails (readNext c file pos active) := by
  refine (Free.on (((free_readRecord pos).attempt) _)).bind fun x => ?_
  match x with
  | (.ok e, file) =>
    refine (Free.on ((Free.streamPosition.mapError _) _)).bind fun y => ?_
    refine (Free.modify _).bind fun _ => Free.get.bind fun s => ?_
    split_ifs
    · exact .pure _
    · exact .throw _
    · exact (Free.modify _).bind fun _ => .pure _
  | (.error (.corrupted msg), file) =>
    dsimp only
    split_ifs
    · exact free_openNext
    · exact .throw _
  | (.error (.io .unexpectedEof), file) =>
    refine (Free.modify _).bind fun _ => ?_
    split_ifs
    · exact .pure _
    · exact .throw _
  | (.error (.io .notFound), file) => exact .throw _
  | (.error (.io .writeZero), file) => exact .throw _
  | (.error (.io .other), file) => exact .throw _
  | (.error (.retentionExpired _ _), file) => exact .throw _
  | (.error (.invalidInput _), file) => exact .throw _
  | (.error (.configuration _), file) => exact .throw _

theorem free_tryRound (dir : String) : Free fails (tryRound c dir) := by
  refine Free.bind ?_ fun _ => Free.get.bind fun s => ?_
  · refine Free.get.bind fun s => ?_
    cases s.currentFile with
    | some _ => exact .pure _
    | none => exact (free_openToOffset dir _).bind fun _ => .modify _
  · cases s.currentFile with
    | none => exact .pure _
    | some opened => exact free_readNext _ _ _

theorem exists_round (fails : Op FileName → Prop) (d : Disk FileName) (dir : String)
    (s : Subscription) : ∃ x, Finishes (Step fails) d (round c dir s) d x := by
  have hflows : Flows fails (round c dir s) fun _ => True :=
    Flows.bind ((free_tryRound dir s).mono fun _ _ => trivial)
  obtain ⟨d', x, hx, -⟩ := hflows.finishes d
  obtain rfl := (round_turned hx).still
  exact ⟨x, hx⟩

end Progress

/-- `next_entry` has gone through `k` rounds of its loop without a result. A
closed subscription returns before the first one. -/
inductive Busy (c : Codec) (dir : String) (fails : Op FileName → Prop) (d : Disk FileName)
    (s : Subscription) : ℕ → Subscription → Prop
  | called : s.closed = false → Busy c dir fails d s 0 s
  | round {k : ℕ} {t u : Subscription} : Busy c dir fails d s k t →
      Finishes (Step fails) d (Subscription.round c dir t) d (.ok .again, u) →
      Busy c dir fails d s (k + 1) u

variable {dir : String} {s t : Subscription}

theorem Busy.rounds {k : ℕ} (h : Busy c dir fails d s k t) :
    s.closed = false ∧ rounds (again c d) k s = some t := by
  induction h with
  | called hopen => exact ⟨hopen, rfl⟩
  | round _ hround ih =>
    obtain ⟨hopen, hrounds⟩ := ih
    exact ⟨hopen, by rw [rounds_succ, hrounds, Option.bind_some, (round_turned hround).again rfl]⟩

/-- What the computed rounds lead to, some run of the loop leads to, because every
round can do without a failure. -/
theorem busy_of_rounds (hopen : s.closed = false) {k : ℕ}
    (h : rounds (again c d) k s = some t) : Busy c dir fails d s k t := by
  induction k generalizing t with
  | zero =>
    obtain rfl := Option.some.inj h
    exact .called hopen
  | succ k ih =>
    rw [rounds_succ] at h
    obtain ⟨u, hu, ht⟩ := Option.bind_eq_some_iff.mp h
    obtain ⟨x, hx⟩ := exists_round (c := c) NoFail d dir u
    rcases (round_turned hx).only t ht with rfl | ⟨_, hf⟩
    · exact .round (ih hu) (hx.imp fun _ _ _ _ hs => hs.imp fun _ hf => hf.elim)
    · exact hf.elim

/-- The loop of `next_entry` is left if the computed one is. -/
theorem busy_bounded_iff :
    (∃ n, ∀ k t, Busy c dir fails d s k t → k ≤ n) ↔ s.closed = true ∨ Exits (again c d) s := by
  constructor
  · rintro ⟨n, hn⟩
    cases hopen : s.closed with
    | true => exact .inl rfl
    | false =>
      refine .inr ⟨n + 1, ?_⟩
      cases hrounds : rounds (again c d) (n + 1) s with
      | none => rfl
      | some t =>
        have hle := hn _ _ (busy_of_rounds hopen hrounds)
        omega
  · rintro (hclosed | ⟨n, hn⟩)
    · refine ⟨0, fun k t hbusy => ?_⟩
      rw [hbusy.rounds.1] at hclosed
      cases hclosed
    · refine ⟨n, fun k t hbusy => ?_⟩
      by_contra hlt
      have hnone := rounds_none_of_le (Nat.le_of_not_le hlt) hn
      rw [hbusy.rounds.2] at hnone
      cases hnone

/-- Reading on from a position comes to a sentinel; before it, there are only
records that an active file makes the subscription skip. -/
inductive ToSentinel (c : Codec) (bytes : List UInt8) (n : ℕ) (active : Bool) : ℕ → Prop
  | here {pos m : ℕ} :
      (recordParser c pos).parse (bytes.drop pos) = some (.error (.corrupted sentinelMsg), m) →
      ToSentinel c bytes n active pos
  | skip {pos m : ℕ} {e : LogEntry} :
      (recordParser c pos).parse (bytes.drop pos) = some (.ok e, m) → e.offset < n →
      active = true → ToSentinel c bytes n active (pos + m) → ToSentinel c bytes n active pos

/-- Reading on from where the subscription stands comes to a sentinel. -/
def LeadsToSentinel (c : Codec) (d : Disk FileName) (s : Subscription) : Prop :=
  ∃ ino pos active, place c d s = some (ino, pos, active) ∧
    ToSentinel c (d.data ino) s.nextOffset active pos

/-- What asks for another round: a record to skip, or a sentinel. -/
theorem again_cases (h : again c d s = some t) : ∃ ino pos active,
    place c d s = some (ino, pos, active) ∧
    ((∃ e m, (recordParser c pos).parse ((d.data ino).drop pos) = some (.ok e, m) ∧
        e.offset < s.nextOffset ∧ active = true ∧
        t = { s with currentFile := some (⟨ino, pos + m⟩, pos + m, active) }) ∨
      ∃ m, (recordParser c pos).parse ((d.data ino).drop pos) =
          some (.error (.corrupted sentinelMsg), m) ∧ t = reopened d s) := by
  obtain ⟨⟨ino, pos, active⟩, hplace, hat⟩ := Option.bind_eq_some_iff.mp h
  refine ⟨ino, pos, active, hplace, ?_⟩
  simp only [againAt] at hat
  cases hparse : (recordParser c pos).parse ((d.data ino).drop pos) with
  | none => simp [hparse] at hat
  | some found =>
    obtain ⟨r, m⟩ := found
    rw [hparse] at hat
    cases r with
    | ok e =>
      dsimp only at hat
      split_ifs at hat with hskip
      exact .inl ⟨e, m, rfl, hskip.1, hskip.2, (Option.some.inj hat).symm⟩
    | error err =>
      cases err with
      | corrupted msg =>
        dsimp only at hat
        split_ifs at hat with hmsg
        exact .inr ⟨m, by rw [hmsg], (Option.some.inj hat).symm⟩
      | _ => cases hat

def remaining (c : Codec) (d : Disk FileName) (s : Subscription) : ℕ :=
  (place c d s).elim 0 fun at_ => (d.data at_.1).length - at_.2.1

/-- A round skips a record, with less left to read, or comes to a sentinel. -/
theorem again_step (h : again c d s = some t) :
    (LeadsToSentinel c d t → LeadsToSentinel c d s) ∧ reopened d t = reopened d s ∧
        remaining c d t < remaining c d s ∨
      LeadsToSentinel c d s ∧ t = reopened d s := by
  obtain ⟨ino, pos, active, hplace, ⟨e, m, hm, hlt, hactive, rfl⟩ | ⟨m, hm, rfl⟩⟩ := again_cases h
  · left
    refine ⟨?_, rfl, ?_⟩
    · rintro ⟨ino', pos', active', hplace', hto⟩
      obtain ⟨rfl, rfl, rfl⟩ : ino = ino' ∧ pos + m = pos' ∧ active = active' := by
        simpa [place] using hplace'
      exact ⟨ino, pos, active, hplace, .skip hm hlt hactive hto⟩
    · have hpos := (parse_ok hm).1
      have hle := Parser.parse_consumed_le hm
      rw [List.length_drop] at hle
      have hnext : place c d { s with currentFile := some (⟨ino, pos + m⟩, pos + m, active) } =
          some (ino, pos + m, active) := rfl
      rw [remaining, remaining, hplace, hnext, Option.elim_some, Option.elim_some]
      change (d.data ino).length - (pos + m) < (d.data ino).length - pos
      omega
  · exact .inr ⟨⟨ino, pos, active, hplace, .here hm⟩, rfl⟩

theorem exits_of_not_leads (h : ¬ LeadsToSentinel c d s) : Exits (again c d) s := by
  refine .of_measure (I := fun s => ¬ LeadsToSentinel c d s) (m := remaining c d)
    (fun s t hs ht => .inr ?_) h
  rcases again_step ht with ⟨hback, -, hlt⟩ | ⟨hleads, -⟩
  · exact ⟨fun hleads => hs (hback hleads), hlt⟩
  · exact absurd hleads hs

theorem exits_of_not_reopened (h : ¬ LeadsToSentinel c d (reopened d s)) :
    Exits (again c d) s := by
  refine .of_measure (I := fun s => ¬ LeadsToSentinel c d (reopened d s)) (m := remaining c d)
    (fun s t hs ht => ?_) h
  rcases again_step ht with ⟨-, hsame, hlt⟩ | ⟨-, rfl⟩
  · exact .inr ⟨by rwa [hsame], hlt⟩
  · exact .inl (exits_of_not_leads hs)

theorem LeadsToSentinel.again (h : LeadsToSentinel c d s) :
    ∃ t, again c d s = some t ∧ (LeadsToSentinel c d t ∧ reopened d t = reopened d s ∨
      t = reopened d s) := by
  obtain ⟨ino, pos, active, hplace, hto⟩ := h
  cases hto with
  | here hm =>
    refine ⟨_, ?_, .inr rfl⟩
    simp [Subscription.again, hplace, againAt, hm]
  | @skip _ m _ hm hlt hactive hto =>
    refine ⟨{ s with currentFile := some (⟨ino, pos + m⟩, pos + m, active) }, ?_,
      .inl ⟨⟨ino, pos + m, active, rfl, hto⟩, rfl⟩⟩
    simp [Subscription.again, hplace, againAt, hm, hlt, hactive]

/-- The loop is left unless it comes to a sentinel, and to one again from where the
sentinel takes it. -/
theorem exits_iff : Exits (again c d) s ↔
    ¬ (LeadsToSentinel c d s ∧ LeadsToSentinel c d (reopened d s)) := by
  constructor
  · rintro hexits hspins
    refine not_exits_of_invariant (I := fun s => LeadsToSentinel c d s ∧
      LeadsToSentinel c d (reopened d s)) (fun s hs => ?_) hspins hexits
    obtain ⟨t, ht, ⟨hleads, hsame⟩ | rfl⟩ := hs.1.again
    · exact ⟨t, ht, hleads, by rw [hsame]; exact hs.2⟩
    · exact ⟨_, ht, hs.2, hs.2⟩
  · intro hnot
    by_cases hleads : LeadsToSentinel c d s
    · exact exits_of_not_reopened fun hagain => hnot ⟨hleads, hagain⟩
    · exact exits_of_not_leads hleads

/-- The newest segment ends before offset `n` with its sentinel, and has no index
yet. -/
def SealedAt (c : Codec) (w : World) (n : ℕ) : Prop :=
  ∃ t, w.ghost.tail = some t ∧ t.stop = n ∧ w.disk.data t.ino = t.image c ++ sentinel

/-- A sentinel is read at once when no record comes before it that is skipped. -/
theorem ToSentinel.at_once {bytes : List UInt8} {n pos : ℕ} {active : Bool}
    (h : ToSentinel c bytes n active pos)
    (hno : ∀ e m, (recordParser c pos).parse (bytes.drop pos) = some (.ok e, m) → n ≤ e.offset) :
    ∃ m, (recordParser c pos).parse (bytes.drop pos) = some (.error (.corrupted sentinelMsg), m) := by
  cases h with
  | here hm => exact ⟨_, hm⟩
  | skip hm hlt _ _ =>
    have hle := hno _ _ hm
    omega

section Written

variable {w : World}

theorem behind_position (h : Good c w) {t : Segment} (ht : t ∈ w.ghost.segments) {k j : ℕ}
    (hj : j ≤ t.entries.length) : behind c (w.disk.data t.ino) k (t.position c j) =
      if j + k ≤ t.entries.length then some (t.position c (j + k)) else none := by
  induction k generalizing j with
  | zero => rw [behind, Nat.add_zero, if_pos hj]
  | succ k ih =>
    rcases h.parse_at ht hj (t.position c j) with ⟨e, he, hparse⟩ | ⟨hend, hparse⟩ | ⟨hend, -, hparse⟩
    · have hlt := (List.getElem?_eq_some_iff.mp he).1
      have hnext : t.position c j + (recordBytes c e).length = t.position c (j + 1) := by
        rw [Segment.position, Segment.position, List.take_add_one, he, recordsBytes_append]
        simp [Nat.add_assoc]
      rw [behind, hparse]
      dsimp only
      rw [hnext, ih hlt, show j + 1 + k = j + (k + 1) by omega]
    · rw [behind, hparse, if_neg (by omega)]
    · rw [behind, hparse, if_neg (by omega)]

theorem parse_end_iff (h : Good c w) {t : Segment} (ht : t ∈ w.ghost.segments) (pos : ℕ) :
    (∃ m, (recordParser c pos).parse ((w.disk.data t.ino).drop (t.position c t.entries.length)) =
        some (.error (.corrupted sentinelMsg), m)) ↔
      w.disk.data t.ino = t.image c ++ sentinel := by
  have hdrop : ∀ rest, w.disk.data t.ino = t.image c ++ rest →
      (w.disk.data t.ino).drop (t.position c t.entries.length) = rest := by
    intro rest hrest
    rw [hrest, Segment.position, List.take_length]
    exact drop_image_append c (List.append_nil _).symm rest
  constructor
  · rintro ⟨m, hm⟩
    rcases Ghost.mem_segments.mp ht with hcl | htl
    · exact (h.closedData t hcl).2
    · rcases h.tailData t htl with ⟨-, hshort, -⟩ | ⟨rest, hrest, htail⟩
      · rw [List.drop_eq_nil_of_le (by rw [Segment.position]; omega),
          parse_short c pos (by simp)] at hm
        cases hm
      · rw [hdrop rest hrest] at hm
        rcases htail.parse c pos with ⟨rfl, -⟩ | ⟨-, hnone⟩
        · exact hrest
        · rw [hnone] at hm
          cases hm
  · intro hdata
    rw [hdrop _ hdata]
    exact ⟨4, by simpa using parse_sentinel c pos []⟩

/-- Reading at offset `n` in its segment comes to a sentinel exactly behind the
last record. -/
theorem toSentinel_iff (h : Good c w) {t : Segment} (ht : t ∈ w.ghost.segments) {n : ℕ}
    (hle : t.base ≤ n) (hstop : n ≤ t.stop) (active : Bool) :
    ToSentinel c (w.disk.data t.ino) n active (t.position c (n - t.base)) ↔
      t.stop = n ∧ w.disk.data t.ino = t.image c ++ sentinel := by
  rw [Segment.stop] at hstop
  rw [Segment.stop]
  constructor
  · intro hto
    rcases h.parse_at ht (k := n - t.base) (by omega) (t.position c (n - t.base)) with
      ⟨e, he, hparse⟩ | ⟨hend, hparse⟩ | ⟨-, -, hparse⟩
    · have hnum := h.ok.numbered t ht _ _ he
      obtain ⟨m, hm⟩ := hto.at_once fun e' m' hm' => by
        obtain ⟨he', -⟩ := Prod.mk.inj (Option.some.inj (hm'.symm.trans hparse))
        obtain rfl := Except.ok.inj he'
        omega
      rw [hm] at hparse
      cases hparse
    · rw [hend] at hparse
      exact ⟨by omega, (parse_end_iff h ht _).mp ⟨4, hparse⟩⟩
    · obtain ⟨m, hm⟩ := hto.at_once fun e' m' hm' => by
        rw [hm'] at hparse
        cases hparse
      rw [hm] at hparse
      cases hparse
  · rintro ⟨hend, hdata⟩
    obtain ⟨m, hm⟩ := (parse_end_iff h ht (t.position c (n - t.base))).mpr hdata
    rw [show n - t.base = t.entries.length by omega]
    rw [show n - t.base = t.entries.length by omega] at hm
    exact .here hm

theorem mem_of_bestBase {d : Disk FileName} {n base : ℕ} (h : bestBase d n = some base) :
    (d.find (.seg base)).isSome = true ∧ base ≤ n := by
  obtain ⟨hlinked, hle⟩ := List.mem_filter.mp (List.max?_eq_some_iff.mp h).1
  obtain ⟨x, hx, hb⟩ := List.mem_filterMap.mp hlinked
  rw [segBase?_eq_some hb, Disk.mem_keys] at hx
  exact ⟨hx, by simpa using hle⟩

theorem bestBase_tail (h : Good c w) {t : Segment} (ht : w.ghost.tail = some t) :
    bestBase w.disk t.stop = some t.base := by
  have hmem : ∀ b, b ∈ (w.disk.dir.keys.filterMap FileName.segBase?).filter (· ≤ t.stop) ↔
      (w.disk.find (.seg b)).isSome = true ∧ b ≤ t.stop := by
    intro b
    rw [List.mem_filter, List.mem_filterMap, decide_eq_true_eq]
    refine and_congr_left fun _ => ⟨?_, fun hb => ⟨_, (Disk.mem_keys _ _).mpr hb, rfl⟩⟩
    rintro ⟨x, hx, hb⟩
    rwa [segBase?_eq_some hb, Disk.mem_keys] at hx
  rw [bestBase, List.max?_eq_some_iff]
  refine ⟨(hmem _).mpr ⟨?_, Nat.le_add_right _ _⟩, fun b hb => ?_⟩
  · rw [h.find_tail ht]
    rfl
  · obtain ⟨i, hi⟩ := Option.isSome_iff_exists.mp ((hmem b).mp hb).1
    obtain ⟨s, hs, rfl, -⟩ := h.exists_of_find hi
    by_contra hlt
    have hbehind := h.stop_le_base (Ghost.mem_segments.mpr (.inr ht)) hs (Nat.lt_of_not_le hlt)
    have hend := h.stop_tail ht
    rcases Ghost.mem_segments.mp hs with hcl | htl
    · have hbefore := h.ok.closed_lt hcl
      omega
    · obtain rfl := Option.some.inj (ht.symm.trans htl)
      exact hlt le_rfl

/-- The place of offset `n` is before a sentinel exactly if that is the end of the
newest segment. -/
theorem placeOf_leads_iff (h : Good c w) (n : ℕ) :
    (∃ ino pos active, placeOf c w.disk n = some (ino, pos, active) ∧
      ToSentinel c (w.disk.data ino) n active pos) ↔ SealedAt c w n := by
  have hstart : ∀ t : Segment, headerLen = t.position c 0 := fun t => by simp [Segment.position]
  constructor
  · rintro ⟨ino, pos, active, hplace, hto⟩
    obtain ⟨base, hbest, hplace⟩ := Option.bind_eq_some_iff.mp hplace
    obtain ⟨ino', hino, hplace⟩ := Option.bind_eq_some_iff.mp hplace
    obtain ⟨-, hle⟩ := mem_of_bestBase hbest
    obtain ⟨t, ht, rfl, rfl⟩ := (h.seg _ _).mp hino
    have hseg : t ∈ w.ghost.segments := by
      rcases List.mem_append.mp ht with hlive | htail
      · exact Ghost.mem_segments.mpr (.inl (Ghost.mem_live hlive))
      · exact Ghost.mem_segments.mpr (.inr (Option.mem_toList.mp htail))
    cases hidx : w.disk.find (.idx t.base) with
    | some j =>
      obtain ⟨t', ht', hb, hdata⟩ := h.idxData _ _ hidx
      obtain rfl := h.segment_inj (Ghost.mem_segments.mpr (.inl ht')) hseg hb
      simp only [hidx] at hplace
      obtain ⟨positions, hpos, hplace⟩ := Option.bind_eq_some_iff.mp hplace
      obtain ⟨pos', hat, hplace⟩ := Option.bind_eq_some_iff.mp hplace
      obtain ⟨rfl, rfl, rfl⟩ : t'.ino = ino ∧ pos' = pos ∧ false = active := by
        simpa using hplace
      unfold indexOf at hpos
      split_ifs at hpos
      rw [hdata, chunks8_indexBytes (h.position_lt ht')] at hpos
      obtain rfl := Option.some.inj hpos
      obtain ⟨e, he, rfl⟩ := getElem?_positionsFrom c hat
      have hlt := (List.getElem?_eq_some_iff.mp he).1
      have hstop : t'.stop = t'.base + t'.entries.length := rfl
      obtain ⟨hend, -⟩ := (toSentinel_iff h hseg hle (by omega) _).mp hto
      omega
    | none =>
      simp only [hidx] at hplace
      obtain ⟨pos', hbehind, hplace⟩ := Option.bind_eq_some_iff.mp hplace
      obtain ⟨rfl, rfl, rfl⟩ : t.ino = ino ∧ pos' = pos ∧ true = active := by simpa using hplace
      rw [hstart t, behind_position h hseg (Nat.zero_le _), Nat.zero_add] at hbehind
      split_ifs at hbehind with hlen
      obtain rfl := Option.some.inj hbehind
      have hstop : t.stop = t.base + t.entries.length := rfl
      obtain ⟨hend, hdata⟩ := (toSentinel_iff h hseg hle (by omega) _).mp hto
      rcases List.mem_append.mp ht with hlive | htail
      · have hindexed := h.idx t hlive
        rw [hidx] at hindexed
        cases hindexed
      · exact ⟨t, Option.mem_toList.mp htail, hend, hdata⟩
  · rintro ⟨t, ht, rfl, hdata⟩
    have hseg : t ∈ w.ghost.segments := Ghost.mem_segments.mpr (.inr ht)
    have hidx : w.disk.find (.idx t.base) = none := by
      cases hidx : w.disk.find (.idx t.base) with
      | none => rfl
      | some j =>
        obtain ⟨s, hs, hb, -⟩ := h.idxData _ _ hidx
        exact absurd hb (h.ok.closed_ne hs ht)
    have hk : t.stop - t.base = t.entries.length := Nat.add_sub_cancel_left _ _
    have hbehind := behind_position h hseg (k := t.entries.length) (Nat.zero_le _)
    rw [← hstart t, Nat.zero_add, if_pos le_rfl] at hbehind
    refine ⟨t.ino, t.position c (t.stop - t.base), true, ?_,
      (toSentinel_iff h hseg (Nat.le_add_right _ _) le_rfl _).mpr ⟨rfl, hdata⟩⟩
    simp [placeOf, bestBase_tail h ht, h.find_tail ht, hidx, hk, hbehind]

/-- Behind a sentinel there is another one exactly at the end of the newest
segment. -/
theorem reopened_leads_iff (h : Good c w) (s : Subscription) :
    LeadsToSentinel c w.disk (reopened w.disk s) ↔ SealedAt c w s.nextOffset := by
  cases hfind : w.disk.find (.seg s.nextOffset) with
  | none =>
    have hre : reopened w.disk s = { s with currentFile := none } := by simp [reopened, hfind]
    rw [hre, ← placeOf_leads_iff h]
    exact Iff.rfl
  | some ino =>
    obtain ⟨t, ht, hb, rfl, -⟩ := h.exists_of_find hfind
    have hplace : place c w.disk (reopened w.disk s) =
        some (t.ino, headerLen, (w.disk.find (.idx s.nextOffset)).isNone) := by
      simp [reopened, hfind, place]
    have hto := toSentinel_iff h ht hb.le (Nat.le_add_right _ _ |>.trans' hb.ge)
      (w.disk.find (.idx s.nextOffset)).isNone
    have hstart : t.position c (s.nextOffset - t.base) = headerLen := by
      simp [Segment.position, hb]
    rw [hstart] at hto
    constructor
    · rintro ⟨ino, pos, active, hplace', hsentinel⟩
      obtain ⟨rfl, rfl, rfl⟩ : t.ino = ino ∧ headerLen = pos ∧ _ = active := by
        simpa using hplace.symm.trans hplace'
      obtain ⟨hend, hdata⟩ := hto.mp hsentinel
      rcases Ghost.mem_segments.mp ht with hcl | htl
      · have hpos := List.length_pos_of_ne_nil (h.ok.nonempty t hcl)
        have hstop : t.stop = t.base + t.entries.length := rfl
        omega
      · exact ⟨t, htl, hend, hdata⟩
    · rintro ⟨t', ht', hend, hdata⟩
      have hlast := h.stop_tail ht'
      rcases Ghost.mem_segments.mp ht with hcl | htl
      · have hlt := h.ok.closed_lt hcl
        omega
      · obtain rfl := Option.some.inj (ht'.symm.trans htl)
        exact ⟨_, _, _, hplace, hto.mpr ⟨hend, hdata⟩⟩

end Written

/-- In an unchanged directory, whatever it holds: the loop of `next_entry` runs on
exactly if the subscription is open, reading on comes to a sentinel, and reading
on from where that sentinel takes it comes to a sentinel again. In the directory
of a log the second is so where the newest segment has its sentinel and no index,
and so is the first if the subscription has no file open. Each round comes to an
end. -/
theorem next_entry_settles_iff (c : Codec) (dir : String) (fails : Op FileName → Prop)
    (d : Disk FileName) (s : Subscription) :
    ((∃ n, ∀ k t, Busy c dir fails d s k t → k ≤ n) ↔
      s.closed = true ∨ ¬ (LeadsToSentinel c d s ∧ LeadsToSentinel c d (reopened d s))) ∧
    (∀ g, Good c ⟨d, g⟩ →
      (LeadsToSentinel c d (reopened d s) ↔ SealedAt c ⟨d, g⟩ s.nextOffset) ∧
      (s.currentFile = none → (LeadsToSentinel c d s ↔ SealedAt c ⟨d, g⟩ s.nextOffset))) ∧
    ∀ t, ∃ x, Finishes (Step fails) d (round c dir t) d x := by
  refine ⟨by rw [busy_bounded_iff, exits_iff], fun g hg => ⟨reopened_leads_iff hg s, ?_⟩,
    exists_round fails d dir⟩
  intro hnone
  rw [← placeOf_leads_iff hg, LeadsToSentinel, place, hnone]

/-- A roll fails to write the index and to undo the sentinel. -/
theorem next_entry_spins :
    ∃ d l, Finishes (Step fun _ => True) .empty (append sampleCodec "p" [sampleHealth]
        ⟨{ maxSegmentBytes := 1 }, [], none, 0, false⟩) d (.error (.io .other), l) ∧
      ¬ ∃ n, ∀ k t, Busy sampleCodec "data" NoFail d (.new 1) k t → k ≤ n := by
  have hrun : (simulate 0 (append sampleCodec "p" [sampleHealth]
      ⟨{ maxSegmentBytes := 1 }, [], none, 0, false⟩)
      (List.replicate 14 false ++ [true, true]) .empty).map
        (fun x => (x.2.1, again sampleCodec x.1 (.new 1))) =
      some (.error (.io .other), some (.new 1)) := by
    decide +kernel
  obtain ⟨⟨d, r, l⟩, hsim, hx⟩ := Option.map_eq_some_iff.mp hrun
  obtain ⟨rfl, hagain⟩ := Prod.mk.inj hx
  refine ⟨d, l, finishes_of_simulate (fun _ _ => trivial) hsim, ?_⟩
  rw [busy_bounded_iff]
  rintro (hclosed | hexits)
  · cases hclosed
  · refine not_exits_of_invariant (I := (· = Subscription.new 1)) (fun s hs => ?_) rfl hexits
    obtain rfl := hs
    exact ⟨_, hagain, rfl⟩

end OtkCore.SegmentLog.Subscription
