import OtkCore.SegmentLog.Checked
import OtkCore.SegmentLog.Spinning

/-!
# The last offset

A subscription counts on from the offset it returns. In an unchanged directory
the count leaves `u64` exactly when the record the subscription comes to carries
the largest offset.
-/
namespace OtkCore.SegmentLog

open Effect FileIO Bytes

namespace Subscription

open Checked (maintains_call)

variable {c : Codec} {σ : Type} {I : σ → Prop}

theorem maintains_scanSegments (n : ℕ) : Maintains I (scanSegments n : Io σ _) := by
  refine (maintains_call _).bind fun slots => ?_
  have hentries : ∀ found, Maintains I (scanEntries n slots found : Io σ _) := by
    induction slots with
    | nil => exact fun _ => .pure _
    | cons slot rest ih => exact fun _ => (maintains_call _).bind fun _ => ih _
  exact hentries _

theorem maintains_rescan (n : ℕ) : Maintains I (rescan n : Io σ Opened) := by
  refine (maintains_scanSegments n).bind fun found => ?_
  split
  · exact .throw _
  · exact .pure _

theorem maintains_readIndex (dir : String) (base : ℕ) :
    Maintains I (readIndex dir base : Io σ (List ℕ)) := by
  refine (maintains_call _).bind fun n => ?_
  split_ifs
  · exact .throw _
  · refine (maintains_call _).bind fun _ => (maintains_call _).bind fun bytes => ?_
    split_ifs
    · exact .throw _
    · exact .pure _

theorem maintains_seekTo (file : File) (pos : ℕ) (active : Bool) :
    Maintains I (seekTo file pos active : Io σ Opened) :=
  (Maintains.on _ _).bind fun _ => .pure _

theorem maintains_openIndexed (dir : String) (n base ino : ℕ) :
    Maintains I (openIndexed dir n base ino : Io σ Opened) := by
  refine (maintains_readIndex dir base).attempt.bind fun r => ?_
  split
  · exact maintains_rescan n
  · exact .throw _
  · split
    · exact .pure _
    · exact maintains_seekTo _ _ _

theorem maintains_openUnindexed (n base ino : ℕ) :
    Maintains I (openUnindexed c n base ino : Io σ Opened) := by
  refine (Maintains.on _ _).bind fun x => ?_
  obtain ⟨found, file⟩ := x
  cases found with
  | reached pos => exact maintains_seekTo _ _ _
  | ended pos => exact maintains_seekTo _ _ _
  | rolled => exact .pure _

theorem maintains_idxExists (base : ℕ) : Maintains I (idxExists base : Io σ Bool) := by
  refine (Maintains.lift _).bind fun r => ?_
  split
  · exact .pure _
  · exact .pure _
  · exact .throw _

theorem maintains_openSegment (dir : String) (n base : ℕ) :
    Maintains I (openSegment c dir n base : Io σ Opened) := by
  refine (Maintains.lift _).bind fun r => ?_
  split
  · exact maintains_rescan n
  · exact .throw _
  · refine (maintains_idxExists base).bind fun indexed => ?_
    split_ifs
    · exact maintains_openIndexed _ _ _ _
    · exact maintains_openUnindexed _ _ _

theorem maintains_openNothing (n : ℕ) : Maintains I (openNothing n : Io σ Opened) := by
  have hmark : Maintains I (readWatermark : Io σ (Option ℕ)) := by
    refine (Maintains.lift _).bind fun r => ?_
    split
    · exact .pure _
    · exact .throw _
    · refine (Maintains.on _ _).bind fun r => ?_
      split
      · exact .pure _
      · exact .pure _
      · exact .throw _
  refine hmark.bind fun mark => ?_
  split
  · split_ifs
    · exact .throw _
    · exact .pure _
  · exact .pure _

theorem maintains_openToOffset (dir : String) (n : ℕ) :
    Maintains I (openToOffset c dir n : Io σ Opened) := by
  refine (maintains_scanSegments n).bind fun found => ?_
  split
  · exact maintains_openSegment _ _ _
  · exact .throw _
  · exact maintains_openNothing n

theorem maintains_ensureFile (dir : String) (n : ℕ) :
    Maintains (fun s => s.nextOffset = n) (ensureFile c dir) := by
  refine Maintains.get.bind fun s => ?_
  split
  · exact .pure _
  · exact (maintains_openToOffset dir _).bind fun _ => .modify fun _ h => h

theorem maintains_openNext (n : ℕ) : Maintains (fun s => s.nextOffset = n) openNext := by
  refine Maintains.get.bind fun s => (Maintains.lift _).bind fun r => ?_
  split
  · refine (maintains_idxExists _).bind fun _ => Maintains.bind (.modify fun _ h => ?_) fun _ => .pure _
    exact h
  · refine Maintains.bind (.modify fun _ h => ?_) fun _ => .pure _
    exact h
  · exact .throw _

def Counts (n : ℕ) (x : Except StorageError Round × Subscription) : Prop :=
  x.2.nextOffset = n ∨ (∃ e, x.1 = .ok (.returned e)) ∧ x.2.nextOffset = n + 1

theorem says_readNext_counts (file : File) (pos : ℕ) (active : Bool) (s : Subscription) :
    Says (readNext c file pos active s) fun x _ => Counts s.nextOffset x := by
  refine Says.bindP (Says.on (Says.attempt ((Says.any _).mono ?_)))
  rintro ⟨r, file⟩ tr -
  cases r with
  | ok entry =>
    refine Says.bindP (Says.on ((Says.any _).mono ?_))
    rintro ⟨r, file⟩ tr -
    cases r with
    | error err => exact .inl rfl
    | ok next =>
      refine Says.modifyP (Says.getP ?_)
      split_ifs
      · exact .inl rfl
      · exact .inl rfl
      · exact Says.modifyP (.inr ⟨⟨entry, rfl⟩, rfl⟩)
  | error err =>
    cases err with
    | corrupted msg =>
      change Says ((if msg = sentinelMsg then openNext
        else Proc.throw (.corrupted msg) : Io Subscription Round) s) _
      split_ifs
      · exact (maintains_openNext s.nextOffset s rfl).mono fun x _ hx => .inl hx
      · exact .inl rfl
    | io k =>
      cases k with
      | unexpectedEof =>
        refine Says.modifyP ?_
        split_ifs
        · exact .inl rfl
        · exact .inl rfl
      | _ => exact .inl rfl
    | _ => exact .inl rfl

theorem says_tryRound_counts (dir : String) (s : Subscription) :
    Says (tryRound c dir s) fun x _ => Counts s.nextOffset x := by
  refine Says.bindP ((maintains_ensureFile dir s.nextOffset s rfl).mono ?_)
  rintro ⟨r, t⟩ tr ht
  have ht : t.nextOffset = s.nextOffset := ht
  cases r with
  | error err => exact .inl ht
  | ok _ =>
    refine Says.getP ?_
    cases t.currentFile with
    | none => exact .inl ht
    | some opened =>
      obtain ⟨file, pos, active⟩ := opened
      exact ht ▸ says_readNext_counts file pos active t

end Subscription

namespace Checked

open Subscription (Opened Round Scan)

variable {c : Codec} {σ : Type}

theorem scanRecords_eq {n current pos : ℕ} (h : n ≠ 0 → current + n < 2 ^ 64) :
    scanRecords c n current pos = plain (Subscription.scanRecords c n pos) := by
  induction n generalizing current pos with
  | zero => rfl
  | succ n ih =>
    have hsum := h (Nat.succ_ne_zero n)
    rw [scanRecords, Subscription.scanRecords, plain_bind]
    refine bind_congr fun r => ?_
    cases r with
    | ok e =>
      dsimp only
      rw [plain_bind]
      refine bind_congr fun next => ?_
      rw [addU64_eq (by omega), pure_bind, ih fun _ => by omega]
    | error err =>
      cases err with
      | corrupted msg =>
        dsimp only
        rw [plain_ite]
        rfl
      | io kind => cases kind <;> rfl
      | _ => rfl

theorem openIndexed_eq {offset base : ℕ} (h : base ≤ offset) (dir : String) (ino : ℕ) :
    (openIndexed dir offset base ino : CheckedIo σ Opened) =
      plain (Subscription.openIndexed dir offset base ino) := by
  unfold openIndexed Subscription.openIndexed
  rw [plain_bind]
  refine bind_congr fun r => ?_
  cases r with
  | ok positions =>
    dsimp only
    rw [subU64_eq h, pure_bind]
    cases positions[offset - base]? <;> rfl
  | error err =>
    cases err with
    | io kind => cases kind <;> rfl
    | _ => rfl

theorem openUnindexed_eq {offset : ℕ} (h : offset < 2 ^ 64) (base ino : ℕ) :
    (openUnindexed c offset base ino : CheckedIo σ Opened) =
      plain (Subscription.openUnindexed c offset base ino) := by
  unfold openUnindexed Subscription.openUnindexed
  rw [plain_bind, plain_on, scanRecords_eq (by omega)]
  refine bind_congr fun x => ?_
  obtain ⟨found, file⟩ := x
  cases found <;> rfl

theorem openSegment_eq {offset base : ℕ} (hbase : base ≤ offset) (h : offset < 2 ^ 64)
    (dir : String) : (openSegment c dir offset base : CheckedIo σ Opened) =
      plain (Subscription.openSegment c dir offset base) := by
  unfold openSegment Subscription.openSegment
  rw [plain_bind]
  refine bind_congr fun r => ?_
  cases r with
  | ok ino =>
    dsimp only
    rw [plain_bind, openIndexed_eq hbase, openUnindexed_eq h]
    exact bind_congr fun indexed => (plain_ite _ _).symm
  | error k => cases k <;> rfl

/-- The segment that is chosen begins at or before the offset. -/
theorem says_scanEntries_le {offset : ℕ} (slots : List (Slot FileName))
    {found : Option ℕ × Option ℕ} (h : ∀ b, found.1 = some b → b ≤ offset) (s : σ) :
    Says ((Subscription.scanEntries offset slots found : Io σ _) s) fun x _ =>
      ∀ found', x.1 = .ok found' → ∀ b, found'.1 = some b → b ≤ offset := by
  induction slots generalizing found with
  | nil =>
    intro found' hfound'
    obtain rfl := Except.ok.inj hfound'
    exact h
  | cons slot rest ih =>
    refine Says.bindP (Says.mapError (Says.liftE ((Says.any _).mono fun r _ _ => ?_)))
    cases r with
    | error k => exact nofun
    | ok entry =>
      refine ih ?_
      cases hbase : entry.bind FileName.segBase? with
      | none => exact h
      | some base =>
        intro b hb
        simp only [Option.elim_some, Subscription.scanEntry] at hb
        split_ifs at hb with hle
        · cases hfound : found.1 with
          | none =>
            rw [hfound] at hb
            obtain rfl := Option.some.inj hb
            exact hle
          | some best =>
            rw [hfound] at hb
            obtain rfl := Option.some.inj hb
            exact max_le (h best hfound) hle
        · exact h b hb

theorem openToOffset_eq {offset : ℕ} (h : offset < 2 ^ 64) (dir : String) :
    (openToOffset c dir offset : CheckedIo σ Opened) =
      plain (Subscription.openToOffset c dir offset) := by
  funext s
  unfold openToOffset Subscription.openToOffset
  rw [plain_bind]
  have hscan : Says ((Subscription.scanSegments offset : Io σ _) s) fun x _ =>
      ∀ found, x.1 = .ok found → ∀ b, found.1 = some b → b ≤ offset := by
    refine Says.bindP (Says.mapError (Says.liftE ((Says.any _).mono fun r _ _ => ?_)))
    cases r with
    | error k => exact nofun
    | ok slots => exact says_scanEntries_le slots (fun b hb => by cases hb) s
  refine plain_bind_congr (P := fun found _ => ∀ b, found.1 = some b → b ≤ offset) hscan
    fun found s' hfound => ?_
  obtain ⟨best, oldest⟩ := found
  cases best with
  | some base =>
    dsimp only
    rw [openSegment_eq (hfound base rfl) h]
  | none => cases oldest <;> rfl

def check : Except StorageError Round × Subscription → Except ReadFault Round × Subscription
  | (.ok (.returned entry), s) =>
    if s.nextOffset < 2 ^ 64 then (.ok (.returned entry), s)
    else (.error .overflow, { s with nextOffset := s.nextOffset - 1 })
  | (.ok .again, s) => (.ok .again, s)
  | (.ok .wait, s) => (.ok .wait, s)
  | (.error e, s) => (.error (.storage e), s)

def checking (t : Io Subscription Round) : CheckedIo Subscription Round := fun s =>
  t s >>= fun x => .pure (check x)

theorem checking_bind {α : Type} (t : Io Subscription α) (f : α → Io Subscription Round) :
    checking (t >>= f) = plain t >>= fun a => checking (f a) := by
  funext s
  simp only [checking, plain, Proc.mapError, Proc.bind_apply, Prog.bind_assoc]
  congr 1
  funext x
  obtain ⟨r, s'⟩ := x
  cases r with
  | ok a => rfl
  | error e => rfl

theorem checking_ite {p : Prop} [Decidable p] (t u : Io Subscription Round) :
    checking (if p then t else u) = if p then checking t else checking u := by
  split_ifs <;> rfl

theorem checking_openNext : checking Subscription.openNext = plain Subscription.openNext := by
  unfold Subscription.openNext
  rw [checking_bind, plain_bind]
  refine bind_congr fun s => ?_
  rw [checking_bind, plain_bind]
  refine bind_congr fun r => ?_
  cases r with
  | ok ino =>
    dsimp only
    rw [checking_bind, plain_bind]
    rfl
  | error k => cases k <;> rfl

theorem readNext_eq {s : Subscription} (h : s.nextOffset < 2 ^ 64) (file : File) (pos : ℕ)
    (active : Bool) :
    readNext c file pos active s = checking (Subscription.readNext c file pos active) s := by
  unfold readNext Subscription.readNext
  rw [checking_bind]
  refine plain_bind_congr (P := fun _ s' => s' = s) (Says.on ((Says.any _).mono ?_))
    fun x s' hs' => ?_
  · rintro x tr - a -
    rfl
  obtain rfl := hs'
  obtain ⟨r, file⟩ := x
  cases r with
  | ok entry =>
    dsimp only
    rw [checking_bind]
    refine plain_bind_congr (P := fun _ t => t = s') (Says.on ((Says.any _).mono ?_))
      fun y t ht => ?_
    · rintro y tr - a -
      rfl
    obtain rfl := ht
    obtain ⟨next, file⟩ := y
    rw [checking_bind]
    rw [checking_bind, plain_modify, plain_get, modify_bind, modify_bind, get_bind, get_bind,
      checking_ite, checking_ite, checking_bind]
    split_ifs
    · rfl
    · rfl
    · by_cases hlast : t.nextOffset + 1 < 2 ^ 64
      · rw [addU64_eq hlast, pure_bind, plain_modify, modify_bind, modify_bind]
        exact congrArg Prog.pure (if_pos hlast).symm
      · rw [addU64, if_neg hlast, throw_bind, plain_modify, modify_bind]
        exact congrArg Prog.pure (if_neg hlast).symm
  | error err =>
    cases err with
    | corrupted msg =>
      dsimp only
      rw [checking_ite, checking_openNext]
      rfl
    | io kind =>
      cases kind with
      | unexpectedEof =>
        dsimp only
        rw [checking_bind, plain_bind]
        cases active <;> rfl
      | _ => rfl
    | _ => rfl

theorem ensureFile_eq {s : Subscription} (h : s.nextOffset < 2 ^ 64) (dir : String) :
    ensureFile c dir s = plain (Subscription.ensureFile c dir) s := by
  unfold ensureFile Subscription.ensureFile
  rw [get_bind, plain_get_bind]
  cases s.currentFile with
  | some opened => rfl
  | none =>
    dsimp only
    rw [openToOffset_eq h, plain_bind]
    rfl

theorem tryRound_eq {s : Subscription} (h : s.nextOffset < 2 ^ 64) (dir : String) :
    tryRound c dir s = checking (Subscription.tryRound c dir) s := by
  unfold tryRound Subscription.tryRound
  rw [checking_bind, Proc.bind_apply, ensureFile_eq h, ← Proc.bind_apply]
  refine plain_bind_congr (P := fun _ s' => s'.nextOffset = s.nextOffset)
    ((Subscription.maintains_ensureFile dir _ s rfl).mono fun x _ hx _ _ => hx) fun _ s' hs' => ?_
  rw [checking_bind, plain_get, get_bind, get_bind]
  cases hfile : s'.currentFile with
  | none => rfl
  | some opened =>
    obtain ⟨file, pos, active⟩ := opened
    exact readNext_eq (hs' ▸ h) file pos active

/-- A round overflows only in the count behind the entry it returns. -/
theorem round_eq {s : Subscription} (h : s.nextOffset < 2 ^ 64) (dir : String) :
    round c dir s = Subscription.tryRound c dir s >>= fun x => .pure (settle (check x)) := by
  unfold round
  rw [tryRound_eq h, checking, Prog.bind_assoc]
  rfl

end Checked

namespace Subscription

variable {c : Codec} {d : Disk FileName} {fails : Op FileName → Prop} {s : Subscription}

/-- The entry with offset `n` at a place, which a subscription there returns. -/
def entryAt (c : Codec) (d : Disk FileName) (n : ℕ) (at_ : ℕ × ℕ × Bool) : Option LogEntry :=
  match (recordParser c at_.2.1).parse ((d.data at_.1).drop at_.2.1) with
  | some (.ok e, _) => if e.offset = n then some e else none
  | _ => none

def upcoming (c : Codec) (d : Disk FileName) (s : Subscription) : Option LogEntry :=
  (place c d s).bind (entryAt c d s.nextOffset)

/-- What a round returns: the entry that is held for offset `n`; but any operation
may fail. -/
structure Delivers (fails : Op FileName → Prop) (d : Disk FileName) (n : ℕ) (held : Option LogEntry)
    (x : Except StorageError Round × Subscription) (d' : Disk FileName) : Prop where
  still : d' = d
  counted : ∀ e, x.1 = .ok (.returned e) → held = some e ∧ x.2.nextOffset = n + 1
  sure : ∀ e, held = some e → x.1 = .ok (.returned e) ∨ ∃ o, fails o

theorem Delivers.nothing {n : ℕ} {x : Except StorageError Round × Subscription}
    (h : ∀ e, x.1 ≠ .ok (.returned e)) : Delivers fails d n none x d :=
  ⟨rfl, fun e he => (h e he).elim, by simp⟩

theorem Delivers.failed {n : ℕ} {held : Option LogEntry} {err : StorageError} {s : Subscription}
    (h : ∃ o, fails o) : Delivers fails d n held (.error err, s) d :=
  ⟨rfl, by simp, fun _ _ => .inr h⟩

theorem safe_openNext_delivers {n : ℕ} :
    Safe (bare fails) (openNext s) (Delivers fails d n none) d := by
  refine Safe.getP (Safe.bindP (Safe.lift (quiet_bare.openRead (fun ino hino => ?_) (fun hnone => ?_)
    fun hf => .nothing (by simp))))
  · refine Safe.bindP (safe_idxExists_still ?_ fun hf => .nothing (by simp))
    exact Safe.modifyP (.nothing (by simp))
  · exact Safe.modifyP (.nothing (by simp))

theorem safe_readNext_delivers {file : File} {pos : ℕ} {active : Bool} :
    Safe (bare fails) (readNext c file pos active s)
      (Delivers fails d s.nextOffset (entryAt c d s.nextOffset (file.ino, pos, active))) d := by
  refine Safe.bindP (Safe.on (Safe.attempt (safe_readRecord_at (fun r m hm => ?_)
    (fun hm q => ?_) fun hf q => .failed hf)))
  · cases r with
    | ok e =>
      have hat : entryAt c d s.nextOffset (file.ino, pos, active) =
          if e.offset = s.nextOffset then some e else none := by
        simp only [entryAt, hm]
      rw [hat]
      refine Safe.bindP (Safe.on (Safe.mapError (safe_bare fun r d' hs => ?_)))
      obtain ⟨rfl, rfl | ⟨hf, rfl⟩⟩ := hs
      · refine Safe.modifyP (Safe.getP ?_)
        dsimp only
        by_cases hsame : e.offset = s.nextOffset
        · rw [if_pos hsame, if_neg (by omega), if_neg (not_not.mpr hsame)]
          refine Safe.modifyP ⟨rfl, fun e' he' => ?_, fun e' he' => .inl ?_⟩
          · obtain rfl := Round.returned.inj (Except.ok.inj he')
            exact ⟨rfl, rfl⟩
          · obtain rfl := Option.some.inj he'
            rfl
        · rw [if_neg hsame]
          split_ifs
          · exact Delivers.nothing (by simp)
          · exact Delivers.nothing (by simp)
      · exact .failed ⟨_, hf⟩
    | error err =>
      rw [show entryAt c d s.nextOffset (file.ino, pos, active) = none by simp only [entryAt, hm]]
      cases err with
      | corrupted msg =>
        change Safe _ ((if msg = sentinelMsg then openNext
          else Proc.throw (.corrupted msg) : Io Subscription Round) s) _ d
        split_ifs
        · exact safe_openNext_delivers
        · exact Delivers.nothing (by simp)
      | io kind =>
        cases kind with
        | unexpectedEof =>
          refine Safe.modifyP ?_
          cases active with
          | true => exact Delivers.nothing (by simp)
          | false => exact Delivers.nothing (by simp)
        | _ => exact Delivers.nothing (by simp)
      | _ => exact Delivers.nothing (by simp)
  · rw [show entryAt c d s.nextOffset (file.ino, pos, active) = none by simp only [entryAt, hm]]
    refine Safe.modifyP ?_
    cases active with
    | true => exact Delivers.nothing (by simp)
    | false => exact Delivers.nothing (by simp)

theorem entryAt_eq_none {ino pos n : ℕ} {active : Bool}
    (h : ∀ (s : Subscription) b, againAt c d s (ino, pos, b) = none) :
    entryAt c d n (ino, pos, active) = none := by
  cases hparse : (recordParser c pos).parse ((d.data ino).drop pos) with
  | none => simp only [entryAt, hparse]
  | some found =>
    obtain ⟨r, m⟩ := found
    cases r with
    | error err => simp only [entryAt, hparse]
    | ok e =>
      -- A subscription that is behind the record would skip it.
      have hskip := h ⟨e.offset + 1, none, false⟩ true
      simp [againAt, hparse] at hskip

theorem safe_tryRound_delivers (dir : String) :
    Safe (bare fails) (tryRound c dir s) (Delivers fails d s.nextOffset (upcoming c d s)) d := by
  refine Safe.bindP (Safe.getP ?_)
  cases hfile : s.currentFile with
  | some opened =>
    obtain ⟨file, pos, active⟩ := opened
    refine Safe.getP ?_
    rw [hfile]
    have hplace : place c d s = some (file.ino, pos, active) := by simp [place, hfile]
    rw [upcoming, hplace, Option.bind_some]
    exact safe_readNext_delivers
  | none =>
    have hplace : place c d s = placeOf c d s.nextOffset := by simp [place, hfile]
    rw [upcoming, hplace]
    refine Safe.bindP (safe_openToOffset_still (fun r hr => ?_) dir)
    cases r with
    | error err =>
      rcases hr with hnone | hf
      · rw [hnone, Option.bind_none]
        exact .nothing (by simp)
      · exact .failed hf
    | ok opened =>
      cases opened with
      | none =>
        rcases hr with hnone | hf
        · rw [hnone, Option.bind_none]
          exact Delivers.nothing (by simp)
        · exact ⟨rfl, by simp, fun _ _ => .inr hf⟩
      | some opened =>
        obtain ⟨file, pos, active⟩ := opened
        have hread : Safe (bare fails) (readNext c file pos active
            { s with currentFile := some (file, pos, active) })
            (Delivers fails d s.nextOffset
              (entryAt c d s.nextOffset (file.ino, pos, active))) d :=
          safe_readNext_delivers
        rcases hr with hsome | ⟨hnone, hleft⟩
        · rw [hsome, Option.bind_some]
          exact hread
        · rw [hnone, Option.bind_none]
          rw [entryAt_eq_none hleft] at hread
          exact hread

end Subscription

/-- Whatever others do to the directory meanwhile: the count stays in `u64` unless
it was at the largest offset. -/
theorem Checked.says_round {c : Codec} {s : Subscription} (h : s.nextOffset < 2 ^ 64)
    (dir : String) :
    Says (Checked.round c dir s) fun x _ =>
      x.2.nextOffset < 2 ^ 64 ∧ (x.1 = .error .overflow → s.nextOffset = 2 ^ 64 - 1) := by
  rw [Checked.round_eq h]
  refine Says.bind ((Subscription.says_tryRound_counts dir s).mono ?_)
  rintro ⟨r, t⟩ tr ht
  cases r with
  | error err =>
    have hsame : t.nextOffset = s.nextOffset := ht.resolve_right (by simp)
    exact ⟨hsame.trans_lt h, nofun⟩
  | ok r =>
    cases r with
    | returned e =>
      have hle : t.nextOffset ≤ s.nextOffset + 1 := by
        rcases ht with hsame | ⟨-, hnext⟩
        · exact hsame.le.trans (Nat.le_succ _)
        · exact hnext.le
      by_cases hlast : t.nextOffset < 2 ^ 64
      · rw [Checked.check, if_pos hlast]
        exact ⟨hlast, nofun⟩
      · rw [Checked.check, if_neg hlast]
        refine ⟨?_, fun _ => by omega⟩
        change t.nextOffset - 1 < 2 ^ 64
        omega
    | again | wait =>
      have hsame : t.nextOffset = s.nextOffset := ht.resolve_right (by simp)
      exact ⟨hsame.trans_lt h, nofun⟩

theorem Checked.safe_round_still {c : Codec} {d : Disk FileName} {fails : Op FileName → Prop}
    {s : Subscription} (h : s.nextOffset < 2 ^ 64) (dir : String) :
    Safe (bare fails) (Checked.round c dir s) (fun _ d' => d' = d) d := by
  rw [Checked.round_eq h]
  exact Safe.bind ((Subscription.safe_tryRound_delivers dir).mono fun _ _ hx => hx.still)

/-- In an unchanged directory, whatever operations may fail: the count of a
subscription leaves `u64` exactly if the next record it comes to carries the
largest offset. -/
theorem Checked.round_overflows_iff {c : Codec} {d : Disk FileName} {fails : Op FileName → Prop}
    {s : Subscription} (h : s.nextOffset < 2 ^ 64) (dir : String) :
    (∃ d' s', Finishes (Step fails) d (Checked.round c dir s) d' (.error .overflow, s')) ↔
      s.nextOffset = 2 ^ 64 - 1 ∧ (Subscription.upcoming c d s).isSome = true := by
  rw [Checked.round_eq h]
  constructor
  · rintro ⟨d', s', hx⟩
    have hsafe : Safe (bare fails) (Subscription.tryRound c dir s >>= fun x =>
        .pure (Checked.settle (Checked.check x))) (fun y _ => y.1 = .error .overflow →
          s.nextOffset = 2 ^ 64 - 1 ∧ (Subscription.upcoming c d s).isSome = true) d := by
      refine Safe.bind ((Subscription.safe_tryRound_delivers dir).mono ?_)
      rintro ⟨r, t⟩ d₁ ⟨-, hcounted, -⟩
      cases r with
      | error err => exact nofun
      | ok r =>
        cases r with
        | returned e =>
          obtain ⟨hheld, hnext⟩ := hcounted e rfl
          dsimp only at hnext
          intro hover
          refine ⟨?_, by rw [hheld]; rfl⟩
          by_contra hlt
          rw [Checked.check, if_pos (by omega)] at hover
          cases hover
        | again => exact nofun
        | wait => exact nofun
    exact finishes_bare hx hsafe rfl
  · rintro ⟨hnext, hsome⟩
    obtain ⟨e, he⟩ := Option.isSome_iff_exists.mp hsome
    have hflows : Flows NoFail (Subscription.tryRound c dir s) fun _ => True :=
      Subscription.free_tryRound dir s
    obtain ⟨d', ⟨r, t⟩, hx, -⟩ := hflows.finishes d
    obtain ⟨-, hcounted, hsure⟩ := finishes_bare hx (Subscription.safe_tryRound_delivers dir)
    rcases hsure e he with hr | ⟨_, hf⟩
    · obtain rfl : r = .ok (.returned e) := hr
      have hcount := (hcounted e rfl).2
      dsimp only at hcount
      obtain ⟨tr, hx⟩ := hx
      refine ⟨d', { { t with nextOffset := t.nextOffset - 1 } with closed := true }, tr, ?_⟩
      have hbind := hx.bind fun x => (.pure (Checked.settle (Checked.check x)) :
        Prog (Resp (N := FileName)) _)
      rw [Prog.pure_bind, Checked.check, if_neg (by omega)] at hbind
      exact hbind.imp fun _ _ _ _ => Step.imp fun _ hf => hf.elim
    · exact hf.elim

end OtkCore.SegmentLog
