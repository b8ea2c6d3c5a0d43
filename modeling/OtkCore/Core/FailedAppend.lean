import OtkCore.Core.SegmentIngest
import OtkCore.SegmentLog.Atomicity
import OtkCore.SegmentLog.Exhaustion

/-!
# What a failed append leaves

Until its wake-up an append has committed nothing, and whatever fails the log
reads as before. Behind the wake-up it rolls the segment and reports what fails
there, so an append may fail with its batch in the log. The ingest service takes
every error for the first kind and stores the event once more.
-/
namespace OtkCore.SegmentLog

open Effect FileIO EventIngestService

variable {c : Codec} {d d' : Disk FileName} {l l' : Log}

/-- The logs that calls lead to, with the directory: any operation may fail at any
call. -/
inductive Served (c : Codec) : Disk FileName → Log → Prop
  | opened {fails : Op FileName → Prop} {config : SegmentLogConfig} {d₀ d : Disk FileName}
      {l : Log} (h₀ : Addressable d₀)
      (h : Finishes (Step fails) d₀ (openDir c config) d (.ok l)) : Served c d l
  | appended {fails : Op FileName → Prop} {d d' : Disk FileName} {l l' : Log}
      {producerId : String} {events : List OtkEvent} {r : Except StorageError ℕ}
      (prior : Served c d l)
      (h : Finishes (Step fails) d (append c producerId events l) d' (r, l')) : Served c d' l'
  | read {fails : Op FileName → Prop} {d d' : Disk FileName} {l l' : Log} {start : ℕ}
      {stop : Option ℕ} {r : Except StorageError (List LogEntry)} (prior : Served c d l)
      (h : Finishes (Step fails) d (readRange c start stop l) d' (r, l')) : Served c d' l'

def ReadsAs (c : Codec) (d : Disk FileName) (l : Log) (start : ℕ) (stop : Option ℕ)
    (r : Except StorageError (List LogEntry)) : Prop :=
  ∃ d' l', Finishes (Step NoFail) d (readRange c start stop l) d' (r, l')

structure AsBefore (c : Codec) (d : Disk FileName) (l : Log) (d' : Disk FileName) (l' : Log) :
    Prop where
  next : l'.nextOffset = l.nextOffset
  latest : l'.latestOffset = l.latestOffset
  ranges : ∀ start stop r, ReadsAs c d' l' start stop r ↔ ReadsAs c d l start stop r

theorem Storing.ne_notify {o : Op FileName} (h : Storing o) : o ≠ .notify := by
  rintro rfl
  exact h

def Silent (n : ℕ) (l : Log) (tr : List (Event (Resp (N := FileName)))) : Prop :=
  l.nextOffset = n ∧ ∀ e ∈ tr, e.1 ≠ .notify

/-- Some events are counted, and the subscriptions are woken. -/
def Rings (n k : ℕ) (l : Log) (tr : List (Event (Resp (N := FileName)))) : Prop :=
  l.nextOffset = n + k ∧ 0 < k ∧ ∃ e ∈ tr, e.1 = .notify

/-- A commit of `k` events fails silently, or it succeeds. -/
def Commits (n k : ℕ) (x : Except StorageError Unit × Log)
    (tr : List (Event (Resp (N := FileName)))) : Prop :=
  (∃ err, x.1 = .error err) ∧ Silent n x.2 tr ∨ x.1 = .ok () ∧ Rings n k x.2 tr

variable {n k : ℕ}

theorem Commits.prepend {x : Except StorageError Unit × Log}
    {tr tr' : List (Event (Resp (N := FileName)))} (h : Commits n k x tr')
    (hstoring : ∀ e ∈ tr, Storing e.1) : Commits n k x (tr ++ tr') := by
  rcases h with ⟨herr, hnext, hsilent⟩ | ⟨hok, hnext, hpos, e, he, hnotify⟩
  · refine .inl ⟨herr, hnext, fun e he => ?_⟩
    rcases List.mem_append.mp he with hfront | hback
    · exact (hstoring e hfront).ne_notify
    · exact hsilent e hback
  · exact .inr ⟨hok, hnext, hpos, e, List.mem_append_right _ he, hnotify⟩

theorem says_commits {α : Type} {t : Io Log α} {f : α → Io Log Unit} (hu : Uses Storing t)
    (hm : Maintains (fun l => l.nextOffset = n) t) (hl : l.nextOffset = n)
    (hf : ∀ a l', l'.nextOffset = n → Says (f a l') (Commits n k)) :
    Says ((t >>= f) l) (Commits n k) := by
  refine Says.bindP (((hm l hl).and (hu l).outcome).mono ?_)
  rintro ⟨r, l'⟩ tr ⟨hnext, hstoring⟩
  cases r with
  | ok a => exact (hf a l' hnext).mono fun x tr' hx => hx.prepend hstoring
  | error err => exact .inl ⟨⟨err, rfl⟩, hnext, fun e he => (hstoring e he).ne_notify⟩

theorem says_failed {err : StorageError} (hl : l.nextOffset = n) :
    Says ((Proc.throw err : Io Log Unit) l) (Commits n k) :=
  .inl ⟨⟨err, rfl⟩, hl, by simp⟩

theorem maintains_file {α : Type} (t : Io File α) :
    Maintains (fun l => l.nextOffset = n) (onActive t) :=
  Checked.maintains_onActive (fun _ _ h => h) t

theorem maintains_ensureActive : Maintains (fun l => l.nextOffset = n) ensureActive := by
  refine fun l hl => (Checked.says_ensureActive_any l).mono fun x _ hx => ?_
  rcases hx with hsame | ⟨-, -, a, -, -, hnew⟩
  · rw [hsame]
    exact hl
  · rw [hnew]
    exact hl

theorem says_appendCommit (producerId : String) (events : List OtkEvent) (l : Log) :
    Says (appendCommit c producerId events l) (Commits l.nextOffset events.length) := by
  refine Says.getP ?_
  split_ifs with hpoisoned hnil hname
  · exact says_failed rfl
  · exact says_failed rfl
  · exact says_failed rfl
  refine says_commits (uses_ensureActive.mono fun _ => Adding.storing) maintains_ensureActive rfl
    fun _ l₁ h₁ => ?_
  refine says_commits (.lift (.op trivial)) (.lift _) h₁ fun ts l₂ h₂ => Says.getP ?_
  refine says_commits (uses_seekActive _) (maintains_file _) h₂ fun _ l₃ h₃ => ?_
  refine says_commits (uses_onActive (uses_writeBatch _ _ _ _ _)) (maintains_file _) h₃
    fun positions l₄ h₄ => ?_
  refine says_commits (uses_onActive (uses_syncBatch _ _)) (maintains_file _) h₄
    fun _ l₅ h₅ => ?_
  have hend : Uses Storing batchEnd := uses_batchEnd.mono fun _ => Adding.storing
  refine says_commits (uses_onActive (.attempt hend)) (maintains_file _) h₅
    fun r l₆ h₆ => ?_
  cases r with
  | error err => exact Says.modifyP (says_failed h₆)
  | ok pos =>
    refine Says.modifyP (Says.lift fun r => .inr ⟨rfl, ?_, List.length_pos_of_ne_nil hnil, ⟨_, r⟩,
      List.mem_singleton_self _, rfl⟩)
    dsimp only
    rw [h₆]

theorem maintains_closeActive (a : ActiveSegment) :
    Maintains (fun l => l.nextOffset = n) (closeActive a) := by
  refine (maintains_file _).bind fun _ => (Checked.maintains_writeIndex _ _).attempt.bind fun r => ?_
  cases r with
  | error err => exact (maintains_file _).bind fun _ => .throw _
  | ok _ =>
    refine (maintains_file _).bind fun _ => (Maintains.modify fun l hl => ?_).bind fun _ =>
      Maintains.get.bind fun _ => (Checked.maintains_writeWatermark _).bind fun _ =>
        Checked.maintains_enforceRetention fun l hl => ?_
    · exact hl
    · exact hl

theorem maintains_appendRoll : Maintains (fun l => l.nextOffset = n) appendRoll := by
  have hshould : Maintains (fun l => l.nextOffset = n) shouldRoll := by
    refine fun l hl => (Checked.says_shouldRoll l).mono fun x _ hx => ?_
    rw [hx]
    exact hl
  have hroll : Maintains (fun l => l.nextOffset = n) rollSegment := by
    refine Maintains.get.bind fun l => ?_
    cases l.active with
    | none => exact .pure _
    | some a =>
      dsimp only
      split_ifs
      · refine (Maintains.modify fun l hl => ?_).bind fun _ => (Maintains.lift _).bind fun _ =>
          .pure _
        exact hl
      · exact maintains_closeActive a
  refine hshould.bind fun roll => ?_
  cases roll with
  | false => exact Maintains.get.bind fun _ => .pure _
  | true => exact hroll.bind fun _ => Maintains.get.bind fun _ => .pure _

/-- An append that has failed was silent, or the subscriptions were woken. -/
theorem says_append (producerId : String) (events : List OtkEvent) (l : Log) :
    Says (append c producerId events l) fun x tr => ∀ err, x.1 = .error err →
      Silent l.nextOffset x.2 tr ∨ Rings l.nextOffset events.length x.2 tr := by
  refine Says.bindP ((says_appendCommit producerId events l).mono ?_)
  rintro ⟨r, l₁⟩ tr (⟨⟨err, rfl⟩, hsilent⟩ | ⟨rfl, hnext, hpos, e, he, hnotify⟩)
  · exact fun _ _ => .inl hsilent
  · refine (maintains_appendRoll l₁ hnext).mono fun x tr' hx _ _ => .inr ⟨hx, hpos, e, ?_, hnotify⟩
    exact List.mem_append_left _ he

/-- Offsets stay in `u64`, and an append that fails has moved nothing unless it counted
its events. -/
theorem Held.safe_append_moves {fails : Op FileName → Prop} (h : Held c d l)
    (hnext : l.nextOffset < 2 ^ 64) (producerId : String) (events : List OtkEvent) :
    Safe (bare fails) (append c producerId events l) (fun x d' => x.2.nextOffset < 2 ^ 64 ∧
      ∀ err, x.1 = .error err → Unmoved d l d' x.2 ∨
        x.2.nextOffset = l.nextOffset + events.length ∧ 0 < events.length) d := by
  let Q (x : Except StorageError Unit × Log) (d' : Disk FileName) : Prop :=
    (∃ err, x.1 = .error err) ∧ Unmoved d l d' x.2 ∨
      x.1 = .ok () ∧ l.nextOffset + events.length < 2 ^ 64
  have hcommit : Safe (bare fails) (appendCommit c producerId events l) Q d :=
    h.safe_appendCommit hnext producerId events (fun _ _ _ _ _ _ hlt => .inr ⟨rfl, hlt⟩)
      fun err _ _ _ hu _ => .inl ⟨⟨err, rfl⟩, hu⟩
  refine Safe.bindP (((says_appendCommit producerId events l).and_safe hcommit).mono ?_)
  rintro ⟨r, l₁⟩ d₁ ⟨hq, tr, hsays⟩
  cases r with
  | error err =>
    obtain ⟨-, hu⟩ | ⟨hok, -⟩ := hq
    · exact ⟨hu.next ▸ hnext, fun _ _ => .inl hu⟩
    · cases hok
  | ok _ =>
    obtain ⟨⟨err, herr⟩, -⟩ | ⟨-, hlt⟩ := hq
    · cases herr
    obtain ⟨⟨err, herr⟩, -⟩ | ⟨-, hmoved, hpos, -⟩ := hsays
    · cases herr
    have hroll := (maintains_appendRoll l₁ hmoved).safe (T := bare fails) (w := d₁)
      fun w o r s' _ => ⟨s', rfl, trivial⟩
    refine hroll.mono fun x d' hx => ?_
    obtain ⟨-, hx⟩ := hx
    exact ⟨hx ▸ hlt, fun _ _ => .inr ⟨hx, hpos⟩⟩

theorem Served.held (h : Served c d l) : Held c d l ∧ l.nextOffset < 2 ^ 64 := by
  induction h with
  | opened h₀ h =>
    obtain ⟨hheld, hrep, -⟩ := (finishes_bare h (safe_openDir_loading h₀ _)).2 _ rfl
    exact ⟨hheld, hrep.next⟩
  | appended prior h ih =>
    obtain ⟨hheld, hnext⟩ := ih
    exact ⟨finishes_bare h (hheld.safe_append hnext _ _),
      (finishes_bare h (hheld.safe_append_moves hnext _ _)).1⟩
  | read prior h ih =>
    obtain ⟨hheld, hnext⟩ := ih
    obtain ⟨rfl, hmoved, -⟩ := finishes_bare h (reads_readRange (c := c) _ _ _)
    refine ⟨hheld.moved hmoved, ?_⟩
    obtain ⟨q, rfl⟩ := hmoved
    exact hnext

/-- Without failures a range read returns what the directory holds. -/
theorem readsAs_iff {start : ℕ} {stop : Option ℕ} {r : Except StorageError (List LogEntry)} :
    ReadsAs c d l start stop r ↔ r = rangeAt c d l start stop := by
  have honly : ∀ {d' r l'}, Finishes (Step NoFail) d (readRange c start stop l) d' (r, l') →
      r = rangeAt c d l start stop := by
    intro d' r l' hx
    obtain ⟨-, -, hr | ⟨⟨o, ho⟩, -⟩⟩ := finishes_bare hx (reads_readRange l start stop)
    · exact hr
    · exact absurd ho id
  constructor
  · rintro ⟨d', l', hx⟩
    exact honly hx
  · rintro rfl
    obtain ⟨d', ⟨r, l'⟩, hx, -⟩ := (free_readRange (c := c) start stop l).finishes d
    obtain rfl := honly hx
    exact ⟨d', l', hx⟩

theorem Unmoved.latestOffset_eq (h : Unmoved d l d' l') : l'.latestOffset = l.latestOffset := by
  unfold Log.latestOffset
  rw [h.closed, h.next]
  cases ha : l.active with
  | some a =>
    obtain ⟨q, hq⟩ := h.active a ha
    by_cases hnil : a.positions = [] <;> simp [hq, Option.filter, hnil]
  | none =>
    cases ha' : l'.active with
    | none => rfl
    | some a =>
      have hnil := (h.fresh ha a ha').1
      simp [Option.filter, hnil]

theorem Unmoved.asBefore (h : Unmoved d l d' l') (hheld : Held c d l) : AsBefore c d l d' l' where
  next := h.next
  latest := h.latestOffset_eq
  ranges start stop r := by rw [readsAs_iff, readsAs_iff, h.rangeAt_eq hheld]

/-- After an error the service is ready to append the event again. -/
theorem appendEvent_retries {fails : Op FileName → Prop} {s s' : SegmentIngest}
    {producerId : String} {event : OtkEvent} {crossingId discardedId : CrossingId}
    {err : StorageError}
    (hx : Finishes (Step fails) d (s.appendEvent c producerId event crossingId discardedId) d'
      (.error err, s')) :
    s'.gate = s.gate ∧ s'.processor = s.processor ∧
      ∃ pendingGap, ∀ crossingId' discardedId',
        let batch := event :: deriveCrossings s'.processor crossingId' event
        s'.appendEvent c producerId event crossingId' discardedId' =
          append c producerId batch s'.log >>= fun x =>
            .pure (s'.finish producerId pendingGap batch discardedId' x) := by
  unfold SegmentIngest.appendEvent at hx
  cases hverdict : gateVerdict s.gate producerId event with
  | none =>
    rw [hverdict] at hx
    obtain ⟨tr, hx⟩ := hx
    cases hx
  | some pendingGap =>
    rw [hverdict] at hx
    obtain ⟨⟨r, l'⟩, -, hfinish⟩ := finishes_bind_pure.mp hx
    cases r with
    | ok n => cases hfinish
    | error err' =>
      obtain ⟨-, rfl⟩ := Prod.mk.inj hfinish
      refine ⟨rfl, rfl, pendingGap, fun crossingId' discardedId' => ?_⟩
      rw [SegmentIngest.appendEvent, hverdict]

/-- A new log whose appends all roll the segment. -/
def rollingLog : Log := ⟨{ maxSegmentBytes := 1 }, [], none, 0, false⟩

theorem served_empty (c : Codec) (config : SegmentLogConfig) :
    Served c .empty ⟨config, [], none, 0, false⟩ :=
  .opened addressable_empty (finishes_openDir_empty config)

/-- A first append fails in the sync of its roll, a second one does not. -/
theorem simulate_retry :
    ((simulate 0 (append sampleCodec "p" [sampleHealth] rollingLog)
      (List.replicate 11 false ++ [true]) .empty).bind fun x =>
      (simulate 0 (append sampleCodec "p" [sampleHealth] x.2.2) [] x.1).bind fun y =>
        (simulate 0 (readRange sampleCodec 0 none y.2.2) [] y.1).map fun z =>
          ((x.2.2.nextOffset, x.2.1), y.2.1, z.2.1)) =
      some ((1, .error (.io .other)), .ok 1,
        .ok [⟨0, 0, "p", sampleHealth⟩, ⟨1, 0, "p", sampleHealth⟩]) := by
  decide +kernel

def rollingService : SegmentIngest := .new rollingLog {} .new

theorem simulate_service :
    (simulate 0 (rollingService.appendEvent sampleCodec "p" sampleHealth ⟨"a"⟩ ⟨"b"⟩)
      (List.replicate 11 false ++ [true]) .empty).map (fun x => x.2.1) =
      some (.error (.io .other)) := by
  decide +kernel

end OtkCore.SegmentLog
