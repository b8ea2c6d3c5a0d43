import OtkCore.SegmentLog.Faithful
import OtkCore.Lib.Outcome

/-!
# Logs in order

A loaded log is in order if each segment begins where the one before it ends.
What follows from that for every range read and every append, whatever the
files contain and whatever the file system answers.
-/
namespace OtkCore.SegmentLog

open Effect FileIO Bytes

variable {c : Codec}

/-- Each segment begins where the one before it ends, the active one is the
last, and the next offset is its end. -/
def InOrder (l : Log) : Prop := ∃ start, Covers start l.ranges l.nextOffset

/-- Every closed segment has as many positions as offsets. -/
def Sized (segs : List ClosedSegment) : Prop :=
  ∀ cs ∈ segs, cs.positions ≠ [] ∧ cs.baseOffset + cs.positions.length = cs.lastOffset + 1

theorem says_readRecords (offset : ℕ) (positions : List ℕ) (f : File) :
    Says (readRecords c offset positions f) fun x _ =>
      ∀ es, x.1 = .ok es → es.map LogEntry.offset = List.range' offset positions.length := by
  induction positions generalizing offset f with
  | nil =>
    intro es hes
    obtain rfl := Except.ok.inj hes
    rfl
  | cons pos rest ih =>
    rw [readRecords]
    refine Says.bindP ((Says.any _).mono ?_)
    rintro ⟨r, f'⟩ tr -
    cases r with
    | error err => simp
    | ok entry =>
      dsimp only
      split_ifs with hoff
      · simp [Says]
      · refine Says.bindP ((ih (offset + 1) f').mono ?_)
        rintro ⟨r, f''⟩ tr' hrest
        cases r with
        | error err => simp
        | ok entries =>
          intro es hes
          obtain rfl := Except.ok.inj hes
          rw [List.map_cons, hrest entries rfl, List.length_cons, List.range'_succ,
            not_not.mp hoff]

theorem length_positionsOf {base first last : ℕ} {positions : List ℕ} (hfirst : base ≤ first)
    (hlast : last ≤ base + positions.length) :
    (positionsOf base first last positions).length = last - first := by
  rw [positionsOf, List.length_take, List.length_drop]
  omega

/-- The offsets of `[start, stop)` from `s` to `e`. -/
def offsetsIn (start stop s e : ℕ) : List ℕ :=
  List.range' (max start s) (min stop e - max start s)

theorem offsetsIn_append {start stop s mid e : ℕ} (h₁ : s ≤ mid) (h₂ : mid ≤ e) :
    offsetsIn start stop s mid ++ offsetsIn start stop mid e = offsetsIn start stop s e := by
  unfold offsetsIn
  rcases Nat.le_total mid start with hstart | hstart
  · have h0 : min stop mid - max start s = 0 := by omega
    rw [h0, List.range'_zero, List.nil_append, show max start mid = max start s by omega]
  rcases Nat.le_total stop mid with hstop | hstop
  · have h0 : min stop e - max start mid = 0 := by omega
    rw [h0, List.range'_zero, List.append_nil, show min stop mid = min stop e by omega]
  · have hmid : max start s + (min stop mid - max start s) = max start mid := by omega
    rw [← hmid, List.range'_append_1]
    congr 1
    omega

theorem Covers.le {s e : ℕ} {xs : List (ℕ × ℕ)} (h : Covers s xs e) : s ≤ e := by
  induction xs generalizing s with
  | nil => exact le_of_eq h
  | cons x xs ih =>
    have hrest := ih h.2.2
    have hle := h.2.1
    rw [h.1] at hle
    omega

/-- The closed segments of a range, if they cover `[s, e)`. -/
theorem says_readClosed {segs : List ClosedSegment} (hsized : Sized segs) (start stop : ℕ) {s e : ℕ}
    (hcov : Covers s (segs.map fun cs => (cs.baseOffset, cs.lastOffset + 1)) e) (l : Log) :
    Says (readClosed c start stop segs l) fun x _ => x.2 = l ∧
      ∀ es, x.1 = .ok es → es.map LogEntry.offset = offsetsIn start stop s e := by
  induction segs generalizing s l with
  | nil =>
    refine ⟨rfl, fun es hes => ?_⟩
    obtain rfl := Except.ok.inj hes
    have hse : s = e := hcov
    rw [offsetsIn, show min stop e - max start s = 0 by omega]
    rfl
  | cons cs segs ih =>
    obtain ⟨hbase, hle, hrest⟩ := hcov
    have hend := hrest.le
    obtain ⟨hne, hcount⟩ := hsized cs List.mem_cons_self
    have hpos := List.length_pos_of_ne_nil hne
    have ih := fun l => ih (fun cs' h => hsized cs' (List.mem_cons_of_mem _ h)) hrest l
    rw [readClosed]
    split_ifs with hlow hhigh
    · refine (ih l).mono fun x _ hx => ⟨hx.1, fun es hes => ?_⟩
      rw [hx.2 es hes, offsetsIn, offsetsIn, show max start (cs.lastOffset + 1) = max start s by omega]
    · refine ⟨rfl, fun es hes => ?_⟩
      obtain rfl := Except.ok.inj hes
      rw [offsetsIn, show min stop e - max start s = 0 by omega]
      rfl
    · dsimp only
      refine Says.bindP (Says.mapError (Says.liftE fun r => ?_))
      cases r with
      | error k => exact ⟨rfl, by simp⟩
      | ok ino =>
        refine Says.bindP (Says.on ((says_readRecords _ _ _).mono ?_))
        rintro ⟨r, f⟩ tr hread
        cases r with
        | error err => exact ⟨rfl, by simp⟩
        | ok entries =>
          refine Says.bindP ((ih l).mono ?_)
          rintro ⟨r, l'⟩ tr' ⟨hl, hmore⟩
          cases r with
          | error err => exact ⟨hl, by simp⟩
          | ok more =>
            refine ⟨hl, fun es hes => ?_⟩
            obtain rfl := Except.ok.inj hes
            have hfirst := hread entries rfl
            rw [length_positionsOf (Nat.le_max_right _ _) (by omega)] at hfirst
            rw [List.map_append, hfirst, hmore more rfl, ← hbase]
            exact offsetsIn_append (by omega) hend

theorem says_readActive {l : Log} (start stop : ℕ) {a : ActiveSegment} (ha : l.active = some a) :
    Says (readActive c start stop l) fun x _ => ∀ es, x.1 = .ok es →
      es.map LogEntry.offset =
        offsetsIn start stop a.baseOffset (a.baseOffset + a.positions.length) := by
  refine Says.getP ?_
  rw [ha]
  dsimp only
  split_ifs with hin
  · unfold onActive
    rw [ha]
    refine Says.bind ((says_readRecords _ _ _).mono ?_)
    rintro ⟨r, f⟩ tr hread es hes
    dsimp only at hes hread
    rw [hread es hes, length_positionsOf (Nat.le_max_right _ _) (by omega)]
    rfl
  · intro es hes
    obtain rfl := Except.ok.inj hes
    have h0 : min stop (a.baseOffset + a.positions.length) - max start a.baseOffset = 0 := by
      by_cases hnil : a.positions = []
      · rw [hnil, List.length_nil]
        omega
      · have hor : ¬ a.baseOffset < stop ∨ ¬ a.baseOffset + a.positions.length > start := by
          by_contra hboth
          push Not at hboth
          exact hin ⟨hboth.1, hnil, hboth.2⟩
        omega
    rw [offsetsIn, h0]
    rfl

theorem Covers.split {s e : ℕ} {xs ys : List (ℕ × ℕ)} (h : Covers s (xs ++ ys) e) :
    ∃ mid, Covers s xs mid ∧ Covers mid ys e := by
  induction xs generalizing s with
  | nil => exact ⟨s, rfl, h⟩
  | cons x xs ih =>
    obtain ⟨mid, hx, hy⟩ := ih h.2.2
    exact ⟨mid, ⟨h.1, h.2.1, hx⟩, hy⟩

/-- A read that passes the retention checks starts at or after the first
segment. -/
theorem Covers.le_start {l : Log} {first start : ℕ} (h : Covers first l.ranges l.nextOffset)
    (hlt : start < l.nextOffset) (hfull : ¬ l.isFullyEvicted = true)
    (hearly : ¬ l.earliestOffset.any (start < ·) = true) : first ≤ start := by
  unfold Log.ranges at h
  unfold Log.earliestOffset at hearly
  unfold Log.isFullyEvicted at hfull
  cases hclosed : l.closed with
  | cons cs rest =>
    rw [hclosed] at h hearly
    have hbase : cs.baseOffset = first := h.1
    simp only [Option.any_some, decide_eq_true_eq] at hearly
    omega
  | nil =>
    rw [hclosed] at h hearly hfull
    cases ha : l.active with
    | none =>
      rw [ha] at hfull
      simp only [List.isEmpty_nil, Option.all_none, Bool.and_self, Bool.true_and,
        decide_eq_true_eq] at hfull
      omega
    | some a =>
      rw [ha] at h hearly hfull
      have hbase : a.baseOffset = first := h.1
      by_cases hnil : a.positions = []
      · simp only [hnil, List.isEmpty_nil, Option.all_some, Bool.and_self, Bool.true_and,
          decide_eq_true_eq] at hfull
        omega
      · simp only [hnil, Option.bind_some, if_false, Option.any_some, decide_eq_true_eq] at hearly
        omega

/-- The offsets a log in order returns follow each other from the start of the
range on. -/
theorem InOrder.says_readRange {l : Log} (h : InOrder l) (hsized : Sized l.closed) (start : ℕ)
    (stop : Option ℕ) :
    Says (readRange c start stop l) fun x _ => ∀ es, x.1 = .ok es →
      es.map LogEntry.offset = List.range' start es.length := by
  have hnil : ∀ es : List LogEntry, (.ok [] : Except StorageError (List LogEntry)) = .ok es →
      es.map LogEntry.offset = List.range' start es.length := by
    intro es hes
    obtain rfl := Except.ok.inj hes
    rfl
  obtain ⟨first, hcov⟩ := h
  refine Says.getP ?_
  split_ifs with hempty hend hfull hearly
  · exact hnil
  · exact hnil
  · simp [Says]
  · simp [Says]
  · have hfirst := hcov.le_start (by omega) hfull hearly
    obtain ⟨mid, hclosed, hactive⟩ := Covers.split hcov
    have hfirstMid := hclosed.le
    have hmidNext := hactive.le
    refine Says.bindP ((says_readClosed hsized start _ hclosed l).mono ?_)
    rintro ⟨r, l'⟩ tr ⟨hl, hold⟩
    obtain rfl : l' = l := hl
    have hactiveSays : Says (readActive c start (stop.getD (2 ^ 64 - 1)) l') fun x _ =>
        ∀ es, x.1 = .ok es → es.map LogEntry.offset =
          offsetsIn start (stop.getD (2 ^ 64 - 1)) mid l'.nextOffset := by
      cases ha : l'.active with
      | some a =>
        rw [ha] at hactive
        have hbase : a.baseOffset = mid := hactive.1
        have hnext : a.baseOffset + a.positions.length = l'.nextOffset := hactive.2.2
        have hsays := says_readActive (c := c) start (stop.getD (2 ^ 64 - 1)) ha
        rwa [hnext, hbase] at hsays
      | none =>
        rw [ha] at hactive
        have hnext : mid = l'.nextOffset := hactive
        refine Says.getP ?_
        rw [ha]
        intro es hes
        obtain rfl := Except.ok.inj hes
        rw [offsetsIn, show min (stop.getD (2 ^ 64 - 1)) l'.nextOffset - max start mid = 0 by omega]
        rfl
    cases r with
    | error err => simp
    | ok old =>
      refine Says.bindP (hactiveSays.mono ?_)
      rintro ⟨r, l''⟩ tr' hnew
      cases r with
      | error err => simp
      | ok new =>
        intro es hes
        obtain rfl := Except.ok.inj hes
        have hmap : (old ++ new).map LogEntry.offset =
            offsetsIn start (stop.getD (2 ^ 64 - 1)) first l'.nextOffset := by
          rw [List.map_append, hold old rfl, hnew new rfl]
          exact offsetsIn_append hfirstMid hmidNext
        have hlen := congrArg List.length hmap
        rw [List.length_map, offsetsIn, List.length_range'] at hlen
        rw [hmap, offsetsIn, hlen, Nat.max_eq_left hfirst]

theorem says_writeBatch (ts : ℕ) (producerId : String) (batchStart offset : ℕ)
    (events : List OtkEvent) (f : File) :
    Says (writeBatch c ts producerId batchStart offset events f) fun x _ =>
      ∀ positions, x.1 = .ok positions → positions.length = events.length := by
  induction events generalizing offset f with
  | nil =>
    intro positions hp
    obtain rfl := Except.ok.inj hp
    rfl
  | cons event rest ih =>
    have herr : ∀ (err : StorageError) (f : File),
        Says ((do
          let _ ← Proc.attempt (File.setLen FileName batchStart)
          Proc.throw err : Io File (List ℕ)) f) fun x _ =>
            ∀ positions, x.1 = .ok positions → positions.length = (event :: rest).length := by
      intro err f
      refine Says.bindP (Says.attempt ((Says.any _).mono fun x _ _ => ?_))
      simp [Says]
    rw [writeBatch]
    split_ifs
    · exact herr _ f
    · refine Says.bindP (Says.attempt ((Says.any _).mono ?_))
      rintro ⟨r, f'⟩ tr -
      cases r with
      | error err => exact (herr err f').mono fun x _ hx => hx
      | ok pos =>
        refine Says.bindP ((ih (offset + 1) f').mono ?_)
        rintro ⟨r, f''⟩ tr' hrest
        cases r with
        | error err => simp
        | ok positions =>
          intro positions' hp
          obtain rfl := Except.ok.inj hp
          rw [List.length_cons, List.length_cons, hrest positions rfl]

theorem says_onActive {α : Type} {t : Io File α} {l : Log} {a : ActiveSegment}
    {Q : Except StorageError α × Log → List (Event (Resp (N := FileName))) → Prop}
    (ha : l.active = some a) (h : Says (t a.file) fun x tr => Q (x.1, l.setFile x.2) tr) :
    Says (onActive t l) Q := by
  unfold onActive
  rw [ha]
  refine Says.bind (h.mono ?_)
  rintro ⟨r, f⟩ tr hx
  simpa [Says, Log.setFile, ha] using hx

/-- The active segment, if there is one, ends with the next offset. -/
def Ends (l : Log) : Prop :=
  ∀ a, l.active = some a → a.baseOffset + a.positions.length = l.nextOffset

theorem Ends.says_ensureActive {l : Log} (h : Ends l) :
    Says (ensureActive l) fun x _ => ∀ u, x.1 = .ok u →
      Ends x.2 ∧ x.2.active.isSome = true ∧ x.2.nextOffset = l.nextOffset := by
  refine Says.getP ?_
  cases ha : l.active with
  | some a => exact fun _ _ => ⟨h, by simp [ha], rfl⟩
  | none =>
    refine Says.bindP (Says.lift fun ts => ?_)
    refine Says.bindP (Says.mapError (Says.liftE fun r => ?_))
    cases r with
    | error k =>
      intro u hu
      cases hu
    | ok ino =>
      refine Says.bindP (Says.on ((Says.any _).mono ?_))
      rintro ⟨r, f⟩ tr -
      cases r with
      | error err =>
        intro u hu
        cases hu
      | ok _ =>
        refine Says.bindP (Says.lift fun r => ?_)
        intro _ _
        refine ⟨fun a ha => ?_, rfl, rfl⟩
        obtain rfl := Option.some.inj ha
        rfl

/-- A batch that commits: its records stand in the active segment at the places
that their offsets say. -/
theorem Ends.says_appendCommit {l : Log} (h : Ends l) (producerId : String)
    (events : List OtkEvent) :
    Says (appendCommit c producerId events l) fun x _ => ∀ u, x.1 = .ok u →
      Ends x.2 ∧ x.2.active.isSome = true ∧ x.2.nextOffset = l.nextOffset + events.length := by
  refine Says.getP ?_
  split_ifs
  · simp [Says]
  · simp [Says]
  · simp [Says]
  refine Says.bindP (h.says_ensureActive.mono ?_)
  rintro ⟨r, l₁⟩ tr hl₁
  cases r with
  | error err => simp
  | ok _ =>
    obtain ⟨hends, hsome, hnext⟩ := hl₁ () rfl
    obtain ⟨a, ha⟩ := Option.isSome_iff_exists.mp hsome
    dsimp only at ha
    refine Says.bindP (Says.lift fun ts => Says.getP ?_)
    refine Says.bindP (says_onActive ha ((Says.any _).mono ?_))
    rintro ⟨r, f₁⟩ tr -
    cases r with
    | error err => simp
    | ok _ =>
      refine Says.bindP (says_onActive (Log.setFile_active ha) ((says_writeBatch _ _ _ _ _ _).mono ?_))
      rintro ⟨r, f₂⟩ tr hpositions
      cases r with
      | error err => simp
      | ok positions =>
        have hlen : positions.length = events.length := hpositions positions rfl
        refine Says.bindP (says_onActive (Log.setFile_active (Log.setFile_active ha))
          ((Says.any _).mono ?_))
        rintro ⟨r, f₃⟩ tr -
        cases r with
        | error err => simp
        | ok _ =>
          refine Says.bindP (says_onActive
            (Log.setFile_active (Log.setFile_active (Log.setFile_active ha)))
            (Says.attempt ((Says.any _).mono ?_)))
          rintro ⟨r, f₄⟩ tr -
          cases r with
          | error k =>
            refine Says.modifyP ?_
            simp [Says]
          | ok newFilePos =>
            refine Says.modifyP (Says.lift fun _ => ?_)
            intro _ _
            have hold := hends a ha
            dsimp only at hold hnext
            refine ⟨fun a' ha' => ?_, ?_, ?_⟩
            · simp only [Log.setFile, ha, Option.map_some, Option.some.injEq] at ha'
              subst ha'
              simp only [List.length_append, hlen, Log.setFile]
              omega
            · simp [Log.setFile, ha]
            · simp only [Log.setFile]
              omega

end OtkCore.SegmentLog
