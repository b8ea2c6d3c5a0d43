import OtkCore.Conformance.MemLog
import Mathlib.Data.List.Induction

/-!
# Subscriptions to the reference log

Calls on the reference log in any order, by several readers. A pending
`next_entry` gives way to other calls between the sections that hold the lock.
-/
namespace OtkCore.Conformance

open SegmentLog

namespace MemLog

def evictAll (m : MemLog) : MemLog := { m with earliestRetained := some m.entries.length }

def boundary (m : MemLog) : ℕ := m.earliestRetained.getD 0

def expired (m : MemLog) (cursor : ℕ) : Option StorageError :=
  (m.earliestRetained.filter (cursor < ·)).map fun earliest =>
    .retentionExpired cursor (earliestAvailableOffset earliest m.entries.length)

end MemLog

/-- Where a pending `next_entry` stands: about to look for an entry, about to
register for a wake-up, about to look again, or waiting. Once registered it may
have been woken. -/
inductive Pending
  | reading
  | enabling
  | checking (woken : Bool)
  | awaiting (woken : Bool)
  deriving DecidableEq

def Pending.notify : Pending → Pending
  | .checking _ => .checking true
  | .awaiting _ => .awaiting true
  | p => p

/-- What `next_entry` returns. -/
abbrev Answer := Option (Except StorageError LogEntry)

structure MemSubscription where
  cursor : ℕ
  closed : Bool
  pending : Option Pending
  deriving DecidableEq

namespace MemSubscription

def notify (s : MemSubscription) : MemSubscription :=
  { s with pending := s.pending.map Pending.notify }

/-- `next_entry` up to its first lock; an answer ends the call. -/
def nextEntry (s : MemSubscription) : Option Answer × MemSubscription :=
  if s.closed then (some none, s) else (none, { s with pending := some .reading })

/-- The next section of a pending `next_entry`. -/
def advance (m : MemLog) (s : MemSubscription) : Option Answer × MemSubscription :=
  match s.pending with
  | none => (none, s)
  | some .reading =>
    match m.expired s.cursor with
    | some err => (some (some (.error err)), { s with pending := none })
    | none =>
      match m.entries[s.cursor]? with
      | some entry => (some (some (.ok entry)), { s with cursor := s.cursor + 1, pending := none })
      | none => (none, { s with pending := some .enabling })
  | some .enabling => (none, { s with pending := some (.checking false) })
  | some (.checking woken) =>
    match m.expired s.cursor with
    | some err => (some (some (.error err)), { s with pending := none })
    | none =>
      if s.cursor < m.entries.length then (none, { s with pending := some .reading })
      else if s.closed then (some none, { s with pending := none })
      else (none, { s with pending := some (.awaiting woken) })
  | some (.awaiting false) => (none, s)
  | some (.awaiting true) =>
    if s.closed then (some none, { s with pending := none })
    else (none, { s with pending := some .reading })

end MemSubscription

/-- The log and its readers, in the order of their subscriptions. -/
structure MemState where
  log : MemLog
  readers : List MemSubscription
  deriving DecidableEq

/-- A call, or the next section of a pending `next_entry`, which may also be
dropped. -/
inductive Call
  | append (producerId : String) (events : List OtkEvent) (times : ℕ → ℕ)
  | evictBelow (boundary : ℕ)
  | evictAll
  | readRange (start : ℕ) (stop : Option ℕ)
  | subscribe (start : ℕ)
  | nextEntry (reader : ℕ)
  | advance (reader : ℕ)
  | drop (reader : ℕ)
  | close (reader : ℕ)

/-- What the caller sees; nothing while a `next_entry` is pending. -/
inductive Output
  | silent
  | appended (r : Except StorageError ℕ)
  | range (r : Except StorageError (List LogEntry))
  | subscribed (r : Except StorageError ℕ)
  | answered (reader : ℕ) (a : Answer)

namespace MemState

def start : MemState := ⟨.new, []⟩

def notifyWaiters (st : MemState) : MemState :=
  { st with readers := st.readers.map MemSubscription.notify }

def onReader (st : MemState) (k : ℕ)
    (t : MemSubscription → Option Answer × MemSubscription) : Output × MemState :=
  match st.readers[k]? with
  | none => (.silent, st)
  | some s =>
    let (a, s') := t s
    ((a.map (Output.answered k)).getD .silent, { st with readers := st.readers.set k s' })

/-- `next_entry` and `close` borrow the subscription, so they never meet a pending
call. -/
def step (st : MemState) : Call → Output × MemState
  | .append producerId events times =>
    let (r, log) := st.log.append producerId events times
    match r with
    | .error e => (.appended (.error e), st)
    | .ok last => (.appended (.ok last), { st with log := log }.notifyWaiters)
  | .evictBelow boundary =>
    (.silent, { st with log := st.log.evictBelow boundary }.notifyWaiters)
  | .evictAll => (.silent, { st with log := st.log.evictAll }.notifyWaiters)
  | .readRange start stop => (.range (st.log.readRange start stop), st)
  | .subscribe start =>
    match st.log.subscribe start with
    | .error e => (.subscribed (.error e), st)
    | .ok cursor =>
      (.subscribed (.ok cursor), { st with readers := st.readers ++ [⟨cursor, false, none⟩] })
  | .nextEntry k =>
    st.onReader k fun s => if s.pending = none then s.nextEntry else (none, s)
  | .advance k => st.onReader k (MemSubscription.advance st.log)
  | .drop k => st.onReader k fun s => (none, { s with pending := none })
  | .close k =>
    match st.readers[k]? with
    | none => (.silent, st)
    | some s =>
      if s.pending = none then
        (.silent, { st with readers := st.readers.set k { s with closed := true } }.notifyWaiters)
      else (.silent, st)

def after (st : MemState) (calls : List Call) : MemState :=
  calls.foldl (fun st call => (st.step call).2) st

def outputs : MemState → List Call → List Output
  | _, [] => []
  | st, call :: rest => (st.step call).1 :: outputs (st.step call).2 rest

theorem after_append (st : MemState) (before rest : List Call) :
    st.after (before ++ rest) = (st.after before).after rest := List.foldl_append

theorem outputs_append (st : MemState) (before rest : List Call) :
    st.outputs (before ++ rest) = st.outputs before ++ (st.after before).outputs rest := by
  induction before generalizing st with
  | nil => rfl
  | cons call before ih => exact congrArg ((st.step call).1 :: ·) (ih (st.step call).2)

end MemState

/-- The offset that an output reports as expired. -/
def Output.expired? : Output → Option ℕ
  | .range (.error (.retentionExpired o _)) => some o
  | .subscribed (.error (.retentionExpired o _)) => some o
  | .answered _ (some (.error (.retentionExpired o _))) => some o
  | _ => none

def Output.entries : Output → List LogEntry
  | .range (.ok es) => es
  | .answered _ (some (.ok e)) => [e]
  | _ => []

def starts (outs : List Output) : List ℕ :=
  outs.filterMap fun
    | .subscribed (.ok start) => some start
    | _ => none

def delivered (k : ℕ) (outs : List Output) : List LogEntry :=
  outs.filterMap fun
    | .answered j (some (.ok e)) => if j = k then some e else none
    | _ => none

/-- An answer after which there are to be no more entries. -/
def Answer.Terminal : Answer → Prop
  | some (.ok _) => False
  | _ => True

/-- What the reference log promises over a sequence of calls. -/
structure Honours (calls : List Call) : Prop where
  boundary : ∀ before between rest, calls = before ++ between ++ rest →
    (MemState.start.after before).log.boundary ≤
      (MemState.start.after (before ++ between)).log.boundary
  earliest : ∀ before between rest, calls = before ++ between ++ rest → ∀ a b,
    (MemState.start.after before).log.earliestOffset = some a →
    (MemState.start.after (before ++ between)).log.earliestOffset = some b → a ≤ b
  expired : ∀ before call rest, calls = before ++ call :: rest → ∀ o,
    ((MemState.start.after before).step call).1.expired? = some o →
    ∀ out ∈ ((MemState.start.after before).step call).2.outputs rest,
      ∀ e ∈ out.entries, e.offset ≠ o
  consecutive : ∀ k start, (starts (MemState.start.outputs calls))[k]? = some start →
    ∃ n, (delivered k (MemState.start.outputs calls)).map LogEntry.offset = List.range' start n
  terminal : ∀ before call rest, calls = before ++ call :: rest → ∀ k a,
    ((MemState.start.after before).step call).1 = .answered k a → Answer.Terminal a →
    delivered k (((MemState.start.after before).step call).2.outputs rest) = []

def NeverLowers : MemState → List Call → Prop
  | _, [] => True
  | st, call :: rest =>
    (∀ b, call = .evictBelow b → st.log.boundary ≤ min b st.log.entries.length) ∧
      NeverLowers (st.step call).2 rest

section Step

variable {st : MemState} {m : MemLog}

theorem expired_eq_none_iff {cursor : ℕ} : m.expired cursor = none ↔ m.boundary ≤ cursor := by
  cases hm : m.earliestRetained with
  | none => simp [MemLog.expired, MemLog.boundary, hm]
  | some e => simp [MemLog.expired, MemLog.boundary, hm, Option.filter]

/-- The same reader, perhaps at another point of its call. -/
def Stays (s s' : MemSubscription) : Prop :=
  s'.cursor = s.cursor ∧ (s.closed = true → s.pending = none → s'.closed = true ∧ s'.pending = none)

theorem Stays.refl (s : MemSubscription) : Stays s s := ⟨rfl, fun h h' => ⟨h, h'⟩⟩

theorem Stays.notify {s s' : MemSubscription} (h : Stays s s') : Stays s s'.notify := by
  refine ⟨h.1, fun hclosed hnone => ?_⟩
  obtain ⟨hclosed', hnone'⟩ := h.2 hclosed hnone
  exact ⟨hclosed', by simp [MemSubscription.notify, hnone']⟩

/-- An answer that ends a reader: an expired position, or nothing once closed. -/
def Ends (m : MemLog) (s : MemSubscription) (a : Answer) : Prop :=
  (∃ err, m.expired s.cursor = some err ∧ a = some (.error err)) ∨
    a = none ∧ s.closed = true ∧ s.pending = none

structure Quiet (st : MemState) (out : Output) (st' : MemState) : Prop where
  readers : List.Forall₂ Stays st.readers st'.readers
  opens : ∀ start, out ≠ .subscribed (.ok start)
  answers : ∀ k a, out = .answered k a →
    st'.log = st.log ∧ ∃ s, st'.readers[k]? = some s ∧ Ends st.log s a

/-- What a call can do to the readers: nothing, add one, or give one the entry at
its cursor. -/
inductive Effect (st : MemState) (out : Output) (st' : MemState) : Prop
  | quiet (h : Quiet st out st')
  | subscribed (start : ℕ) (hout : out = .subscribed (.ok start))
      (hst : st' = ⟨st.log, st.readers ++ [⟨start, false, none⟩]⟩)
  | delivered (k : ℕ) (s : MemSubscription) (e : LogEntry) (hk : st.readers[k]? = some s)
      (hretained : st.log.boundary ≤ s.cursor) (hpending : s.pending ≠ none)
      (hentry : st.log.entries[s.cursor]? = some e) (hout : out = .answered k (some (.ok e)))
      (hst : st' =
        ⟨st.log, st.readers.set k { s with cursor := s.cursor + 1, pending := none }⟩)

theorem forall₂_stays_set {readers : List MemSubscription} {k : ℕ} {s s' : MemSubscription}
    (hk : readers[k]? = some s) (h : Stays s s') :
    List.Forall₂ Stays readers (readers.set k s') := by
  induction readers generalizing k with
  | nil => simp at hk
  | cons t rest ih =>
    cases k with
    | zero =>
      obtain rfl : t = s := by simpa using hk
      exact .cons h (List.forall₂_same.mpr fun t _ => .refl t)
    | succ k => exact .cons (.refl t) (ih (by simpa using hk))

/-- A section of a reader that gives it no entry. -/
structure Idle (m : MemLog) (s : MemSubscription) (x : Option Answer × MemSubscription) :
    Prop where
  stays : Stays s x.2
  ends : ∀ a, x.1 = some a → Ends m x.2 a

theorem idle_silent {s s' : MemSubscription} (h : Stays s s') : Idle m s (none, s') :=
  ⟨h, by simp⟩

theorem idle_answered {s s' : MemSubscription} {a : Answer} (h : Stays s s') (ha : Ends m s' a) :
    Idle m s (some a, s') := by
  refine ⟨h, fun b hb => ?_⟩
  obtain rfl := Option.some.inj hb
  exact ha

/-- A section of a pending call gives the reader nothing, unless it looks for an
entry and there is one. -/
theorem idle_advance {s : MemSubscription} (h : ¬ (s.pending = some .reading ∧
    m.boundary ≤ s.cursor ∧ s.cursor < m.entries.length)) :
    Idle m s (MemSubscription.advance m s) := by
  have hstays : s.pending ≠ none → ∀ q, Stays s { s with pending := q } :=
    fun hp q => ⟨rfl, fun _ hnone => absurd hnone hp⟩
  unfold MemSubscription.advance
  split
  · exact idle_silent (.refl s)
  · have hstays := hstays (by simp [*])
    split
    · exact idle_answered (hstays _) (.inl ⟨_, ‹_›, rfl⟩)
    · have hretained := expired_eq_none_iff.mp ‹_›
      split
      · have hlt := (List.getElem?_eq_some_iff.mp ‹_›).1
        exact absurd ⟨‹_›, hretained, hlt⟩ h
      · exact idle_silent (hstays _)
  · exact idle_silent (hstays (by simp [*]) _)
  · have hstays := hstays (by simp [*])
    split
    · exact idle_answered (hstays _) (.inl ⟨_, ‹_›, rfl⟩)
    · split_ifs with hlt hclosed
      · exact idle_silent (hstays _)
      · exact idle_answered (hstays _) (.inr ⟨rfl, hclosed, rfl⟩)
      · exact idle_silent (hstays _)
  · exact idle_silent (.refl s)
  · have hstays := hstays (by simp [*])
    split_ifs with hclosed
    · exact idle_answered (hstays _) (.inr ⟨rfl, hclosed, rfl⟩)
    · exact idle_silent (hstays _)

theorem quiet_onReader (k : ℕ) {t : MemSubscription → Option Answer × MemSubscription}
    (h : ∀ s, st.readers[k]? = some s → Idle st.log s (t s)) :
    Quiet st (st.onReader k t).1 (st.onReader k t).2 := by
  unfold MemState.onReader
  cases hk : st.readers[k]? with
  | none => exact ⟨List.forall₂_same.mpr fun t _ => .refl t, by simp, by simp⟩
  | some s =>
    obtain ⟨hstays, hends⟩ := h s hk
    rcases hts : t s with ⟨a, s'⟩
    rw [hts] at hstays hends
    simp only [hts]
    refine ⟨forall₂_stays_set hk hstays, fun start hout => ?_, fun j b hout => ⟨rfl, ?_⟩⟩
    · cases a <;> cases hout
    · cases a with
      | none => cases hout
      | some a =>
        obtain ⟨rfl, rfl⟩ := Output.answered.inj hout
        exact ⟨s', List.getElem?_set_self (List.getElem?_eq_some_iff.mp hk).1, hends a rfl⟩

theorem effect_advance (k : ℕ) :
    Effect st (st.step (.advance k)).1 (st.step (.advance k)).2 := by
  cases hk : st.readers[k]? with
  | none => exact .quiet (quiet_onReader k fun s hs => by cases hk.symm.trans hs)
  | some s =>
    by_cases hgives : s.pending = some .reading ∧ st.log.boundary ≤ s.cursor ∧
        s.cursor < st.log.entries.length
    · obtain ⟨hpending, hretained, hlt⟩ := hgives
      have hentry := List.getElem?_eq_getElem hlt
      have hadvance : MemSubscription.advance st.log s =
          (some (some (.ok st.log.entries[s.cursor])),
          { s with cursor := s.cursor + 1, pending := none }) := by
        simp [MemSubscription.advance, hpending, expired_eq_none_iff.mpr hretained, hentry]
      refine .delivered k s _ hk hretained (by simp [hpending]) hentry ?_ ?_
      · simp [MemState.step, MemState.onReader, hk, hadvance]
      · simp [MemState.step, MemState.onReader, hk, hadvance]
    · refine .quiet (quiet_onReader k fun t ht => ?_)
      obtain rfl := Option.some.inj (hk.symm.trans ht)
      exact idle_advance hgives

theorem quiet_notifyWaiters {out : Output} {log : MemLog} {readers : List MemSubscription}
    (h : List.Forall₂ Stays st.readers readers) (hstarts : ∀ start, out ≠ .subscribed (.ok start))
    (hanswer : ∀ k a, out ≠ .answered k a) :
    Quiet st out (MemState.notifyWaiters ⟨log, readers⟩) := by
  refine ⟨?_, hstarts, fun k a hout => absurd hout (hanswer k a)⟩
  exact List.forall₂_map_right_iff.mpr (h.imp fun _ _ hs => hs.notify)

theorem effect_step (st : MemState) (call : Call) : Effect st (st.step call).1 (st.step call).2 := by
  have hsame := List.forall₂_same.mpr fun t (_ : t ∈ st.readers) => Stays.refl t
  cases call with
  | append producerId events times =>
    rcases happ : st.log.append producerId events times with ⟨r, log⟩
    cases r with
    | error e =>
      simp only [MemState.step, happ]
      exact .quiet ⟨hsame, by simp, by simp⟩
    | ok last =>
      simp only [MemState.step, happ]
      exact .quiet (quiet_notifyWaiters hsame (by simp) (by simp))
  | evictBelow boundary =>
    simp only [MemState.step]
    exact .quiet (quiet_notifyWaiters hsame (by simp) (by simp))
  | evictAll =>
    simp only [MemState.step]
    exact .quiet (quiet_notifyWaiters hsame (by simp) (by simp))
  | readRange start stop =>
    simp only [MemState.step]
    exact .quiet ⟨hsame, by simp, by simp⟩
  | subscribe start =>
    rw [MemState.step]
    cases st.log.subscribe start with
    | error e => exact .quiet ⟨hsame, by simp, by simp⟩
    | ok cursor => exact .subscribed cursor rfl rfl
  | nextEntry k =>
    refine .quiet (quiet_onReader k fun s _ => ?_)
    change Idle st.log s (if s.pending = none then s.nextEntry else (none, s))
    split_ifs with hnone
    · unfold MemSubscription.nextEntry
      split_ifs with hclosed
      · exact idle_answered (.refl s) (.inr ⟨rfl, hclosed, hnone⟩)
      · exact idle_silent ⟨rfl, fun hclosed' _ => absurd hclosed' hclosed⟩
    · exact idle_silent (.refl s)
  | advance k => exact effect_advance k
  | drop k =>
    exact .quiet (quiet_onReader k fun s _ => idle_silent ⟨rfl, fun hclosed _ => ⟨hclosed, rfl⟩⟩)
  | close k =>
    rw [MemState.step]
    cases hk : st.readers[k]? with
    | none => exact .quiet ⟨hsame, by simp, by simp⟩
    | some s =>
      dsimp only
      split_ifs with hnone
      · refine .quiet (quiet_notifyWaiters (forall₂_stays_set hk ?_) (by simp) (by simp))
        exact ⟨rfl, fun _ _ => ⟨rfl, hnone⟩⟩
      · exact .quiet ⟨hsame, by simp, by simp⟩

/-- The log changes by appending and evicting only. -/
def Call.onLog (m : MemLog) : Call → MemLog
  | .append producerId events times => (m.append producerId events times).2
  | .evictBelow boundary => m.evictBelow boundary
  | .evictAll => m.evictAll
  | _ => m

theorem log_step (st : MemState) (call : Call) : (st.step call).2.log = call.onLog st.log := by
  have hreader : ∀ k t, (st.onReader k t).2.log = st.log := by
    intro k t
    unfold MemState.onReader
    cases st.readers[k]? <;> rfl
  cases call with
  | append producerId events times =>
    rcases happ : st.log.append producerId events times with ⟨r, log⟩
    cases r with
    | error e =>
      have hsame : log = st.log := by
        unfold MemLog.append at happ
        split_ifs at happ <;> simp_all
      simp only [MemState.step, happ, hsame, Call.onLog]
    | ok last =>
      simp only [MemState.step, happ, Call.onLog]
      rfl
  | evictBelow boundary => rfl
  | evictAll => rfl
  | readRange start stop => rfl
  | subscribe start =>
    simp only [MemState.step]
    cases st.log.subscribe start <;> rfl
  | nextEntry k => exact hreader k _
  | advance k => exact hreader k _
  | drop k => exact hreader k _
  | close k =>
    simp only [MemState.step]
    cases st.readers[k]? with
    | none => rfl
    | some s =>
      dsimp only
      split_ifs <;> rfl

/-- An entry stands at the place of its offset, and no more is evicted than there is. -/
structure Sane (m : MemLog) : Prop where
  numbered : ∀ (i : ℕ) (e : LogEntry), m.entries[i]? = some e → e.offset = i
  bounded : m.boundary ≤ m.entries.length

theorem sane_append (h : Sane m) (producerId : String) (events : List OtkEvent) (times : ℕ → ℕ) :
    Sane (m.append producerId events times).2 := by
  unfold MemLog.append
  split_ifs
  · exact h
  · exact h
  · refine ⟨fun i e he => ?_, h.bounded.trans (by simp)⟩
    rcases lt_or_ge i m.entries.length with hlt | hge
    · exact h.numbered i e (by rwa [List.getElem?_append_left hlt] at he)
    · rw [List.getElem?_append_right hge, List.getElem?_mapIdx] at he
      obtain ⟨ev, -, rfl⟩ := Option.map_eq_some_iff.mp he
      exact Nat.add_sub_cancel' hge

theorem Sane.step (h : Sane st.log) (call : Call) : Sane (st.step call).2.log := by
  rw [log_step]
  cases call with
  | append producerId events times => exact sane_append h producerId events times
  | evictBelow b => exact ⟨h.numbered, Nat.min_le_right _ _⟩
  | evictAll => exact ⟨h.numbered, le_rfl⟩
  | _ => exact h

/-- Only `evict_below` can lower the boundary. -/
theorem boundary_step (h : Sane st.log) {call : Call}
    (hkeep : ∀ b, call = .evictBelow b → st.log.boundary ≤ min b st.log.entries.length) :
    st.log.boundary ≤ (st.step call).2.log.boundary := by
  rw [log_step]
  cases call with
  | append producerId events times =>
    have hsame : (st.log.append producerId events times).2.boundary = st.log.boundary := by
      unfold MemLog.append
      split_ifs <;> rfl
    exact hsame.ge
  | evictBelow b => exact hkeep b rfl
  | evictAll => exact h.bounded
  | _ => exact le_rfl

theorem expired_spec {cursor : ℕ} {err : StorageError} (h : m.expired cursor = some err) :
    cursor < m.boundary ∧ ∃ available, err = .retentionExpired cursor available := by
  refine ⟨not_le.mp fun hle => ?_, ?_⟩
  · cases h.symm.trans (expired_eq_none_iff.mpr hle)
  · obtain ⟨earliest, -, rfl⟩ := Option.map_eq_some_iff.mp h
    exact ⟨_, rfl⟩

theorem readRange_error {start : ℕ} {stop : Option ℕ} {err : StorageError}
    (h : m.readRange start stop = .error err) : m.expired start = some err := by
  unfold MemLog.readRange at h
  unfold MemLog.expired
  cases hf : m.earliestRetained.filter (start < ·) with
  | some earliest =>
    rw [hf] at h
    exact congrArg some (Except.error.inj h)
  | none =>
    rw [hf] at h
    dsimp only at h
    split_ifs at h

theorem readRange_ok {start : ℕ} {stop : Option ℕ} {es : List LogEntry}
    (h : m.readRange start stop = .ok es) :
    m.boundary ≤ start ∧ ∀ e ∈ es, ∃ i, start ≤ i ∧ m.entries[i]? = some e := by
  unfold MemLog.readRange at h
  cases hf : m.earliestRetained.filter (start < ·) with
  | some earliest =>
    rw [hf] at h
    cases h
  | none =>
    have hretained : m.expired start = none := by rw [MemLog.expired, hf, Option.map_none]
    refine ⟨expired_eq_none_iff.mp hretained, ?_⟩
    rw [hf] at h
    dsimp only at h
    split_ifs at h
    · obtain rfl := Except.ok.inj h
      simp
    · obtain rfl := Except.ok.inj h
      simp
    · obtain rfl := Except.ok.inj h
      intro e he
      obtain ⟨i, hi⟩ := List.mem_iff_getElem?.mp he
      rw [List.getElem?_drop] at hi
      rw [List.getElem?_take] at hi
      split_ifs at hi
      exact ⟨start + i, Nat.le_add_right _ _, hi⟩

theorem subscribe_error {start : ℕ} {err : StorageError} (h : m.subscribe start = .error err) :
    m.expired start = some err := by
  unfold MemLog.subscribe at h
  unfold MemLog.expired
  cases hf : m.earliestRetained.filter (start < ·) with
  | some earliest =>
    rw [hf] at h
    exact congrArg some (Except.error.inj h)
  | none =>
    rw [hf] at h
    cases h

inductive Shows (st : MemState) : Call → Output → Prop
  | silent (call : Call) : Shows st call .silent
  | appended (call : Call) (r : Except StorageError ℕ) : Shows st call (.appended r)
  | range (start : ℕ) (stop : Option ℕ) :
      Shows st (.readRange start stop) (.range (st.log.readRange start stop))
  | subscribed (start : ℕ) : Shows st (.subscribe start) (.subscribed (st.log.subscribe start))
  | answered (call : Call) (k : ℕ) (a : Answer) : Shows st call (.answered k a)

theorem shows_step (st : MemState) (call : Call) : Shows st call (st.step call).1 := by
  have hreader : ∀ k t, Shows st call (st.onReader k t).1 := by
    intro k t
    unfold MemState.onReader
    cases st.readers[k]? with
    | none => exact .silent call
    | some s =>
      rcases hts : t s with ⟨_ | a, s'⟩
      · simpa only [hts] using .silent call
      · simpa only [hts] using .answered call k a
  cases call with
  | append producerId events times =>
    rcases happ : st.log.append producerId events times with ⟨r, log⟩
    cases r with
    | error e => simpa only [MemState.step, happ] using .appended _ _
    | ok last => simpa only [MemState.step, happ] using .appended _ _
  | evictBelow b => exact .silent _
  | evictAll => exact .silent _
  | readRange start stop => exact .range start stop
  | subscribe start =>
    have hshown : (st.step (.subscribe start)).1 = .subscribed (st.log.subscribe start) := by
      rw [MemState.step]
      cases st.log.subscribe start <;> rfl
    rw [hshown]
    exact .subscribed start
  | nextEntry k => exact hreader k _
  | advance k => exact hreader k _
  | drop k => exact hreader k _
  | close k =>
    rw [MemState.step]
    cases st.readers[k]? with
    | none => exact .silent _
    | some s =>
      dsimp only
      split_ifs <;> exact .silent _

theorem expired_step {call : Call} {o : ℕ} (h : (st.step call).1.expired? = some o) :
    o < (st.step call).2.log.boundary := by
  have hreported : ∀ {start err}, st.log.expired start = some err →
      (∀ available, err = .retentionExpired start available → start = o) → o < st.log.boundary := by
    intro start err herr ho
    obtain ⟨hlt, available, heq⟩ := expired_spec herr
    exact ho available heq ▸ hlt
  have heffect := effect_step st call
  have hlog := log_step st call
  generalize hout : (st.step call).1 = out at h heffect
  have hshows := hout ▸ shows_step st call
  cases hshows with
  | silent => cases h
  | appended => cases h
  | range start stop =>
    rw [hlog]
    cases hr : st.log.readRange start stop with
    | ok es => rw [hr] at h; cases h
    | error err =>
      rw [hr] at h
      refine hreported (readRange_error hr) fun available heq => ?_
      subst heq
      exact Option.some.inj h
  | subscribed start =>
    rw [hlog]
    cases hr : st.log.subscribe start with
    | ok cursor => rw [hr] at h; cases h
    | error err =>
      rw [hr] at h
      refine hreported (subscribe_error hr) fun available heq => ?_
      subst heq
      exact Option.some.inj h
  | answered _ k a =>
    cases heffect with
    | quiet hq =>
      obtain ⟨hsame, s, -, ⟨err, herr, rfl⟩ | ⟨rfl, -⟩⟩ := hq.answers k a rfl
      · rw [hsame]
        refine hreported herr fun available heq => ?_
        subst heq
        exact Option.some.inj h
      · cases h
    | subscribed start hsub => cases hsub
    | delivered j s e hk hretained hpending hentry hok =>
      rw [hok] at h
      cases h

theorem retained_step (h : Sane st.log) {call : Call} {e : LogEntry}
    (he : e ∈ (st.step call).1.entries) : st.log.boundary ≤ e.offset := by
  have heffect := effect_step st call
  generalize hout : (st.step call).1 = out at he heffect
  have hshows := hout ▸ shows_step st call
  cases hshows with
  | silent => cases he
  | appended => cases he
  | subscribed start => cases he
  | range start stop =>
    cases hr : st.log.readRange start stop with
    | error err => rw [hr] at he; cases he
    | ok es =>
      rw [hr] at he
      obtain ⟨hretained, hread⟩ := readRange_ok hr
      obtain ⟨i, hi, hentry⟩ := hread e he
      rw [h.numbered i e hentry]
      exact hretained.trans hi
  | answered _ k a =>
    cases heffect with
    | quiet hq =>
      obtain ⟨-, s, -, ⟨err, -, rfl⟩ | ⟨rfl, -⟩⟩ := hq.answers k a rfl
      · cases he
      · cases he
    | subscribed start hsub => cases hsub
    | delivered j s e' hk hretained hpending hentry hok =>
      rw [hok] at he
      obtain rfl := List.mem_singleton.mp he
      rwa [h.numbered _ _ hentry]

end Step

section Runs

variable {st : MemState} {calls : List Call}

@[simp] theorem MemState.after_nil (st : MemState) : st.after [] = st := rfl

@[simp] theorem MemState.after_cons (st : MemState) (call : Call) (calls : List Call) :
    st.after (call :: calls) = (st.step call).2.after calls := rfl

theorem sane_start : Sane MemState.start.log := ⟨by simp [MemState.start, MemLog.new], le_rfl⟩

theorem Sane.after (h : Sane st.log) : Sane (st.after calls).log := by
  induction calls generalizing st with
  | nil => exact h
  | cons call calls ih => exact ih (h.step call)

theorem NeverLowers.after {before rest : List Call} (h : NeverLowers st (before ++ rest)) :
    NeverLowers (st.after before) rest := by
  induction before generalizing st with
  | nil => exact h
  | cons call before ih => exact ih h.2

theorem NeverLowers.before {before rest : List Call} (h : NeverLowers st (before ++ rest)) :
    NeverLowers st before := by
  induction before generalizing st with
  | nil => trivial
  | cons call before ih => exact ⟨h.1, ih h.2⟩

theorem boundary_after (hs : Sane st.log) (h : NeverLowers st calls) :
    st.log.boundary ≤ (st.after calls).log.boundary := by
  induction calls generalizing st with
  | nil => exact le_rfl
  | cons call calls ih => exact (boundary_step hs h.1).trans (ih (hs.step call) h.2)

theorem retained_outputs (hs : Sane st.log) (h : NeverLowers st calls) :
    ∀ out ∈ st.outputs calls, ∀ e ∈ out.entries, st.log.boundary ≤ e.offset := by
  induction calls generalizing st with
  | nil => simp [MemState.outputs]
  | cons call calls ih =>
    intro out hout e he
    rcases List.mem_cons.mp hout with rfl | hout
    · exact retained_step hs he
    · exact (boundary_step hs h.1).trans (ih (hs.step call) h.2 out hout e he)

theorem earliest_eq_boundary {m : MemLog} {a : ℕ} (h : m.earliestOffset = some a) :
    a = m.boundary := by
  unfold MemLog.earliestOffset at h
  split_ifs at h
  cases hm : m.earliestRetained with
  | none =>
    rw [hm] at h
    obtain rfl := Option.some.inj h
    simp [MemLog.boundary, hm]
  | some e =>
    rw [hm] at h
    simp only [earliestAvailableOffset] at h
    split_ifs at h
    obtain rfl := Option.some.inj h
    simp [MemLog.boundary, hm]

theorem starts_append (outs outs' : List Output) :
    starts (outs ++ outs') = starts outs ++ starts outs' := List.filterMap_append

theorem delivered_append (k : ℕ) (outs outs' : List Output) :
    delivered k (outs ++ outs') = delivered k outs ++ delivered k outs' := List.filterMap_append

theorem starts_of_ne {out : Output} (h : ∀ start, out ≠ .subscribed (.ok start)) :
    starts [out] = [] := by
  cases out with
  | subscribed r =>
    cases r with
    | error err => rfl
    | ok start => exact absurd rfl (h start)
  | _ => rfl

theorem delivered_of_ne {k : ℕ} {out : Output} (h : ∀ e, out ≠ .answered k (some (.ok e))) :
    delivered k [out] = [] := by
  cases out with
  | answered j a =>
    rcases a with _ | err | e
    · rfl
    · rfl
    · have hj : j ≠ k := by
        rintro rfl
        exact h e rfl
      simp [delivered, hj]
  | _ => rfl

theorem Quiet.starts_eq {out : Output} {st' : MemState} (h : Quiet st out st') :
    starts [out] = [] := starts_of_ne h.opens

theorem Quiet.delivered_eq {out : Output} {st' : MemState} (h : Quiet st out st') (k : ℕ) :
    delivered k [out] = [] := by
  refine delivered_of_ne fun e hout => ?_
  obtain ⟨-, s, -, ⟨err, -, heq⟩ | ⟨heq, -⟩⟩ := h.answers k _ hout
  · cases heq
  · cases heq

theorem Quiet.reader {out : Output} {st' : MemState} (h : Quiet st out st') {k : ℕ}
    {s : MemSubscription} (hk : st.readers[k]? = some s) :
    ∃ s', st'.readers[k]? = some s' ∧ Stays s s' := by
  have hlength := h.readers.length_eq
  obtain ⟨hlt, rfl⟩ := List.getElem?_eq_some_iff.mp hk
  exact ⟨_, List.getElem?_eq_getElem (hlength ▸ hlt), h.readers.get hlt (hlength ▸ hlt)⟩

/-- Every reader has been given the entries from its start to its cursor. -/
structure Follows (outs : List Output) (readers : List MemSubscription) : Prop where
  length : readers.length = (starts outs).length
  given : ∀ k start, (starts outs)[k]? = some start → ∃ n s, readers[k]? = some s ∧
    s.cursor = start + n ∧ (delivered k outs).map LogEntry.offset = List.range' start n
  absent : ∀ k, readers.length ≤ k → delivered k outs = []

theorem Follows.step {outs : List Output} (hs : Sane st.log) (h : Follows outs st.readers)
    (call : Call) :
    Follows (outs ++ [(st.step call).1]) (st.step call).2.readers := by
  have heffect := effect_step st call
  generalize (st.step call).1 = out at heffect
  generalize (st.step call).2 = st' at heffect
  cases heffect with
  | quiet hq =>
    have hlength := hq.readers.length_eq
    refine ⟨?_, fun k start hstart => ?_, fun k hk => ?_⟩
    · rw [starts_append, hq.starts_eq, List.append_nil, ← hlength, h.length]
    · rw [starts_append, hq.starts_eq, List.append_nil] at hstart
      obtain ⟨n, s, hk, hcursor, hgiven⟩ := h.given k start hstart
      obtain ⟨s', hk', hstays⟩ := hq.reader hk
      refine ⟨n, s', hk', hstays.1.trans hcursor, ?_⟩
      rw [delivered_append, hq.delivered_eq, List.append_nil, hgiven]
    · rw [delivered_append, hq.delivered_eq, List.append_nil]
      exact h.absent k (hlength ▸ hk)
  | subscribed start hout hst =>
    subst hout hst
    have hnone : ∀ k, delivered k [Output.subscribed (.ok start)] = [] := fun _ => rfl
    have hone : starts [Output.subscribed (.ok start)] = [start] := rfl
    refine ⟨?_, fun k start' hstart => ?_, fun k hk => ?_⟩
    · rw [starts_append, hone, List.length_append, List.length_append, h.length]
      rfl
    · rw [starts_append, hone] at hstart
      rw [delivered_append, hnone, List.append_nil]
      rcases lt_or_ge k (starts outs).length with hlt | hge
      · rw [List.getElem?_append_left hlt] at hstart
        obtain ⟨n, s, hk, hcursor, hgiven⟩ := h.given k start' hstart
        exact ⟨n, s, by rwa [List.getElem?_append_left (h.length ▸ hlt)], hcursor, hgiven⟩
      · rw [List.getElem?_append_right hge, List.getElem?_singleton] at hstart
        split_ifs at hstart with hk
        obtain rfl := Option.some.inj hstart
        refine ⟨0, ⟨start, false, none⟩, ?_, rfl, ?_⟩
        · rw [List.getElem?_append_right (h.length ▸ hge), h.length, hk]
          rfl
        · rw [h.absent k (h.length ▸ hge)]
          rfl
    · rw [delivered_append, hnone, List.append_nil]
      exact h.absent k (by simp at hk; omega)
  | delivered k s e hk hretained hpending hentry hout hst =>
    subst hout hst
    have hstarts : starts [Output.answered k (some (.ok e))] = [] := rfl
    have hlt := (List.getElem?_eq_some_iff.mp hk).1
    refine ⟨?_, fun j start hstart => ?_, fun j hj => ?_⟩
    · rw [starts_append, hstarts, List.append_nil, List.length_set, h.length]
    · rw [starts_append, hstarts, List.append_nil] at hstart
      obtain ⟨n, t, hj, hcursor, hgiven⟩ := h.given j start hstart
      by_cases hjk : k = j
      · subst hjk
        obtain rfl := Option.some.inj (hk.symm.trans hj)
        refine ⟨n + 1, _, List.getElem?_set_self hlt, by simp [hcursor, Nat.add_assoc], ?_⟩
        have hone : delivered k [Output.answered k (some (.ok e))] = [e] := by simp [delivered]
        rw [delivered_append, hone, List.map_append, hgiven, List.map_singleton,
          hs.numbered _ _ hentry, hcursor, ← List.range'_1_concat]
      · refine ⟨n, t, by rwa [List.getElem?_set_ne hjk], hcursor, ?_⟩
        rw [delivered_append, delivered_of_ne (by simp [hjk]), List.append_nil, hgiven]
    · rw [List.length_set] at hj
      have hjk : k ≠ j := by omega
      rw [delivered_append, delivered_of_ne (by simp [hjk]), List.append_nil, h.absent j hj]

theorem follows_after (calls : List Call) :
    Follows (MemState.start.outputs calls) (MemState.start.after calls).readers := by
  induction calls using List.reverseRecOn with
  | nil => exact ⟨rfl, by simp [MemState.outputs, starts], fun _ _ => rfl⟩
  | append_singleton calls call ih =>
    rw [MemState.outputs_append, MemState.after_append]
    exact ih.step sane_start.after call

/-- The reader at `k` is behind the boundary or closed. -/
def Dead (st : MemState) (k : ℕ) : Prop :=
  ∃ s, st.readers[k]? = some s ∧
    (s.cursor < st.log.boundary ∨ s.closed = true ∧ s.pending = none)

theorem dead_of_terminal {call : Call} {k : ℕ} {a : Answer}
    (h : (st.step call).1 = .answered k a) (ha : Answer.Terminal a) :
    Dead (st.step call).2 k := by
  have heffect := effect_step st call
  cases heffect with
  | quiet hq =>
    obtain ⟨hlog, s, hk, ⟨err, herr, -⟩ | ⟨-, hclosed⟩⟩ := hq.answers k a h
    · exact ⟨s, hk, .inl (hlog ▸ (expired_spec herr).1)⟩
    · exact ⟨s, hk, .inr hclosed⟩
  | subscribed start hout => cases hout.symm.trans h
  | delivered j s e hk hretained hpending hentry hout =>
    obtain ⟨-, rfl⟩ := Output.answered.inj (hout.symm.trans h)
    exact ha.elim

theorem Dead.step (hs : Sane st.log) {call : Call}
    (hkeep : ∀ b, call = .evictBelow b → st.log.boundary ≤ min b st.log.entries.length) {k : ℕ}
    (h : Dead st k) : Dead (st.step call).2 k ∧ delivered k [(st.step call).1] = [] := by
  obtain ⟨s, hk, hend⟩ := h
  have hle := boundary_step hs hkeep
  have heffect := effect_step st call
  generalize (st.step call).1 = out at heffect
  generalize (st.step call).2 = st' at heffect hle
  cases heffect with
  | quiet hq =>
    obtain ⟨s', hk', hcursor, hclosed⟩ := hq.reader hk
    refine ⟨⟨s', hk', ?_⟩, hq.delivered_eq k⟩
    rcases hend with hbehind | ⟨hc, hp⟩
    · exact .inl (hcursor ▸ hbehind.trans_le hle)
    · exact .inr (hclosed hc hp)
  | subscribed start hout hst =>
    subst hout hst
    have hlt := (List.getElem?_eq_some_iff.mp hk).1
    exact ⟨⟨s, by rwa [List.getElem?_append_left hlt], hend⟩, rfl⟩
  | delivered j t e hj hretained hpending hentry hout hst =>
    subst hout hst
    have hjk : j ≠ k := by
      rintro rfl
      obtain rfl := Option.some.inj (hj.symm.trans hk)
      rcases hend with hbehind | ⟨-, hp⟩
      · exact absurd hretained (not_le.mpr hbehind)
      · exact hpending hp
    exact ⟨⟨s, by rwa [List.getElem?_set_ne hjk], hend⟩, delivered_of_ne (by simp [hjk])⟩

theorem Dead.outputs (hs : Sane st.log) (hn : NeverLowers st calls) {k : ℕ} (h : Dead st k) :
    delivered k (st.outputs calls) = [] := by
  induction calls generalizing st with
  | nil => rfl
  | cons call calls ih =>
    obtain ⟨hdead, hnothing⟩ := h.step hs hn.1
    rw [MemState.outputs, ← List.singleton_append, delivered_append, hnothing,
      ih (hs.step call) hn.2 hdead, List.nil_append]

theorem neverLowers_of_boundary
    (h : ∀ before between rest, calls = before ++ between ++ rest →
      (st.after before).log.boundary ≤ (st.after (before ++ between)).log.boundary) :
    NeverLowers st calls := by
  induction calls generalizing st with
  | nil => trivial
  | cons call calls ih =>
    refine ⟨fun b hb => ?_, ih fun before between rest hcalls => ?_⟩
    · subst hb
      exact h [] [.evictBelow b] calls rfl
    · exact h (call :: before) between rest (by rw [hcalls]; rfl)

end Runs

/-- The reference log keeps its contract over just those sequences of calls in which
`evict_below` never lowers the boundary. -/
theorem honours_iff (calls : List Call) :
    Honours calls ↔ NeverLowers MemState.start calls := by
  refine ⟨fun h => neverLowers_of_boundary h.boundary, fun h => ?_⟩
  have hboundary : ∀ before between rest, calls = before ++ between ++ rest →
      (MemState.start.after before).log.boundary ≤
        (MemState.start.after (before ++ between)).log.boundary := by
    intro before between rest hcalls
    rw [hcalls] at h
    rw [MemState.after_append]
    have hbefore := h.before
    exact boundary_after sane_start.after hbefore.after
  refine ⟨hboundary, fun before between rest hcalls a b ha hb => ?_, ?_, ?_, ?_⟩
  · rw [earliest_eq_boundary ha, earliest_eq_boundary hb]
    exact hboundary before between rest hcalls
  · intro before call rest hcalls o ho out hout e he heq
    rw [hcalls] at h
    have hgone := expired_step ho
    have hs : Sane (MemState.start.after before).log := sane_start.after
    have hretained := retained_outputs (hs.step call) h.after.2 out hout e he
    omega
  · intro k start hstart
    obtain ⟨n, s, -, -, hgiven⟩ := (follows_after calls).given k start hstart
    exact ⟨n, hgiven⟩
  · intro before call rest hcalls k a hout ha
    rw [hcalls] at h
    have hs : Sane (MemState.start.after before).log := sane_start.after
    exact (dead_of_terminal hout ha).outputs (hs.step call) h.after.2

/-- A log of two entries whose boundary goes up and down again. -/
def lowering : List Call :=
  [.append "p" [sampleHealth, sampleHealth] fun _ => 0, .subscribe 0, .evictBelow 2,
    .readRange 0 none, .nextEntry 0, .advance 0, .evictBelow 0, .readRange 0 (some 1),
    .nextEntry 0, .advance 0]

/-- Both the range and the reader that were told of an expired offset are then
given the entry at that offset. -/
theorem honours_fails : ¬ Honours lowering ∧
    MemState.start.outputs lowering =
      [.appended (.ok 1), .subscribed (.ok 0), .silent,
        .range (.error (.retentionExpired 0 none)), .silent,
        .answered 0 (some (.error (.retentionExpired 0 none))), .silent,
        .range (.ok [⟨0, 0, "p", sampleHealth⟩]), .silent,
        .answered 0 (some (.ok ⟨0, 0, "p", sampleHealth⟩))] := by
  refine ⟨fun h => ?_, rfl⟩
  have hterminal := h.terminal (lowering.take 5) (.advance 0) (lowering.drop 6) rfl 0 _ rfl trivial
  cases hterminal

end OtkCore.Conformance
