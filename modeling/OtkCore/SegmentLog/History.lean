import OtkCore.SegmentLog.Records

/-!
# Histories of a log

Calls on a log in any order, on a file system that never fails: appends, range
reads, and restarts. Whatever the calls were, the log stands for the abstract
log of the batches it accepted, and what has been evicted can be seen from the
segment files that are left.
-/
namespace OtkCore.SegmentLog

open Effect FileIO Bytes

inductive Call
  | append (producerId : String) (events : List OtkEvent) (result : Except StorageError ℕ)
  | readRange (start : ℕ) (stop : Option ℕ) (result : Except StorageError (List LogEntry))
  | reopen (config : SegmentLogConfig)

def Call.accepted : Call → Option (String × List OtkEvent)
  | .append producerId events (.ok _) => some (producerId, events)
  | _ => none

def Call.events : Call → List OtkEvent
  | .append _ events _ => events
  | _ => []

variable (c : Codec)

/-- A call takes the log and its directory from one state to another. -/
inductive Called : Log → Disk FileName → Call → Log → Disk FileName → Prop
  | append {l l' : Log} {d d' : Disk FileName} {producerId : String} {events : List OtkEvent}
      {r : Except StorageError ℕ} :
      Finishes (Step NoFail) d (append c producerId events l) d' (r, l') →
      Called l d (.append producerId events r) l' d'
  | readRange {l l' : Log} {d d' : Disk FileName} {start : ℕ} {stop : Option ℕ}
      {r : Except StorageError (List LogEntry)} :
      Finishes (Step NoFail) d (readRange c start stop l) d' (r, l') →
      Called l d (.readRange start stop r) l' d'
  | reopen {l l' : Log} {d d' : Disk FileName} {config : SegmentLogConfig} :
      Finishes (Step NoFail) d (openDir c config) d' (.ok l') →
      Called l d (.reopen config) l' d'

/-- The states that calls lead to from an empty directory. -/
inductive Runs : List Call → Log → Disk FileName → Prop
  | fresh {config : SegmentLogConfig} {l : Log} {d : Disk FileName} :
      Finishes (Step NoFail) .empty (openDir c config) d (.ok l) → Runs [] l d
  | call {calls : List Call} {l l' : Log} {d d' : Disk FileName} {x : Call} :
      Runs calls l d → Called c l d x l' d' → Runs (calls ++ [x]) l' d'

def Decodes (events : List OtkEvent) : Prop := ∀ ev ∈ events, c.decode (c.encode ev) = .ok ev

/-- No operation fails and nobody follows the files. -/
def calm : Mode := ⟨NoFail, False, fun _ => True⟩

theorem calm_calm : calm.Calm := ⟨fun _ h => h, id⟩

/-- The log and its directory stand for the abstract log `h`. -/
structure Tracks (l : Log) (d : Disk FileName) (h : EventHistory) (w : World) : Prop where
  disk : w.disk = d
  rep : Rep c calm l w
  clean : l.poisoned = false
  total : w.ghost.total = h.entries

variable {c} {l l' : Log} {d d' : Disk FileName} {h : EventHistory} {w : World}

theorem Tracks.next (ht : Tracks c l d h w) : l.nextOffset = h.entries.length := by
  rw [ht.rep.clean ht.clean, ht.total]

theorem Tracks.committed (ht : Tracks c l d h w) : committed l w = h.entries := by
  rw [SegmentLog.committed, ht.rep.clean ht.clean, List.take_length, ht.total]

theorem Tracks.length_lt (ht : Tracks c l d h w) : h.entries.length < 2 ^ 64 := by
  rw [← ht.total]
  exact ht.rep.good.ok.count

theorem Tracks.numbered (ht : Tracks c l d h w) : Numbered 0 h.entries := by
  rw [← ht.total]
  exact ht.rep.good.numbered_total

theorem finishes_calm {α : Type} {p : Prog (Resp (N := FileName)) α} {a : α}
    (hx : Finishes (Step NoFail) d p d' a) {Q : α → World → Prop} (hw : w.disk = d)
    (hs : Safe (setting c calm) p Q w) : ∃ w', w'.disk = d' ∧ Q a w' :=
  hs.finishes (fun _ => rfl) hx hw

theorem tracks_fresh {config : SegmentLogConfig}
    (hx : Finishes (Step NoFail) .empty (openDir c config) d (.ok l)) :
    ∃ w, Tracks c l d .empty w := by
  obtain ⟨w, hd, hQ⟩ := finishes_calm (w := World.empty) hx rfl
    (good_empty.openDir calm_calm trivial config
      (Q := fun r w => ∀ l, r = .ok l → Rep c calm l w ∧ l.poisoned = false ∧ w.ghost.total = [])
      (fun _ l w hrep _ hp ht _ _ l' hl' => by
        obtain rfl := Except.ok.inj hl'
        exact ⟨hrep, hp, ht⟩)
      fun _ msg l hl => by cases hl)
  obtain ⟨hrep, hp, ht⟩ := hQ l rfl
  exact ⟨w, hd, hrep, hp, ht⟩

theorem Tracks.reopen (ht : Tracks c l d h w) {config : SegmentLogConfig}
    (hx : Finishes (Step NoFail) d (openDir c config) d' (.ok l')) :
    ∃ w', Tracks c l' d' h w' := by
  obtain ⟨w', hd, hQ⟩ := finishes_calm hx ht.disk
    (ht.rep.good.openDir calm_calm trivial config
      (Q := fun r w' => ∀ l', r = .ok l' → Rep c calm l' w' ∧ l'.poisoned = false ∧
        w'.ghost.total = w.ghost.total)
      (fun _ l₁ w₁ hrep _ hp htot _ _ l' hl' => by
        obtain rfl := Except.ok.inj hl'
        exact ⟨hrep, hp, htot⟩)
      fun _ msg l hl => by cases hl)
  obtain ⟨hrep, hp, htot⟩ := hQ l' rfl
  exact ⟨w', hd, hrep, hp, htot.trans ht.total⟩

/-- A finished append stored its batch, or it was refused and nothing changed. -/
theorem Rep.appended (h : Rep c calm l w) (hp : l.poisoned = false) {producerId : String}
    {events : List OtkEvent} (hcod : Decodes c events) {r : Except StorageError ℕ}
    (hx : Finishes (Step NoFail) w.disk (SegmentLog.append c producerId events l) d' (r, l')) :
    ∃ w', w'.disk = d' ∧ Rep c calm l' w' ∧ l'.poisoned = false ∧
      ((∃ ts, r = .ok (l.nextOffset + events.length - 1) ∧
          w'.ghost.total = w.ghost.total ++ batchOf l.nextOffset ts producerId events) ∨
        ∃ err, r = .error err ∧ Refused c l.nextOffset producerId events ∧
          w'.ghost.total = w.ghost.total) := by
  have hsafe : Safe (setting c calm) (SegmentLog.append c producerId events l)
      (fun x w' => Rep c calm x.2 w' ∧ x.2.poisoned = false ∧
        ((∃ ts, x.1 = .ok (l.nextOffset + events.length - 1) ∧
            w'.ghost.total = w.ghost.total ++ batchOf l.nextOffset ts producerId events) ∨
          ∃ err, x.1 = .error err ∧ Refused c l.nextOffset producerId events ∧
            w'.ghost.total = w.ghost.total)) w := by
    refine h.append calm_calm.undoes (fun hs => hs.elim) producerId events hcod
      (fun _ _ _ _ => trivial) (fun ts l₁ w₁ l₂ w₂ hcom hroll hrep r hb hr => ?_)
      fun err l₁ w₁ hwhy hrep htried => ?_
    · refine ⟨hrep, hroll.poisoned.trans hcom.poisoned, Or.inl ⟨ts, ?_, ?_⟩⟩
      · cases r with
        | ok n => rw [hr n rfl]
        | error err => exact ((hb err rfl).elim fun _ hf => hf).elim
      · rw [hroll.total, hcom.total]
    · rcases htried with hkept | ⟨⟨_, hf⟩, -⟩
      · refine ⟨hrep, hkept.poisoned.trans hp, Or.inr ⟨err, rfl, ?_, hkept.total⟩⟩
        rcases hwhy with href | hpoison | ⟨_, hf⟩
        · exact href
        · simp [hp] at hpoison
        · exact hf.elim
      · exact hf.elim
  exact finishes_calm hx rfl hsafe

/-- A finished range read answered from the committed entries. -/
theorem Rep.ranged (h : Rep c calm l w) {start : ℕ} {stop : Option ℕ}
    {r : Except StorageError (List LogEntry)}
    (hx : Finishes (Step NoFail) w.disk (SegmentLog.readRange c start stop l) d' (r, l')) :
    r = rangeOf (committed l w) l.earliestOffset start stop ∧ d' = w.disk ∧ Rep c calm l' w ∧
      Kept l w l' w := by
  obtain ⟨w', hd, rfl, hr, hrep, hkept⟩ := finishes_calm hx rfl
    (h.readRange calm_calm start stop
      (Q := fun x w' => w' = w ∧ x.1 = rangeOf (SegmentLog.committed l w) l.earliestOffset start stop ∧
        Rep c calm x.2 w ∧ Kept l w x.2 w)
      fun l₁ hrep hkept => ⟨rfl, rfl, hrep, hkept⟩)
  exact ⟨hr, hd.symm, hrep, hkept⟩

/-- An append stores its batch, or it was refused and nothing changed. -/
theorem Tracks.append (ht : Tracks c l d h w) {producerId : String} {events : List OtkEvent}
    (hcod : Decodes c events) {r : Except StorageError ℕ}
    (hx : Finishes (Step NoFail) d (SegmentLog.append c producerId events l) d' (r, l')) :
    (∃ ts w', r = .ok (h.entries.length + events.length - 1) ∧
        Tracks c l' d' ⟨h.batches ++ [⟨producerId, ts, events⟩]⟩ w') ∨
      ∃ err w', r = .error err ∧ Refused c h.entries.length producerId events ∧
        Tracks c l' d' h w' := by
  have hnext := ht.next
  rw [← ht.disk] at hx
  obtain ⟨w', hd, hrep, hp, ⟨ts, hr, htot⟩ | ⟨err, hr, href, htot⟩⟩ :=
    ht.rep.appended ht.clean hcod hx
  · refine Or.inl ⟨ts, w', hnext ▸ hr, hd, hrep, hp, ?_⟩
    rw [htot, ht.total, hnext, EventHistory.entries_snoc]
    rfl
  · exact Or.inr ⟨err, w', hr, hnext ▸ href, hd, hrep, hp, htot.trans ht.total⟩

/-- Empty batches and nameless producers are refused before anything is done. -/
theorem append_refused {fails : Op FileName → Prop} {producerId : String} {events : List OtkEvent}
    (hbad : events = [] ∨ producerId = "") {r : Except StorageError ℕ}
    (hx : Finishes (Step fails) d (SegmentLog.append c producerId events l) d' (r, l')) :
    ∃ err, r = .error err := by
  have hprog : ∃ err, SegmentLog.append c producerId events l = .pure (.error err, l) := by
    unfold SegmentLog.append appendCommit
    simp only [Proc.bind_apply, Proc.get_apply, Prog.pure_bind]
    by_cases hp : l.poisoned = true
    · exact ⟨_, by simp [hp]; rfl⟩
    · by_cases hevents : events = []
      · exact ⟨_, by simp [hp, hevents]; rfl⟩
      · exact ⟨_, by simp [hp, hevents, hbad.resolve_left hevents]; rfl⟩
  obtain ⟨err, hprog⟩ := hprog
  rw [hprog] at hx
  obtain ⟨tr, hx⟩ := hx
  cases hx
  exact ⟨err, rfl⟩

/-- A segment file begins at or before the offset. Segments are deleted oldest
first, so of a committed offset this says that its segment is still there. -/
def Retained (d : Disk FileName) (offset : ℕ) : Prop :=
  ∃ base ino, d.find (.seg base) = some ino ∧ base ≤ offset

theorem Good.chained_linked (hg : Good c w) :
    Chained (evictedEntries w).length (w.ghost.live ++ w.ghost.tail.toList) := by
  have hc := hg.ok.chained
  rw [Ghost.segments, ← List.take_append_drop w.ghost.dropped w.ghost.closed, List.append_assoc,
    chained_append, Nat.zero_add] at hc
  exact hc.2

theorem total_of_linked_nil (hl : w.ghost.live ++ w.ghost.tail.toList = []) :
    w.ghost.total = evictedEntries w := by
  rw [Ghost.total, Ghost.segments, ← List.take_append_drop w.ghost.dropped w.ghost.closed,
    List.append_assoc, List.flatMap_append]
  change _ ++ (w.ghost.live ++ w.ghost.tail.toList).flatMap _ = _
  rw [hl, List.flatMap_nil, List.append_nil]
  rfl

theorem Good.retained_iff (hg : Good c w) {offset : ℕ} (hlt : offset < w.ghost.total.length) :
    Retained w.disk offset ↔ (evictedEntries w).length ≤ offset := by
  have hmem : Retained w.disk offset ↔
      ∃ s ∈ w.ghost.live ++ w.ghost.tail.toList, s.base ≤ offset := by
    constructor
    · rintro ⟨b, i, hfind, hle⟩
      obtain ⟨s, hs, rfl, -⟩ := (hg.seg b i).mp hfind
      exact ⟨s, hs, hle⟩
    · rintro ⟨s, hs, hle⟩
      exact ⟨s.base, s.ino, (hg.seg _ _).mpr ⟨s, hs, rfl, rfl⟩, hle⟩
  have hchain := hg.chained_linked
  rw [hmem]
  constructor
  · rintro ⟨s, hs, hle⟩
    exact (hchain.le_base hs).trans hle
  · intro hle
    cases hl : w.ghost.live ++ w.ghost.tail.toList with
    | nil =>
      rw [total_of_linked_nil hl] at hlt
      omega
    | cons s rest =>
      rw [hl] at hchain
      exact ⟨s, List.mem_cons_self, hchain.1.le.trans hle⟩

def evictedCount (w : World) : ℕ := (evictedEntries w).length

/-- No segment that is left begins before what has been evicted. -/
theorem Good.not_retained (hg : Good c w) {n : ℕ} (hn : n < evictedCount w) :
    ¬ Retained w.disk n := by
  rintro ⟨b, i, hfind, hle⟩
  obtain ⟨s, hs, rfl, -⟩ := (hg.seg b i).mp hfind
  have hbase := hg.chained_linked.le_base hs
  exact absurd (hbase.trans hle) (Nat.not_le_of_lt hn)

theorem Tracks.evictedCount_le (ht : Tracks c l d h w) : evictedCount w ≤ h.entries.length := by
  rw [← ht.committed, ht.rep.committed_eq, List.length_append]
  exact Nat.le_add_right _ _

theorem Tracks.earliestOffset_eq (ht : Tracks c l d h w) :
    l.earliestOffset = if evictedCount w = h.entries.length then none else some (evictedCount w) := by
  have hiff : retainedEntries l w = [] ↔ evictedCount w = h.entries.length := by
    rw [← ht.committed, ht.rep.committed_eq, List.length_append, evictedCount,
      ← List.length_eq_zero_iff]
    omega
  rw [ht.rep.earliestOffset_eq, ← evictedCount]
  by_cases hall : retainedEntries l w = []
  · rw [if_pos hall, if_pos (hiff.mp hall)]
  · rw [if_neg hall, if_neg fun hall' => hall (hiff.mpr hall')]

theorem Tracks.retained_iff (ht : Tracks c l d h w) {offset : ℕ}
    (hlt : offset < h.entries.length) :
    Retained d offset ↔ evictedCount w ≤ offset := by
  rw [← ht.disk]
  exact ht.rep.good.retained_iff (by rwa [ht.total])

/-- A range read answers from the abstract log and leaves everything as it is. -/
theorem Tracks.readRange (ht : Tracks c l d h w) {start : ℕ} {stop : Option ℕ}
    {r : Except StorageError (List LogEntry)}
    (hx : Finishes (Step NoFail) d (SegmentLog.readRange c start stop l) d' (r, l')) :
    r = rangeOf h.entries l.earliestOffset start stop ∧ d' = d ∧ Tracks c l' d h w := by
  rw [← ht.disk] at hx
  obtain ⟨hr, hd, hrep, hkept⟩ := ht.rep.ranged hx
  rw [ht.committed] at hr
  exact ⟨hr, hd.trans ht.disk, ht.disk, hrep, hkept.poisoned.trans ht.clean, ht.total⟩

theorem Tracks.called (ht : Tracks c l d h w) {x : Call} (hcod : Decodes c x.events)
    (hcall : Called c l d x l' d') :
    ∃ more w', Tracks c l' d' ⟨h.batches ++ more⟩ w' ∧
      more.map (fun b => (b.producerId, b.events)) = x.accepted.toList := by
  cases hcall with
  | @append _ _ _ producerId events r hx =>
    have hdec : Decodes c events := hcod
    obtain ⟨ts, w', rfl, ht'⟩ | ⟨err, w', rfl, -, ht'⟩ := ht.append hdec hx
    · exact ⟨_, w', ht', by simp [Call.accepted]⟩
    · exact ⟨[], w', by simpa using ht', by simp [Call.accepted]⟩
  | readRange hx =>
    obtain ⟨-, rfl, ht'⟩ := ht.readRange hx
    exact ⟨[], w, by simpa using ht', by simp [Call.accepted]⟩
  | reopen hx =>
    obtain ⟨w', ht'⟩ := ht.reopen hx
    exact ⟨[], w', by simpa using ht', by simp [Call.accepted]⟩

/-- Whatever the calls were, the log stands for the batches it accepted. -/
theorem Runs.tracks {calls : List Call} (hruns : Runs c calls l d)
    (hcod : ∀ x ∈ calls, Decodes c x.events) :
    ∃ h w, Tracks c l d h w ∧
      h.batches.map (fun b => (b.producerId, b.events)) = calls.filterMap Call.accepted := by
  induction hruns with
  | fresh hx =>
    obtain ⟨w, ht⟩ := tracks_fresh hx
    exact ⟨.empty, w, ht, rfl⟩
  | @call calls l l' d d' x _ hcall ih =>
    obtain ⟨h, w, ht, hacc⟩ := ih fun y hy => hcod y (List.mem_append_left _ hy)
    obtain ⟨more, w', ht', hmore⟩ := ht.called (hcod x (by simp)) hcall
    refine ⟨_, w', ht', ?_⟩
    rw [List.map_append, hacc, hmore, List.filterMap_append]
    cases hx : x.accepted <;> simp [hx]

theorem decodes_sample : Decodes sampleCodec [sampleHealth] := by
  simp [Decodes, sampleCodec]

theorem decodes_calls {calls : List Call}
    (h : calls.all (fun x => x.events.all (· = sampleHealth)) = true) :
    ∀ x ∈ calls, Decodes sampleCodec x.events := by
  intro x hx ev hev
  have hall := List.all_eq_true.mp (List.all_eq_true.mp h x hx) ev hev
  obtain rfl : ev = sampleHealth := by simpa using hall
  exact decodes_sample _ (List.mem_singleton_self _)

theorem simulate_openDir_empty (clock : ℕ) (config : SegmentLogConfig) :
    simulate clock (openDir c config) [] .empty =
      some (.empty, .ok ⟨config, [], none, 0, false⟩) := by
  have hsort : ([] : List ℕ).mergeSort (fun a b => decide (a ≤ b)) = [] := List.mergeSort_nil
  have hlisted : simulate clock (openDir c config) [] .empty =
      simulate clock ((openSegments c config.dir (([] : List ℕ).mergeSort fun a b => decide (a ≤ b))
        >>= _) ⟨[], none, 0⟩ >>= fun x => .pure x.1) [] .empty := rfl
  rw [hlisted, hsort]
  rfl

theorem finishes_openDir_empty (config : SegmentLogConfig) :
    Finishes (Step NoFail) .empty (openDir c config) .empty
      (.ok ⟨config, [], none, 0, false⟩) :=
  finishes_of_simulate (by simp) (simulate_openDir_empty 0 config)

/-- Carry out a call, which has to end with the result it is said to have. -/
def Call.replay (c : Codec) (clock : ℕ) :
    Call → Log × Disk FileName → Option (Log × Disk FileName)
  | .append producerId events result, (l, d) =>
    (simulate clock (SegmentLog.append c producerId events l) [] d).bind fun (d', r, l') =>
      if r = result then some (l', d') else none
  | .readRange start stop result, (l, d) =>
    (simulate clock (SegmentLog.readRange c start stop l) [] d).bind fun (d', r, l') =>
      if r = result then some (l', d') else none
  | .reopen config, (_, d) =>
    (simulate clock (openDir c config) [] d).bind fun (d', r) => r.toOption.map (·, d')

theorem Called.of_replay {clock : ℕ} {x : Call}
    (h : x.replay c clock (l, d) = some (l', d')) : Called c l d x l' d' := by
  cases x with
  | append producerId events result =>
    obtain ⟨⟨d₁, r, l₁⟩, hsim, h⟩ := Option.bind_eq_some_iff.mp h
    dsimp only at h
    split_ifs at h with hr
    obtain ⟨rfl, rfl⟩ := Prod.mk.inj (Option.some.inj h)
    rw [← hr]
    exact .append (finishes_of_simulate (by simp) hsim)
  | readRange start stop result =>
    obtain ⟨⟨d₁, r, l₁⟩, hsim, h⟩ := Option.bind_eq_some_iff.mp h
    dsimp only at h
    split_ifs at h with hr
    obtain ⟨rfl, rfl⟩ := Prod.mk.inj (Option.some.inj h)
    rw [← hr]
    exact .readRange (finishes_of_simulate (by simp) hsim)
  | reopen config =>
    obtain ⟨⟨d₁, r⟩, hsim, h⟩ := Option.bind_eq_some_iff.mp h
    obtain ⟨l₁, hl₁, hd₁⟩ := Option.map_eq_some_iff.mp h
    obtain ⟨rfl, rfl⟩ := Prod.mk.inj hd₁
    cases r with
    | error e => cases hl₁
    | ok l₂ =>
      obtain rfl := Option.some.inj hl₁
      exact .reopen (finishes_of_simulate (by simp) hsim)

def replayCalls (c : Codec) (clock : ℕ) (calls : List Call) (x : Log × Disk FileName) :
    Option (Log × Disk FileName) :=
  calls.foldlM (fun x call => call.replay c clock x) x

theorem Runs.replay {clock : ℕ} {calls more : List Call} (hruns : Runs c calls l d)
    (h : replayCalls c clock more (l, d) = some (l', d')) : Runs c (calls ++ more) l' d' := by
  induction more generalizing calls l d with
  | nil =>
    obtain ⟨rfl, rfl⟩ := Prod.mk.inj (Option.some.inj h)
    rwa [List.append_nil]
  | cons x more ih =>
    obtain ⟨⟨l₁, d₁⟩, hcall, hmore⟩ := Option.bind_eq_some_iff.mp h
    have hnext := ih (hruns.call (.of_replay hcall)) hmore
    rwa [List.append_assoc] at hnext

/-- A log that closes a segment after every append and keeps 180 bytes of closed ones. -/
def evicting : Log := ⟨{ maxSegmentBytes := 1, retention := .sizeBased 180 }, [], none, 0, false⟩

theorem runs_evicting : Runs c [] evicting .empty := .fresh (finishes_openDir_empty _)

end OtkCore.SegmentLog
