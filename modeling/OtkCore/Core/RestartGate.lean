import OtkCore.Core.ConcurrentIngest
import Mathlib.Order.Bounds.Basic

/-!
# The gate across restarts

A node that starts reads the whole log back and seeds a fresh gate from it. The
live gate was built by commits of concurrent calls instead. Both track the log:
the mark of a key is the largest sequence number stored under it. The live gate
lags behind by the calls that have appended and not yet committed.
-/
namespace OtkCore

open EventIngestService

theorem OtkEvent.eq_of_detection? {e : OtkEvent} {det : Detection}
    (h : e.detection? = some det) : e = .detection det := by
  cases e with
  | detection d => simpa [OtkEvent.detection?] using h
  | _ => simp [OtkEvent.detection?] at h

namespace EventHistory

def earliestOffset (h : EventHistory) : Option ℕ := h.entries.head?.map LogEntry.offset

def readRange (h : EventHistory) (lo : ℕ) (hi : Option ℕ) : List LogEntry :=
  h.entries.filter fun e => decide (lo ≤ e.offset) && hi.all fun bound => e.offset < bound

def sequenceNumbers (h : EventHistory) (key : GateKey) : Set UInt64 :=
  {seq | ∃ det, (key.1, det) ∈ h.detections ∧ det.detectorId = key.2 ∧ det.sequenceNumber = seq}

theorem mem_detections (h : EventHistory) (producerId : String) (det : Detection) :
    (producerId, det) ∈ h.detections ↔
      ∃ e ∈ h.entries, e.event = .detection det ∧ e.producerId = producerId := by
  simp only [detections, List.mem_filterMap, Option.map_eq_some_iff, Prod.mk.injEq]
  constructor
  · rintro ⟨e, he, d, hd, rfl, rfl⟩
    exact ⟨e, he, OtkEvent.eq_of_detection? hd, rfl⟩
  · rintro ⟨e, he, hev, rfl⟩
    exact ⟨e, he, det, by simp [hev], rfl, rfl⟩

theorem readRange_earliest (h : EventHistory) {o : ℕ} (ho : h.earliestOffset = some o) :
    h.readRange o none = h.entries := by
  have hle : ∀ bs start, (entriesFrom start bs).head?.map LogEntry.offset = some o →
      o = start := by
    intro bs
    induction bs with
    | nil => simp [entriesFrom]
    | cons b bs ih =>
      intro start hs
      cases hb : b.events with
      | nil =>
        have hnil : batchEntries start b = [] := by simp [batchEntries, hb]
        rw [entriesFrom, hnil, List.nil_append, hb] at hs
        exact ih start hs
      | cons e es =>
        have hcons : (batchEntries start b).head?.map LogEntry.offset = some start := by
          simp [batchEntries, hb]
        rw [entriesFrom, List.head?_append] at hs
        cases hh : (batchEntries start b).head? with
        | none => simp [hh] at hcons
        | some x =>
          simp only [hh, Option.some_or, Option.map_some, Option.some.injEq] at hs hcons
          exact hs.symm.trans hcons
  have h0 : o = 0 := hle h.batches 0 ho
  subst h0
  simp [readRange]

end EventHistory

namespace SequenceGate

/-- `seed_from_log` over the port; returns the number of entries scanned. -/
def seedFromPort (g : SequenceGate) (log : EventHistory) : ℕ × SequenceGate :=
  match log.earliestOffset with
  | none => (0, g)
  | some earliest =>
    let entries := log.readRange earliest none
    (entries.length, g.seedFromLog entries)

theorem seedFromPort_eq (g : SequenceGate) (log : EventHistory) :
    g.seedFromPort log = (log.entries.length, g.seedFromLog log.entries) := by
  unfold seedFromPort
  cases ho : log.earliestOffset with
  | none =>
    have hnil : log.entries = [] := by simpa [EventHistory.earliestOffset] using ho
    simp [hnil, seedFromLog]
  | some o => simp only [log.readRange_earliest ho]

/-- Every mark is the largest sequence number stored under its key, and a key
without a mark has none stored. -/
def Tracks (g : SequenceGate) (h : EventHistory) : Prop :=
  ∀ key, (∀ hw, g.highWater.lookup key = some hw → IsGreatest (h.sequenceNumbers key) hw) ∧
    (g.highWater.lookup key = none → h.sequenceNumbers key = ∅)

def Attained (g : SequenceGate) (h : EventHistory) : Prop :=
  ∀ key hw, g.highWater.lookup key = some hw → hw ∈ h.sequenceNumbers key

theorem tracks_of_covers {g : SequenceGate} {h : EventHistory} (ha : g.Attained h)
    (hc : ∀ key, ∀ seq ∈ h.sequenceNumbers key, g.Covers key seq) : g.Tracks h := by
  intro key
  constructor
  · intro hw hlook
    refine ⟨ha key hw hlook, ?_⟩
    intro seq hseq
    obtain ⟨hw', hlook', hle⟩ := hc key seq hseq
    rw [hlook, Option.some.injEq] at hlook'
    exact hlook' ▸ hle
  · intro hnone
    by_contra hne
    obtain ⟨seq, hseq⟩ := Set.nonempty_iff_ne_empty.mpr hne
    obtain ⟨hw, hlook, -⟩ := hc key seq hseq
    simp [hnone] at hlook

theorem Tracks.lookup_eq {g g' : SequenceGate} {h : EventHistory} (hg : g.Tracks h)
    (hg' : g'.Tracks h) (key : GateKey) :
    g.highWater.lookup key = g'.highWater.lookup key := by
  cases hl : g.highWater.lookup key with
  | none =>
    cases hl' : g'.highWater.lookup key with
    | none => rfl
    | some hw =>
      have hmem := ((hg' key).1 hw hl').1
      rw [(hg key).2 hl] at hmem
      exact absurd hmem (Set.notMem_empty hw)
  | some hw =>
    have hgreat := (hg key).1 hw hl
    cases hl' : g'.highWater.lookup key with
    | none =>
      have hmem := hgreat.1
      rw [(hg' key).2 hl'] at hmem
      exact absurd hmem (Set.notMem_empty hw)
    | some hw' =>
      have hgreat' := (hg' key).1 hw' hl'
      rw [UInt64.le_antisymm (hgreat'.2 hgreat.1) (hgreat.2 hgreat'.1)]

/-- A mark that a seed leaves was there before or belongs to a seeded entry. -/
theorem lookup_seedFromLog {g : SequenceGate} {entries : List LogEntry} {key : GateKey}
    {hw : UInt64} (h : (g.seedFromLog entries).highWater.lookup key = some hw) :
    g.highWater.lookup key = some hw ∨ ∃ e ∈ entries, ∃ det, e.event = .detection det ∧
      (e.producerId, det.detectorId) = key ∧ det.sequenceNumber = hw := by
  induction entries generalizing g with
  | nil => exact Or.inl h
  | cons e rest ih =>
    unfold seedFromLog at h
    split at h
    · rename_i det hev
      rcases ih h with hl | ⟨e', he', hdet⟩
      · rw [highWater_commit] at hl
        split_ifs at hl with hk
        · cases hold : g.highWater.lookup key with
          | none =>
            simp only [hold, Option.some.injEq] at hl
            exact Or.inr ⟨e, List.mem_cons_self, det, hev, hk.symm, hl⟩
          | some old =>
            simp only [hold, Option.some.injEq] at hl
            split_ifs at hl with hlt
            · exact Or.inr ⟨e, List.mem_cons_self, det, hev, hk.symm, hl⟩
            · exact Or.inl (congrArg some hl)
        · exact Or.inl hl
      · exact Or.inr ⟨e', List.mem_cons_of_mem _ he', hdet⟩
    · rcases ih h with hl | ⟨e', he', hdet⟩
      · exact Or.inl hl
      · exact Or.inr ⟨e', List.mem_cons_of_mem _ he', hdet⟩

theorem tracks_seed (h : EventHistory) : (new.seedFromLog h.entries).Tracks h := by
  apply tracks_of_covers
  · intro key hw hlook
    rcases lookup_seedFromLog hlook with hnew | ⟨e, he, det, hev, rfl, rfl⟩
    · simp [new] at hnew
    · exact ⟨det, (h.mem_detections _ _).mpr ⟨e, he, hev, rfl⟩, rfl, rfl⟩
  · rintro key seq ⟨det, hdet, hdid, rfl⟩
    obtain ⟨e, he, hev, hpid⟩ := (h.mem_detections _ _).mp hdet
    have hc := new.covers_seedFromLog he hev
    rw [hpid, hdid] at hc
    exact hc

theorem peek_congr {g g' : SequenceGate}
    (h : ∀ key, g.highWater.lookup key = g'.highWater.lookup key) (producerId : String)
    (det : Detection) : g.peek producerId det = g'.peek producerId det := by
  simp only [peek, h]

theorem peek_duplicate {g : SequenceGate} {producerId : String} {det : Detection}
    (h : g.Covers (producerId, det.detectorId) det.sequenceNumber) :
    ∃ hw, g.peek producerId det = .duplicate hw det.sequenceNumber := by
  obtain ⟨hw, hl, hle⟩ := h
  exact ⟨hw, by simp [peek, hl, hle]⟩

end SequenceGate

namespace IngestSystem

variable {n : ℕ}

/-- Answered, or about to be after its gate commit. -/
def acknowledged : Progress → Bool
  | .gated _ _ _ | .finished (.ok _) => true
  | _ => false

/-- What ties the live gate to the log: every mark is stored, everything stored
is covered or belongs to a call between append and commit, and the detection of
an acknowledged call is covered. -/
structure Marked (sys : IngestSystem n) : Prop where
  attained : sys.service.gate.Attained sys.service.log
  stored : ∀ x ∈ sys.service.log.detections,
    sys.service.gate.Covers (x.1, x.2.detectorId) x.2.sequenceNumber ∨
      ∃ j, uncommitted (sys.progress j) = true ∧
        (sys.calls j).producerId = x.1 ∧ (sys.calls j).event = .detection x.2
  batch : ∀ j b, carried (sys.progress j) = some b →
    ∃ ds, b = (sys.calls j).event :: ds ∧ ds.filterMap OtkEvent.detection? = []
  held : ∀ j det, uncommitted (sys.progress j) = true → (sys.calls j).event = .detection det →
    ((sys.calls j).producerId, det) ∈ sys.service.log.detections
  answered : ∀ j det, acknowledged (sys.progress j) = true →
    (sys.calls j).event = .detection det →
    sys.service.gate.Covers ((sys.calls j).producerId, det.detectorId) det.sequenceNumber

theorem Marked.move {sys : IngestSystem n} (h : Marked sys) (i : Fin n)
    (hi : uncommitted (sys.progress i) = false) {s' : EventIngestService}
    (hl : s'.log = sys.service.log) (hg : s'.gate = sys.service.gate) {pr : Progress}
    (hpr : uncommitted pr = false)
    (hcarried : ∀ b, carried pr = some b →
      ∃ ds, b = (sys.calls i).event :: ds ∧ ds.filterMap OtkEvent.detection? = [])
    (hanswered : ∀ det, acknowledged pr = true → (sys.calls i).event = .detection det →
      sys.service.gate.Covers ((sys.calls i).producerId, det.detectorId) det.sequenceNumber) :
    Marked ⟨s', sys.calls, Function.update sys.progress i pr⟩ := by
  refine ⟨by rw [hl, hg]; exact h.attained, ?_, ?_, ?_, ?_⟩
  · intro x hx
    simp only [hl, hg] at hx ⊢
    rcases h.stored x hx with hc | ⟨j, hj, hcall⟩
    · exact Or.inl hc
    · have hji : j ≠ i := by
        rintro rfl
        simp [hi] at hj
      exact Or.inr ⟨j, by simpa [hji] using hj, hcall⟩
  · intro j b hb
    by_cases hji : j = i
    · subst hji
      exact hcarried b (by simpa using hb)
    · exact h.batch j b (by simpa [hji] using hb)
  · intro j det hj hev
    rw [hl]
    by_cases hji : j = i
    · subst hji
      simp [hpr] at hj
    · exact h.held j det (by simpa [hji] using hj) hev
  · intro j det hj hev
    rw [hg]
    by_cases hji : j = i
    · subst hji
      exact hanswered det (by simpa using hj) hev
    · exact h.answered j det (by simpa [hji] using hj) hev

theorem detections_persist (h : EventHistory) (c : IngestCall) (t : ℕ) {ds : List OtkEvent}
    (hds : ds.filterMap OtkEvent.detection? = []) :
    EventHistory.detections ⟨h.batches ++ [⟨c.producerId, t, c.event :: ds⟩]⟩ =
      h.detections ++ c.event.detection?.toList.map fun det => (c.producerId, det) := by
  rw [EventHistory.detections_snoc, List.filterMap_cons, hds]
  cases c.event <;> rfl

theorem Marked.persist {sys : IngestSystem n} (h : Marked sys) (i : Fin n)
    {gap : Option (UInt64 × UInt64)} {batch : List OtkEvent} (o t : ℕ)
    (hi : sys.progress i = .batched gap batch) :
    Marked ⟨{ sys.service with
        log := ⟨sys.service.log.batches ++ [⟨(sys.calls i).producerId, t, batch⟩]⟩ },
      sys.calls, Function.update sys.progress i (.persisted gap batch o)⟩ := by
  obtain ⟨ds, rfl, hds⟩ := h.batch i batch (by simp [hi, carried])
  have hdets := detections_persist sys.service.log (sys.calls i) t hds
  have hgrow : ∀ x ∈ sys.service.log.detections, x ∈ EventHistory.detections
      ⟨sys.service.log.batches ++ [⟨(sys.calls i).producerId, t, (sys.calls i).event :: ds⟩]⟩ := by
    intro x hx
    rw [hdets]
    exact List.mem_append_left _ hx
  refine ⟨?_, ?_, ?_, ?_, ?_⟩
  · intro key hw hlook
    obtain ⟨det, hdet, hdid, hseq⟩ := h.attained key hw hlook
    exact ⟨det, hgrow _ hdet, hdid, hseq⟩
  · intro x hx
    simp only [hdets, List.mem_append, List.mem_map, Option.mem_toList] at hx
    rcases hx with hx | ⟨det, hdet, rfl⟩
    · rcases h.stored x hx with hc | ⟨j, hj, hcall⟩
      · exact Or.inl hc
      · have hji : j ≠ i := by
          rintro rfl
          simp [hi, uncommitted] at hj
        exact Or.inr ⟨j, by simpa [hji] using hj, hcall⟩
    · exact Or.inr ⟨i, by simp [uncommitted], rfl, OtkEvent.eq_of_detection? hdet⟩
  · intro j b hb
    by_cases hji : j = i
    · subst hji
      exact ⟨ds, by simpa [carried] using hb.symm, hds⟩
    · exact h.batch j b (by simpa [hji] using hb)
  · intro j det hj hev
    by_cases hji : j = i
    · subst hji
      simp only [hdets, List.mem_append, List.mem_map, Option.mem_toList]
      have hdet : (sys.calls j).event.detection? = some det := congrArg OtkEvent.detection? hev
      exact Or.inr ⟨det, hdet, rfl⟩
    · exact hgrow _ (h.held j det (by simpa [hji] using hj) hev)
  · intro j det hj hev
    by_cases hji : j = i
    · subst hji
      simp [acknowledged] at hj
    · exact h.answered j det (by simpa [hji] using hj) hev

/-- A gate commit raises one mark, to a number that is stored. -/
theorem attained_commitGate {g : SequenceGate} {h : EventHistory} (ha : g.Attained h)
    (c : IngestCall) (ds : List OtkEvent)
    (hheld : ∀ det, c.event = .detection det → (c.producerId, det) ∈ h.detections) :
    (commitGate g c.producerId (c.event :: ds)).Attained h := by
  cases hev : c.event with
  | detection det =>
    intro key hw hlook
    have hmem : det.sequenceNumber ∈ h.sequenceNumbers (c.producerId, det.detectorId) :=
      ⟨det, hheld det hev, rfl, rfl⟩
    simp only [commitGate, SequenceGate.highWater_commit] at hlook
    split_ifs at hlook with hk
    · subst hk
      cases hold : g.highWater.lookup (c.producerId, det.detectorId) with
      | none =>
        simp only [hold, Option.some.injEq] at hlook
        exact hlook ▸ hmem
      | some old =>
        simp only [hold, Option.some.injEq] at hlook
        split_ifs at hlook with hlt
        · exact hlook ▸ hmem
        · exact hlook ▸ ha _ old hold
    · exact ha key hw hlook
  | _ => exact ha

theorem Marked.commitGate {sys : IngestSystem n} (h : Marked sys) (i : Fin n)
    {gap : Option (UInt64 × UInt64)} {batch : List OtkEvent} {o : ℕ}
    (hi : sys.progress i = .persisted gap batch o) :
    Marked ⟨{ sys.service with
        gate := commitGate sys.service.gate (sys.calls i).producerId batch },
      sys.calls, Function.update sys.progress i (.gated gap batch o)⟩ := by
  obtain ⟨ds, rfl, hds⟩ := h.batch i batch (by simp [hi, carried])
  have hnew : ∀ det, (sys.calls i).event = .detection det →
      (EventIngestService.commitGate sys.service.gate (sys.calls i).producerId
        ((sys.calls i).event :: ds)).Covers
          ((sys.calls i).producerId, det.detectorId) det.sequenceNumber := by
    intro det hev
    rw [hev]
    exact sys.service.gate.covers_commit_self _ det
  refine ⟨?_, ?_, ?_, ?_, ?_⟩
  · exact attained_commitGate h.attained (sys.calls i) ds
      fun det hev => h.held i det (by simp [hi, uncommitted]) hev
  · intro x hx
    rcases h.stored x hx with hc | ⟨j, hj, hpid, hev⟩
    · exact Or.inl (Covers.commitGate hc _ _)
    · by_cases hji : j = i
      · subst hji
        exact Or.inl (hpid ▸ hnew x.2 hev)
      · exact Or.inr ⟨j, by simpa [hji] using hj, hpid, hev⟩
  · intro j b hb
    by_cases hji : j = i
    · subst hji
      exact ⟨ds, by simpa [carried] using hb.symm, hds⟩
    · exact h.batch j b (by simpa [hji] using hb)
  · intro j det hj hev
    by_cases hji : j = i
    · subst hji
      simp [uncommitted] at hj
    · exact h.held j det (by simpa [hji] using hj) hev
  · intro j det hj hev
    by_cases hji : j = i
    · subst hji
      exact hnew det hev
    · exact Covers.commitGate (h.answered j det (by simpa [hji] using hj) hev) _ _

theorem covers_of_drop {sys : IngestSystem n} {i : Fin n} {det : Detection}
    {r : Except StorageError AppendOutcome} (hi : sys.progress i = .ready)
    (hstep : (sys.step i).progress i = .finished r) (hev : (sys.calls i).event = .detection det) :
    sys.service.gate.Covers ((sys.calls i).producerId, det.detectorId) det.sequenceNumber := by
  have hiff := gateVerdict_isSome sys.service.gate (sys.calls i).producerId (sys.calls i).event
  by_contra hnot
  have hsome : (gateVerdict sys.service.gate (sys.calls i).producerId
      (sys.calls i).event).isSome = true := by
    rw [hiff]
    rintro det' hdet'
    rw [hev, OtkEvent.detection.injEq] at hdet'
    exact hdet' ▸ hnot
  obtain ⟨gap, hgap⟩ := Option.isSome_iff_exists.mp hsome
  simp [IngestSystem.step, hi, advance, hgap] at hstep

theorem Marked.step {sys : IngestSystem n} (h : Marked sys) (i : Fin n) :
    Marked (sys.step i) := by
  obtain ⟨s', pr', hstep, hacc⟩ := step_access sys i
  have hpi : (sys.step i).progress i = pr' := by simp [hstep]
  rw [hstep]
  generalize hpr : sys.progress i = pr at hacc
  cases hacc with
  | drop _ r hl hg _ =>
    exact h.move i (by simp [hpr, uncommitted]) hl hg rfl (by simp [carried])
      fun det _ hev => covers_of_drop hpr hpi hev
  | decide gap hv =>
    exact h.move i (by simp [hpr, uncommitted]) rfl rfl rfl (by simp [carried])
      (by simp [acknowledged])
  | derive gap =>
    refine h.move i (by simp [hpr, uncommitted]) rfl rfl rfl ?_ (by simp [acknowledged])
    intro b hb
    exact ⟨_, by simpa [carried] using hb.symm, filterMap_detection?_derive _ _ _⟩
  | fail gap batch e =>
    exact h.move i (by simp [hpr, uncommitted]) rfl rfl rfl (by simp [carried])
      (by simp [acknowledged])
  | persist gap batch o => exact h.persist i o _ hpr
  | commitGate gap batch o => exact h.commitGate i hpr
  | commitProcessor gap batch o s' hl hg hp =>
    exact h.move i (by simp [hpr, uncommitted]) hl hg rfl (by simp [carried])
      fun det _ hev => h.answered i det (by simp [hpr, acknowledged]) hev
  | done r =>
    exact h.move i (by simp [hpr, uncommitted]) rfl rfl rfl (by simp [carried])
      fun det hack hev => h.answered i det (by rwa [hpr]) hev

theorem marked_start (log : EventHistory) (config : ProcessorConfig) (calls : Fin n → IngestCall) :
    Marked (start (seeded log config) calls) := by
  have htracks := SequenceGate.tracks_seed log
  refine ⟨fun key hw hlook => ((htracks key).1 hw hlook).1, ?_, ?_, ?_, ?_⟩
  · intro x hx
    obtain ⟨e, he, hev, hpid⟩ := (log.mem_detections _ _).mp hx
    exact Or.inl (hpid ▸ SequenceGate.covers_seedFromLog _ he hev)
  all_goals simp [start, carried, uncommitted, acknowledged]

theorem marked_run (log : EventHistory) (config : ProcessorConfig) (calls : Fin n → IngestCall)
    (schedule : List (Fin n)) : Marked ((start (seeded log config) calls).run schedule) := by
  have hrun : ∀ (schedule : List (Fin n)) sys, Marked sys → Marked (sys.run schedule) := by
    intro schedule
    induction schedule with
    | nil => exact fun _ h => h
    | cons i rest ih => exact fun sys h => ih _ (h.step i)
  exact hrun schedule _ (marked_start log config calls)

theorem detections_step (sys : IngestSystem n) (i : Fin n) :
    sys.service.log.detections ⊆ (sys.step i).service.log.detections := by
  obtain ⟨s', pr', hstep, hacc⟩ := step_access sys i
  rw [hstep]
  intro x hx
  generalize sys.progress i = pr at hacc
  cases hacc with
  | drop _ r hl hg _ => rwa [hl]
  | persist gap batch o =>
    rw [EventHistory.detections_snoc]
    exact List.mem_append_left _ hx
  | commitProcessor gap batch o s' hl hg hp => rwa [hl]
  | _ => exact hx

theorem detections_run (sys : IngestSystem n) (schedule : List (Fin n)) :
    sys.service.log.detections ⊆ (sys.run schedule).service.log.detections := by
  induction schedule generalizing sys with
  | nil => exact fun _ hx => hx
  | cons i rest ih => exact fun x hx => ih (sys.step i) (detections_step sys i hx)

/-- The calls a node receives between a start and the next, and how far and in
which order they get. -/
structure Life where
  n : ℕ
  calls : Fin n → IngestCall
  schedule : List (Fin n)

/-- The state a life ends in, started over `log`. -/
def Life.final (config : ProcessorConfig) (log : EventHistory) (life : Life) :
    IngestSystem life.n :=
  (start (seeded log config) life.calls).run life.schedule

def logAfter (config : ProcessorConfig) : EventHistory → List Life → EventHistory
  | log, [] => log
  | log, life :: lives => logAfter config (life.final config log).service.log lives

theorem detections_logAfter (config : ProcessorConfig) (log : EventHistory) (lives : List Life) :
    log.detections ⊆ (logAfter config log lives).detections := by
  induction lives generalizing log with
  | nil => exact fun _ hx => hx
  | cons life lives ih =>
    exact fun x hx => ih _ (detections_run _ life.schedule hx)

theorem covers_seed_of_covers {g : SequenceGate} {h h' : EventHistory} (ha : g.Attained h)
    (hsub : h.detections ⊆ h'.detections) {key : GateKey} {seq : UInt64} (hc : g.Covers key seq) :
    (SequenceGate.new.seedFromLog h'.entries).Covers key seq := by
  obtain ⟨hw, hlook, hle⟩ := hc
  obtain ⟨det, hdet, hdid, hseq⟩ := ha key hw hlook
  obtain ⟨e, he, hev, hpid⟩ := (h'.mem_detections _ _).mp (hsub hdet)
  have hcov := SequenceGate.new.covers_seedFromLog he hev
  rw [hpid, hdid, hseq] at hcov
  obtain ⟨hw', hlook', hle'⟩ := hcov
  exact ⟨hw', hlook', UInt64.le_trans hle hle'⟩

/-- In every state of every life of a node: once no call is between its append
and its gate commit, the live gate tracks the log and decides like the gate a
restart would seed; at any point the seeded marks are at least the live ones;
and a detection that was acknowledged is a duplicate after any further lives. -/
theorem restart_preserves_gate (config : ProcessorConfig) (log : EventHistory)
    (earlier : List Life) (life : Life) (later : List Life) :
    let sys := life.final config (logAfter config log earlier)
    let fresh := (SequenceGate.new.seedFromPort sys.service.log).2
    ((∀ j, uncommitted (sys.progress j) = false) →
      sys.service.gate.Tracks sys.service.log ∧
        ∀ producerId det, fresh.peek producerId det = sys.service.gate.peek producerId det) ∧
      (∀ key hw, sys.service.gate.highWater.lookup key = some hw →
        ∃ hw', fresh.highWater.lookup key = some hw' ∧ hw ≤ hw') ∧
      (∀ j outcome det, sys.progress j = .finished (.ok outcome) →
        (sys.calls j).event = .detection det →
        ∃ hw, (SequenceGate.new.seedFromPort (logAfter config sys.service.log later)).2.peek
          (sys.calls j).producerId det = .duplicate hw det.sequenceNumber) := by
  intro sys fresh
  have hmarked : Marked sys := marked_run _ config life.calls life.schedule
  have hfresh : fresh = SequenceGate.new.seedFromLog sys.service.log.entries := by
    simp only [fresh, SequenceGate.seedFromPort_eq]
  refine ⟨?_, ?_, ?_⟩
  · intro hquiet
    have htracks : sys.service.gate.Tracks sys.service.log := by
      apply SequenceGate.tracks_of_covers hmarked.attained
      rintro ⟨producerId, detectorId⟩ seq ⟨det, hdet, rfl, rfl⟩
      rcases hmarked.stored _ hdet with hc | ⟨j, hj, -⟩
      · exact hc
      · rw [hquiet j] at hj
        exact absurd hj Bool.false_ne_true
    refine ⟨htracks, fun producerId det => ?_⟩
    rw [hfresh]
    exact SequenceGate.peek_congr ((SequenceGate.tracks_seed _).lookup_eq htracks) producerId det
  · intro key hw hlook
    obtain ⟨hw', hlook', hle⟩ := covers_seed_of_covers hmarked.attained (fun _ hx => hx)
      ⟨hw, hlook, UInt64.le_refl hw⟩
    exact ⟨hw', hfresh ▸ hlook', hle⟩
  · intro j outcome det hj hev
    have hc := hmarked.answered j det (by simp [hj, acknowledged]) hev
    rw [SequenceGate.seedFromPort_eq]
    exact SequenceGate.peek_duplicate
      (covers_seed_of_covers hmarked.attained (detections_logAfter config _ later) hc)

end IngestSystem
end OtkCore
