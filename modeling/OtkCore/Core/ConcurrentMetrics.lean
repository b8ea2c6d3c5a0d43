import OtkCore.Core.ConcurrentIngest
import OtkCore.Core.IngestMetrics
import Mathlib.Tactic.Abel

/-!
# Metrics of interleaved calls

A call counts its batch only after it has stored it and committed, so between two
accesses the metrics lag behind the log by the batches of the calls in between, and
by nothing else. Duplicates are counted in the access that drops them.
-/
namespace OtkCore

open EventIngestService

namespace IngestSystem

variable {n : ℕ}

def batch? : Progress → Option (List OtkEvent)
  | .batched _ batch => some batch
  | .persisted _ batch _ => some batch
  | .gated _ batch _ => some batch
  | _ => none

/-- The labels of a batch that is stored and not counted yet. -/
def uncounted (c : IngestCall) : Progress → Multiset (String × String)
  | .persisted _ batch _ => ↑(Batch.labels ⟨c.producerId, 0, batch⟩)
  | .gated _ batch _ => ↑(Batch.labels ⟨c.producerId, 0, batch⟩)
  | _ => 0

def droppedAs (c : IngestCall) : Progress → Multiset (String × String)
  | .finished (.ok .droppedDuplicate) =>
    ↑(c.event.detection?.toList.map fun det => (c.producerId, det.detectorId.asStr))
  | _ => 0

/-- What the calls have stored and not counted yet. -/
def lag (sys : IngestSystem n) : Multiset (String × String) :=
  ∑ i, uncounted (sys.calls i) (sys.progress i)

def dropped (sys : IngestSystem n) : Multiset (String × String) :=
  ∑ i, droppedAs (sys.calls i) (sys.progress i)

/-- A batch starts with the submitted event; the rest is derived. -/
def Shaped (c : IngestCall) (pr : Progress) : Prop :=
  ∀ batch, batch? pr = some batch → ∃ xs : List CrossingEvent, batch = c.event :: xs.map .crossing

/-- One access: the batches it stores and the metrics it records, against what the
call had not counted before it and after it. -/
structure Counts (s s' : EventIngestService) (c : IngestCall) (pr pr' : Progress)
    (stored : List Batch) (recorded : List IngestMetric) : Prop where
  shaped : Shaped c pr'
  log : s'.log.batches = s.log.batches ++ stored
  metrics : s'.metrics = s.metrics ++ recorded
  appended : (↑(recorded.filterMap IngestMetric.appended?) : Multiset (String × String)) +
    uncounted c pr' = uncounted c pr + ↑(stored.flatMap Batch.labels)
  duplicates : (↑(recorded.filterMap IngestMetric.duplicate?) : Multiset (String × String)) +
    droppedAs c pr = droppedAs c pr'

theorem Counts.silent (s s' : EventIngestService) (c : IngestCall) {pr pr' : Progress}
    (hshaped : Shaped c pr') (hlog : s'.log = s.log) (hmetrics : s'.metrics = s.metrics)
    (huncounted : uncounted c pr' = uncounted c pr) (hdropped : droppedAs c pr = droppedAs c pr') :
    Counts s s' c pr pr' [] [] := by
  constructor
  · exact hshaped
  · rw [hlog, List.append_nil]
  · rw [hmetrics, List.append_nil]
  · simpa using huncounted
  · simpa using hdropped

theorem duplicate?_duplicateMetrics (producerId : String) (event : OtkEvent) :
    (duplicateMetrics producerId event).filterMap IngestMetric.duplicate? =
      event.detection?.toList.map fun det => (producerId, det.detectorId.asStr) := by
  cases event <;> rfl

theorem appended?_duplicateMetrics (producerId : String) (event : OtkEvent) :
    (duplicateMetrics producerId event).filterMap IngestMetric.appended? = [] := by
  cases event <;> rfl

theorem advance_counts (s : EventIngestService) (c : IngestCall) {pr : Progress}
    (hshaped : Shaped c pr) :
    ∃ stored recorded, Counts s (s.advance c.producerId c.event c.env pr).1 c pr
      (s.advance c.producerId c.event c.env pr).2 stored recorded := by
  cases pr with
  | ready =>
    cases hv : gateVerdict s.gate c.producerId c.event with
    | none =>
      refine ⟨[], duplicateMetrics c.producerId c.event, ?_⟩
      simp only [advance, hv]
      constructor
      · simp [Shaped, batch?]
      · rw [List.append_nil]
      · rfl
      · rw [appended?_duplicateMetrics]
        rfl
      · rw [duplicate?_duplicateMetrics]
        simp [droppedAs]
    | some gap =>
      refine ⟨[], [], ?_⟩
      simp only [advance, hv]
      apply Counts.silent <;> simp [Shaped, batch?, uncounted, droppedAs]
  | decided gap =>
    refine ⟨[], [], ?_⟩
    simp only [advance]
    apply Counts.silent
    · rintro batch ⟨⟩
      obtain ⟨xs, hxs⟩ := exists_deriveCrossings s.processor c.env.crossingId c.event
      exact ⟨xs, by rw [hxs]⟩
    all_goals rfl
  | batched gap batch =>
    rcases s.log.append_cases c.producerId batch c.env.append with ⟨e, he⟩ | ⟨o, ho⟩
    · refine ⟨[], [], ?_⟩
      simp only [advance, he]
      apply Counts.silent <;> simp [Shaped, batch?, uncounted, droppedAs]
    · refine ⟨[⟨c.producerId, c.env.append.appendedAtNs, batch⟩], [], ?_⟩
      simp only [advance, ho]
      constructor
      · simpa [Shaped, batch?] using hshaped
      · rfl
      · rw [List.append_nil]
      · simp [uncounted, Batch.labels]
      · simp [droppedAs]
  | persisted gap batch o =>
    refine ⟨[], [], ?_⟩
    simp only [advance]
    apply Counts.silent
    · simpa [Shaped, batch?] using hshaped
    all_goals rfl
  | gated gap batch o =>
    obtain ⟨xs, rfl⟩ := hshaped batch rfl
    refine ⟨[], appendedMetrics c.producerId gap (c.event :: xs.map .crossing), ?_⟩
    simp only [advance]
    constructor
    · simp [Shaped, batch?]
    · rw [List.append_nil]
    · rfl
    · have hlabels : (⟨c.producerId, 0, c.event :: xs.map .crossing⟩ : Batch).labels = _ :=
        Batch.labels_eq rfl
      simp [appended?_appendedMetrics, uncounted, hlabels]
    · rw [duplicate?_appendedMetrics]
      simp [droppedAs]
  | finished r =>
    refine ⟨[], [], ?_⟩
    simp only [advance]
    apply Counts.silent <;> simp [Shaped, batch?]

/-- What one call contributes changes with its progress; the others' do not. -/
theorem sum_update {M : Type} [AddCommMonoid M] (f : Fin n → Progress → M)
    (progress : Fin n → Progress) (i : Fin n) (pr : Progress) :
    ∑ j, f j (Function.update progress i pr j) + f i (progress i) =
      ∑ j, f j (progress j) + f i pr := by
  have hothers : ∑ j ∈ Finset.univ.erase i, f j (Function.update progress i pr j) =
      ∑ j ∈ Finset.univ.erase i, f j (progress j) := by
    apply Finset.sum_congr rfl
    intro j hj
    rw [Function.update_of_ne (Finset.ne_of_mem_erase hj)]
  rw [← Finset.add_sum_erase _ _ (Finset.mem_univ i), hothers, Function.update_self,
    ← Finset.add_sum_erase _ (fun j => f j (progress j)) (Finset.mem_univ i)]
  abel

/-- The metrics and the batches stored since the log was `batches`. -/
structure Counted (batches added : List Batch) (sys : IngestSystem n) : Prop where
  shaped : ∀ i, Shaped (sys.calls i) (sys.progress i)
  log : sys.service.log.batches = batches ++ added
  appended : (↑(sys.service.metrics.filterMap IngestMetric.appended?) :
    Multiset (String × String)) + sys.lag = ↑(added.flatMap Batch.labels)
  duplicates : (↑(sys.service.metrics.filterMap IngestMetric.duplicate?) :
    Multiset (String × String)) = sys.dropped

theorem Counted.step {batches added : List Batch} {sys : IngestSystem n}
    (h : Counted batches added sys) (i : Fin n) :
    ∃ stored, Counted batches (added ++ stored) (sys.step i) := by
  obtain ⟨stored, recorded, hcounts⟩ := advance_counts sys.service (sys.calls i) (h.shaped i)
  set r := sys.service.advance (sys.calls i).producerId (sys.calls i).event (sys.calls i).env
    (sys.progress i) with hr
  have hstep : sys.step i = ⟨r.1, sys.calls, Function.update sys.progress i r.2⟩ := rfl
  refine ⟨stored, ?_⟩
  rw [hstep]
  constructor
  · intro j
    by_cases hji : j = i
    · subst hji
      simpa using hcounts.shaped
    · simpa [hji] using h.shaped j
  · rw [hcounts.log, h.log, List.append_assoc]
  · have hlag := sum_update (fun j => uncounted (sys.calls j)) sys.progress i r.2
    have hbefore := h.appended
    have hnow := hcounts.appended
    rw [lag] at hbefore
    rw [hcounts.metrics, List.filterMap_append, ← Multiset.coe_add, List.flatMap_append,
      ← Multiset.coe_add, ← hbefore, lag]
    apply add_right_cancel (b := uncounted (sys.calls i) (sys.progress i))
    rw [add_assoc _ _ (uncounted (sys.calls i) (sys.progress i)), hlag]
    calc _ = ↑(sys.service.metrics.filterMap IngestMetric.appended?) +
          ∑ j, uncounted (sys.calls j) (sys.progress j) +
          (↑(recorded.filterMap IngestMetric.appended?) + uncounted (sys.calls i) r.2) := by abel
      _ = _ := by rw [hnow]; abel
  · have hdropped := sum_update (fun j => droppedAs (sys.calls j)) sys.progress i r.2
    have hbefore := h.duplicates
    have hnow := hcounts.duplicates
    rw [dropped] at hbefore
    rw [hcounts.metrics, List.filterMap_append, ← Multiset.coe_add, hbefore, dropped]
    apply add_right_cancel (b := droppedAs (sys.calls i) (sys.progress i))
    rw [hdropped, add_assoc, hnow]

/-- In any interleaving the metrics lag behind the log by the batches of the calls
between their append and the end of their commit. -/
theorem counted_run (service : EventIngestService) (hnew : service.metrics = [])
    (calls : Fin n → IngestCall) (schedule : List (Fin n)) :
    ∃ added, Counted service.log.batches added ((start service calls).run schedule) := by
  have hstart : Counted service.log.batches [] (start service calls) := by
    constructor
    · simp [start, Shaped, batch?]
    · simp [start]
    · simp [start, hnew, lag, uncounted]
    · simp [start, hnew, dropped, droppedAs]
  have hruns : ∀ schedule added sys, Counted (n := n) service.log.batches added sys →
      ∃ added, Counted service.log.batches added (sys.run schedule) := by
    intro schedule
    induction schedule with
    | nil => exact fun added sys h => ⟨added, h⟩
    | cons i schedule ih =>
      intro added sys h
      obtain ⟨stored, hstep⟩ := h.step i
      exact ih _ _ hstep
  exact hruns schedule [] _ hstart

end IngestSystem

end OtkCore
