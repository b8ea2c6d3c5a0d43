import OtkCore.Core.ConcurrentIngest
import Mathlib.Algebra.BigOperators.Group.Multiset.Basic
import Mathlib.Tactic.Abel

/-!
# Crossings of interleaved ingest calls

The crossings a call stores come from a peek, the group they list is evicted
by a later commit. A call that is between the two stays right as long as no
other commit changes what its peek would return. Under that condition the
stored detections of every key are balanced by the crossings of that key, the
pending group, and what the calls in between still have to commit.
-/
namespace OtkCore

open EventIngestService CrossingProcessor

namespace CrossingProcessor

/-- `det` would still join the group of its key after a commit of `other`. -/
def StaysInside (p : CrossingProcessor) (key : GroupKey) (other det : Detection) : Prop :=
  p.outsideWindow key det = false ∧
    (p.opensGroup key other = true →
      ¬ p.config.groupingWindowNs < satSub det.detectedAtNs other.detectedAtNs)

instance (p : CrossingProcessor) (key : GroupKey) (other det : Detection) :
    Decidable (p.StaysInside key other det) :=
  inferInstanceAs (Decidable (_ ∧ (_ → _)))

theorem outsideWindow_congr {p q : CrossingProcessor} {key : GroupKey} (det : Detection)
    (hc : q.config = p.config) (hl : q.pending.lookup key = p.pending.lookup key) :
    q.outsideWindow key det = p.outsideWindow key det := by
  simp only [outsideWindow, hl, hc]

/-- A commit under another key changes neither window nor group. -/
theorem outsideWindow_commitDetection_of_ne (p : CrossingProcessor) {other : Detection}
    (cid : CrossingId) {key : GroupKey} (det : Detection) (h : groupKey other ≠ some key) :
    (p.commitDetection other cid).2.outsideWindow key det = p.outsideWindow key det :=
  outsideWindow_congr det (config_commitDetection p other cid)
    (by rw [lookup_commitDetection, if_neg h])

theorem StaysInside.after {p : CrossingProcessor} {key : GroupKey} {other det : Detection}
    (h : p.StaysInside key other det) (hk : groupKey other = some key) (cid : CrossingId) :
    (p.commitDetection other cid).2.outsideWindow key det = false := by
  obtain ⟨hin, hnew⟩ := h
  unfold outsideWindow at hin ⊢
  rw [config_commitDetection, lookup_commitDetection, if_pos hk]
  by_cases ho : p.opensGroup key other = true
  · rw [if_pos ho]
    exact decide_eq_false (hnew ho)
  · cases hl : p.pending.lookup key with
    | none => simp [opensGroup, hl] at ho
    | some g =>
      have hfirst : (g.push other).firstDetectedAtNs = g.firstDetectedAtNs := by
        simp [PendingGroup.firstDetectedAtNs, PendingGroup.push, g.nonempty]
      simpa only [ho, hl, Option.map_some, Bool.false_eq_true, if_false, hfirst] using hin

/-- What a detection's peek returns is not changed by a commit that leaves it
inside the window, or that belongs to another key. -/
theorem peekDetection_commitDetection (p : CrossingProcessor) (other det : Detection)
    (cid a : CrossingId)
    (h : ∀ key, groupKey other = some key → groupKey det = some key →
      p.StaysInside key other det) :
    (p.commitDetection other cid).2.peekDetection det a = p.peekDetection det a := by
  unfold peekDetection
  cases hs : det.subjectId with
  | none => rfl
  | some s =>
    have hkey : groupKey det = some (det.timingPointId, s) := by simp [groupKey, hs]
    dsimp only
    by_cases hk : groupKey other = some (det.timingPointId, s)
    · have hstay := h _ hk hkey
      simp [hstay.after hk cid, hstay.1]
    · rw [outsideWindow_commitDetection_of_ne p cid det hk, lookup_commitDetection, if_neg hk]

end CrossingProcessor

namespace IngestSystem

variable {n : ℕ}

/-- Between `peek_detection` and `commit_detection`. -/
def peeked (pr : Progress) : Bool := (carried pr).isSome

/-- Past its `log.append`, before its `commit_detection`. -/
def stored : Progress → Bool
  | .persisted _ _ _ | .gated _ _ _ => true
  | _ => false

def gated : Progress → Bool
  | .gated _ _ _ => true
  | _ => false

/-- A `commit_detection` is made while every other call of the same key that has
peeked and not committed carries a detection that joins the key's group, before
this commit and after it. -/
def CommitsClear (sys : IngestSystem n) (i : Fin n) : Prop :=
  gated (sys.progress i) = true → ∀ a ∈ (sys.calls i).event.detection?, ∀ key ∈ groupKey a,
    ∀ j ≠ i, peeked (sys.progress j) = true → ∀ b ∈ (sys.calls j).event.detection?,
      groupKey b = some key → sys.service.processor.StaysInside key a b

instance (sys : IngestSystem n) (i : Fin n) : Decidable (CommitsClear sys i) :=
  inferInstanceAs (Decidable (gated (sys.progress i) = true →
    ∀ a ∈ (sys.calls i).event.detection?, ∀ key ∈ groupKey a,
    ∀ j ≠ i, peeked (sys.progress j) = true → ∀ b ∈ (sys.calls j).event.detection?,
      groupKey b = some key → sys.service.processor.StaysInside key a b))

/-- Ids the call's commit will add to the group of `key`. -/
def adds (key : GroupKey) (event : OtkEvent) : Multiset DetectionId :=
  match event with
  | .detection det => if groupKey det = some key then {det.detectionId} else 0
  | _ => 0

/-- Ids the call's commit would evict from the group of `key`. -/
def evicts (p : CrossingProcessor) (key : GroupKey) (event : OtkEvent) : Multiset DetectionId :=
  match event with
  | .detection det =>
    if groupKey det = some key ∧ p.outsideWindow key det = true then
      ↑((p.group key).map Detection.detectionId)
    else 0
  | _ => 0

/-- What a call contributes to `owed`: it stored its batch and has not committed. -/
def share (f : OtkEvent → Multiset DetectionId) (c : IngestCall) (pr : Progress) :
    Multiset DetectionId :=
  if stored pr then f c.event else 0

def owed (sys : IngestSystem n) (f : OtkEvent → Multiset DetectionId) : Multiset DetectionId :=
  ∑ j, share f (sys.calls j) (sys.progress j)

/-- The part of `owed` that calls other than `i` contribute. -/
def owedByOthers (sys : IngestSystem n) (i : Fin n) (f : OtkEvent → Multiset DetectionId) :
    Multiset DetectionId :=
  ∑ j ∈ Finset.univ.erase i, share f (sys.calls j) (sys.progress j)

theorem owed_eq (sys : IngestSystem n) (i : Fin n) (f : OtkEvent → Multiset DetectionId) :
    sys.owed f = share f (sys.calls i) (sys.progress i) + sys.owedByOthers i f :=
  (Finset.add_sum_erase _ _ (Finset.mem_univ i)).symm

theorem owed_update (sys : IngestSystem n) (s' : EventIngestService) (i : Fin n) (pr' : Progress)
    (f : OtkEvent → Multiset DetectionId) :
    (⟨s', sys.calls, Function.update sys.progress i pr'⟩ : IngestSystem n).owed f =
      share f (sys.calls i) pr' + sys.owedByOthers i f := by
  rw [owed_eq _ i]
  congr 1
  · simp
  · refine Finset.sum_congr rfl fun j hj => ?_
    simp [Function.update_of_ne (Finset.ne_of_mem_erase hj)]

/-- The stored detections of a key, with what its crossings, its group and the
calls before their commit account for. -/
structure Balanced (sys : IngestSystem n) : Prop where
  keyed : sys.service.processor.Keyed
  noCrossing : ∀ j, (sys.calls j).event.crossing? = none
  batch : ∀ j b, carried (sys.progress j) = some b → b = (sys.calls j).event ::
    deriveCrossings sys.service.processor (sys.calls j).env.crossingId (sys.calls j).event
  balance : ∀ key, (detectionIdsOf sys.service.log key : Multiset DetectionId) +
      sys.owed (evicts sys.service.processor key) =
    ↑(crossingIdsOf sys.service.log key) +
      ↑((sys.service.processor.group key).map Detection.detectionId) + sys.owed (adds key)

/-- A step that touches neither log nor processor keeps the balance. -/
theorem Balanced.quiet {sys : IngestSystem n} (h : Balanced sys) (i : Fin n)
    {s' : EventIngestService} {pr' : Progress} (hl : s'.log = sys.service.log)
    (hp : s'.processor = sys.service.processor) (hst : stored pr' = stored (sys.progress i))
    (hb : ∀ b, carried pr' = some b → b = (sys.calls i).event ::
      deriveCrossings sys.service.processor (sys.calls i).env.crossingId (sys.calls i).event) :
    Balanced ⟨s', sys.calls, Function.update sys.progress i pr'⟩ := by
  refine ⟨by rw [hp]; exact h.keyed, h.noCrossing, ?_, ?_⟩
  · intro j b hj
    rw [hp]
    by_cases hji : j = i
    · subst hji
      exact hb b (by simpa using hj)
    · exact h.batch j b (by simpa [hji] using hj)
  · intro key
    have hshare : ∀ f, share f (sys.calls i) pr' = share f (sys.calls i) (sys.progress i) :=
      fun f => by rw [share, share, hst]
    rw [owed_update, owed_update, hshare, hshare, ← owed_eq, ← owed_eq, hl, hp]
    exact h.balance key

/-- Storing a batch adds its detection and the ids its commit would evict. -/
theorem ids_snoc {p : CrossingProcessor} (hp : p.Keyed) (h : EventHistory) (c : IngestCall)
    (hc : c.event.crossing? = none) (t : ℕ) (key : GroupKey) :
    let b : Batch := ⟨c.producerId, t, c.event :: deriveCrossings p c.env.crossingId c.event⟩
    (detectionIdsOf ⟨h.batches ++ [b]⟩ key : Multiset DetectionId) =
        detectionIdsOf h key + adds key c.event ∧
      (crossingIdsOf ⟨h.batches ++ [b]⟩ key : Multiset DetectionId) =
        crossingIdsOf h key + evicts p key c.event := by
  intro b
  cases hev : c.event with
  | detection det =>
    simp only [b, hev]
    rw [detectionIdsOf_snoc, crossingIdsOf_snoc hp, ← Multiset.coe_add, ← Multiset.coe_add]
    constructor
    · unfold adds
      dsimp only
      split_ifs <;> rfl
    · unfold evicts
      dsimp only
      split_ifs <;> rfl
  | crossing x => simp [hev] at hc
  | _ =>
    have hd : c.event.detection? = none := by rw [hev]; rfl
    obtain ⟨hids, hcids⟩ := ids_snoc_other h.batches c.producerId t hd hc key
    simp only [adds, evicts, add_zero, b, hev, deriveCrossings] at hids hcids ⊢
    rw [hids, hcids]
    exact ⟨rfl, rfl⟩

theorem Balanced.persist {sys : IngestSystem n} (h : Balanced sys) (i : Fin n)
    {gap : Option (UInt64 × UInt64)} {batch : List OtkEvent} (o t : ℕ)
    (hi : sys.progress i = .batched gap batch) :
    Balanced ⟨{ sys.service with
        log := ⟨sys.service.log.batches ++ [⟨(sys.calls i).producerId, t, batch⟩]⟩ },
      sys.calls, Function.update sys.progress i (.persisted gap batch o)⟩ := by
  obtain rfl := h.batch i batch (by simp [hi, carried])
  refine ⟨h.keyed, h.noCrossing, ?_, ?_⟩
  · intro j b hj
    by_cases hji : j = i
    · subst hji
      simpa [carried, eq_comm] using hj
    · exact h.batch j b (by simpa [hji] using hj)
  · intro key
    obtain ⟨hd, hc⟩ := ids_snoc h.keyed sys.service.log _ (h.noCrossing i) t key
    have hbal := h.balance key
    rw [owed_eq _ i, owed_eq _ i, hi] at hbal
    rw [owed_update, owed_update, hd, hc]
    simp only [share, stored, Bool.false_eq_true, if_false, if_true, zero_add] at hbal ⊢
    calc _ = (↑(detectionIdsOf sys.service.log key) +
          sys.owedByOthers i (evicts sys.service.processor key)) +
          (adds key (sys.calls i).event + evicts sys.service.processor key (sys.calls i).event) := by
            abel
      _ = _ := by rw [hbal]; abel

/-- The group of `key` after a commit: the evicted ids leave, the new one joins. -/
theorem group_commitProcessor (p : CrossingProcessor) (event : OtkEvent) (cid : CrossingId)
    (ds : List OtkEvent) (key : GroupKey) :
    (↑(((commitProcessor p cid (event :: ds)).group key).map Detection.detectionId) +
        evicts p key event : Multiset DetectionId) =
      ↑((p.group key).map Detection.detectionId) + adds key event := by
  cases event with
  | detection det =>
    simp only [commitProcessor, group_commitDetection, evicts, adds]
    by_cases hk : groupKey det = some key
    · by_cases ho : p.outsideWindow key det = true
      · simp [hk, ho, add_comm]
      · simp only [hk, ho, and_false, if_true, if_false, Bool.false_eq_true, List.map_append,
          ← Multiset.coe_add, add_zero]
        rfl
    · simp [hk]
  | _ => simp [commitProcessor, evicts, adds]

/-- What another call would evict or has derived is not changed by a commit
that leaves its detection inside the window. -/
theorem derived_commitProcessor (p : CrossingProcessor) (event other : OtkEvent)
    (cid a : CrossingId) (ds : List OtkEvent)
    (h : ∀ x ∈ event.detection?, ∀ key ∈ groupKey x, ∀ y ∈ other.detection?,
      groupKey y = some key → p.StaysInside key x y) :
    deriveCrossings (commitProcessor p cid (event :: ds)) a other = deriveCrossings p a other ∧
      ∀ key, evicts (commitProcessor p cid (event :: ds)) key other = evicts p key other := by
  cases event with
  | detection x =>
    cases other with
    | detection y =>
      have hstay := fun key hx hy => h x rfl key hx y rfl hy
      refine ⟨?_, fun key => ?_⟩
      · simp only [deriveCrossings, commitProcessor]
        rw [peekDetection_commitDetection _ _ _ _ _ hstay]
      · simp only [evicts, commitProcessor]
        by_cases hy : groupKey y = some key
        · by_cases hx : groupKey x = some key
          · have hs := hstay key hx hy
            simp [hs.1, hs.after hx cid]
          · simp only [outsideWindow_commitDetection_of_ne p cid y hx, group_commitDetection, hx,
              if_false]
        · simp [hy]
    | _ => exact ⟨rfl, fun _ => rfl⟩
  | _ => exact ⟨rfl, fun _ => rfl⟩

theorem Balanced.commitProcessor {sys : IngestSystem n} (h : Balanced sys) (i : Fin n)
    {gap : Option (UInt64 × UInt64)} {batch : List OtkEvent} {o : ℕ} {s' : EventIngestService}
    {cid : CrossingId} (r : Except StorageError AppendOutcome)
    (hi : sys.progress i = .gated gap batch o) (hok : CommitsClear sys i)
    (hl : s'.log = sys.service.log)
    (hp : s'.processor = commitProcessor sys.service.processor cid batch) :
    Balanced ⟨s', sys.calls, Function.update sys.progress i (.finished r)⟩ := by
  obtain rfl := h.batch i batch (by simp [hi, carried])
  have hothers := fun j (hj : j ≠ i) (hpk : peeked (sys.progress j) = true) =>
    derived_commitProcessor sys.service.processor (sys.calls i).event (sys.calls j).event cid
      (sys.calls j).env.crossingId
      (deriveCrossings sys.service.processor (sys.calls i).env.crossingId (sys.calls i).event)
      fun x hx key hkey y hy hyk => hok (by simp [hi, gated]) x hx key hkey j hj hpk y hy hyk
  refine ⟨?_, h.noCrossing, ?_, ?_⟩
  · rw [hp]
    unfold EventIngestService.commitProcessor
    split
    · exact h.keyed.commitDetection _ _
    · exact h.keyed
  · intro j b hj
    by_cases hji : j = i
    · subst hji
      simp [carried] at hj
    · have hj' : carried (sys.progress j) = some b := by simpa [hji] using hj
      rw [hp, (hothers j hji (by simp [peeked, hj'])).1]
      exact h.batch j b hj'
  · intro key
    have hsame : sys.owedByOthers i (evicts s'.processor key) =
        sys.owedByOthers i (evicts sys.service.processor key) := by
      refine Finset.sum_congr rfl fun j hj => ?_
      have hji := Finset.ne_of_mem_erase hj
      unfold share
      split_ifs with hst
      · rw [hp, (hothers j hji _).2 key]
        cases hpr : sys.progress j <;> simp_all [stored, peeked, carried]
      · rfl
    have hgroup := group_commitProcessor sys.service.processor (sys.calls i).event cid
      (deriveCrossings sys.service.processor (sys.calls i).env.crossingId (sys.calls i).event) key
    have hbal := h.balance key
    rw [owed_eq _ i, owed_eq _ i, hi] at hbal
    rw [owed_update, owed_update, hsame, hl, hp]
    simp only [share, stored, Bool.false_eq_true, if_false, if_true, zero_add] at hbal ⊢
    apply add_right_cancel (b := evicts sys.service.processor key (sys.calls i).event)
    calc _ = ↑(detectionIdsOf sys.service.log key) +
          (evicts sys.service.processor key (sys.calls i).event +
            sys.owedByOthers i (evicts sys.service.processor key)) := by abel
      _ = ↑(crossingIdsOf sys.service.log key) +
          (↑((sys.service.processor.group key).map Detection.detectionId) +
            adds key (sys.calls i).event) + sys.owedByOthers i (adds key) := by
          rw [hbal]; abel
      _ = _ := by rw [← hgroup]; abel

theorem Balanced.step {sys : IngestSystem n} (h : Balanced sys) (i : Fin n)
    (hok : CommitsClear sys i) : Balanced (sys.step i) := by
  obtain ⟨s', pr', hstep, hacc⟩ := step_access sys i
  rw [hstep]
  generalize hpr : sys.progress i = pr at hacc
  cases hacc with
  | drop _ r hl _ hp => exact h.quiet i hl hp (by simp [hpr, stored]) (by simp [carried])
  | decide gap _ => exact h.quiet i rfl rfl (by simp [hpr, stored]) (by simp [carried])
  | derive gap => exact h.quiet i rfl rfl (by simp [hpr, stored]) (by simp [carried])
  | fail gap batch e => exact h.quiet i rfl rfl (by simp [hpr, stored]) (by simp [carried])
  | persist gap batch o => exact h.persist i o _ hpr
  | commitGate gap batch o =>
    refine h.quiet i rfl rfl (by simp [hpr, stored]) fun b hb => h.batch i b ?_
    simpa [hpr, carried] using hb
  | commitProcessor gap batch o s' hl hg hp => exact h.commitProcessor i _ hpr hok hl hp
  | done r => exact h.quiet i rfl rfl (by simp [hpr, stored]) (by simp [carried])

theorem balanced_start (config : ProcessorConfig) (gate : SequenceGate)
    (calls : Fin n → IngestCall) (hcalls : ∀ j, (calls j).event.crossing? = none) :
    Balanced (start (.new .empty config gate) calls) := by
  refine ⟨keyed_new config, hcalls, by simp [start, carried], fun key => ?_⟩
  simp [start, owed, share, stored, detectionIdsOf, crossingIdsOf, EventHistory.detections,
    EventHistory.crossings, EventHistory.entries, EventHistory.entriesFrom, EventHistory.empty,
    EventIngestService.new, CrossingProcessor.new, group]

/-- No call is between its first and its last access. -/
def Quiescent (sys : IngestSystem n) : Prop :=
  ∀ j, unstored (sys.progress j) = false ∧ stored (sys.progress j) = false

instance (sys : IngestSystem n) : Decidable (Quiescent sys) :=
  inferInstanceAs (Decidable (∀ _, _ ∧ _))

/-- Along every schedule that keeps the peeks of calls in between valid, each
stored detection is listed once when the calls have come to rest. -/
theorem run_conserves_detections (config : ProcessorConfig) (gate : SequenceGate)
    (calls : Fin n → IngestCall) (hcalls : ∀ j, (calls j).event.crossing? = none)
    (schedule : List (Fin n))
    (hclear : Along CommitsClear (start (.new .empty config gate) calls) schedule) :
    let sys := (start (.new .empty config gate) calls).run schedule
    Quiescent sys → ∀ key,
      (detectionIdsOf sys.service.log key : Multiset DetectionId) =
        ↑(crossingIdsOf sys.service.log key) +
          ↑((sys.service.processor.group key).map Detection.detectionId) := by
  intro sys hq key
  have h : Balanced sys :=
    run_invariant (fun _ i h hok => h.step i hok) (balanced_start config gate calls hcalls)
      schedule hclear
  have hzero : ∀ f, sys.owed f = 0 := fun f =>
    Finset.sum_eq_zero fun j _ => by simp [share, (hq j).2]
  simpa [hzero] using h.balance key

/-- Three detections of one subject: the later two lie outside the first one's
window and close to each other. -/
def lapCalls : Fin 3 → IngestCall
  | 0 => detectionCall "d1" 0 1
  | 1 => detectionCall "d2" 10000000000 2
  | 2 => detectionCall "d3" 11000000000 3

/-- The calls for `d2` and `d3` both peek while `d1` is pending, so both store a
crossing that lists `d1`. -/
theorem overlapping_peeks_list_twice :
    let sys := (start (.new .empty {} .new) lapCalls).run
      [0, 0, 0, 0, 0, 1, 1, 2, 2, 1, 1, 1, 2, 2, 2]
    Quiescent sys ∧ ¬ ∀ key,
      (detectionIdsOf sys.service.log key : Multiset DetectionId) =
        ↑(crossingIdsOf sys.service.log key) +
          ↑((sys.service.processor.group key).map Detection.detectionId) := by
  refine ⟨by decide, fun h => ?_⟩
  exact absurd (h (⟨"tp"⟩, ⟨"s"⟩)) (by decide)

/-- The same calls, `d3` peeking after `d2` has committed. -/
theorem run_conserves_detections_in_turn :
    let sys := (start (.new .empty {} .new) lapCalls).run
      [0, 0, 0, 0, 0, 1, 1, 1, 2, 1, 1, 2, 2, 2, 2]
    ∀ key, (detectionIdsOf sys.service.log key : Multiset DetectionId) =
      ↑(crossingIdsOf sys.service.log key) +
        ↑((sys.service.processor.group key).map Detection.detectionId) :=
  run_conserves_detections {} .new lapCalls (by decide) _ (by decide) (by decide)

end IngestSystem
end OtkCore
