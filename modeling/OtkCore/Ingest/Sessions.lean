import OtkCore.Ingest.Resume
import OtkCore.Lib.Isolation

/-!
# Sessions side by side

Every connection has a task of its own, and their ingest calls interleave access by
access. A producer that no other session speaks for is served as if it were alone:
the gate keeps its marks apart, and what others store or lose does not change what is
stored of it.
-/
namespace OtkCore.Ingest

open EventIngestService Isolation

/-- What a session has still to deliver, how many events it has delivered before the
one under way, and how far the call for that one has come. -/
structure Serving where
  waiting : List OtkEvent
  served : ℕ := 0
  call : Option (OtkEvent × Progress) := none

namespace Serving

/-- The session goes on with its call, its next event, or nothing behind a failure. -/
def after (t : Serving) (event : OtkEvent) : Progress → Serving
  | .finished (.ok _) => { t with served := t.served + 1, call := none }
  | .finished (.error _) => { t with waiting := [], call := none }
  | progress => { t with call := some (event, progress) }

/-- The next access of the session of a producer. -/
def next (producerId : String) (env : ℕ → IngestEnv) (s : EventIngestService) (t : Serving) :
    EventIngestService × Serving :=
  match t.call with
  | some (event, progress) =>
    let r := s.advance producerId event (env t.served) progress
    (r.1, t.after event r.2)
  | none =>
    match t.waiting with
    | [] => (s, t)
    | event :: waiting =>
      let r := s.advance producerId event (env t.served) .ready
      (r.1, { t with waiting }.after event r.2)

def Done (t : Serving) : Prop := t.call = none ∧ t.waiting = []

end Serving

def complete (producerId : String) (event : OtkEvent) (env : IngestEnv)
    (x : EventIngestService × Progress) : EventIngestService × Progress :=
  (fun p => p.1.advance producerId event env p.2)^[5] x

section Alone

variable {producerId : String} {event : OtkEvent} {env : IngestEnv}

theorem exists_finished (producerId : String) (event : OtkEvent) (env : IngestEnv)
    (x : EventIngestService × Progress) :
    ∃ r, (complete producerId event env x).2 = .finished r := by
  obtain ⟨s, progress⟩ := x
  cases progress with
  | ready =>
    have hall := s.advanceAll_eq_appendEvent producerId event env
    rw [complete, ← advanceAll, hall]
    exact ⟨_, rfl⟩
  | decided gap =>
    rcases s.log.append_cases producerId (event :: deriveCrossings s.processor env.crossingId event)
      env.append with ⟨e, h⟩ | ⟨o, h⟩
    · exact ⟨.error e, by simp [complete, advance, h]⟩
    · exact ⟨.ok (.appended o), by simp [complete, advance, h]⟩
  | batched gap batch =>
    rcases s.log.append_cases producerId batch env.append with ⟨e, h⟩ | ⟨o, h⟩
    · exact ⟨.error e, by simp [complete, advance, h]⟩
    · exact ⟨.ok (.appended o), by simp [complete, advance, h]⟩
  | persisted gap batch o => exact ⟨_, rfl⟩
  | gated gap batch o => exact ⟨_, rfl⟩
  | finished r => exact ⟨r, rfl⟩

theorem complete_advance (s : EventIngestService) (progress : Progress) :
    complete producerId event env (s.advance producerId event env progress) =
      complete producerId event env (s, progress) := by
  obtain ⟨r, hr⟩ := exists_finished producerId event env (s, progress)
  have hfixed : (complete producerId event env (s, progress)).1.advance producerId event env
      (complete producerId event env (s, progress)).2 =
        complete producerId event env (s, progress) := by
    rw [hr]
    exact Prod.ext rfl hr.symm
  calc complete producerId event env (s.advance producerId event env progress)
      = (fun p => p.1.advance producerId event env p.2)^[6] (s, progress) := rfl
    _ = (complete producerId event env (s, progress)).1.advance producerId event env
          (complete producerId event env (s, progress)).2 := rfl
    _ = complete producerId event env (s, progress) := hfixed

theorem complete_ready (s : EventIngestService) :
    complete producerId event env (s, .ready) = ((s.appendEvent producerId event env).2,
      .finished (s.appendEvent producerId event env).1) :=
  s.advanceAll_eq_appendEvent producerId event env

end Alone

/-- What a session that goes on alone leaves behind. -/
def Serving.final (producerId : String) (env : ℕ → IngestEnv)
    (x : EventIngestService × Serving) : EventIngestService :=
  match x.2.call with
  | none => submit producerId (fun n => env (x.2.served + n)) x.1 x.2.waiting
  | some (event, progress) =>
    match complete producerId event (env x.2.served) (x.1, progress) with
    | (s, .finished (.ok _)) => submit producerId (fun n => env (x.2.served + 1 + n)) s x.2.waiting
    | (s, _) => s

section Final

variable {producerId : String} {env : ℕ → IngestEnv}

theorem final_done {x : EventIngestService × Serving} (h : x.2.Done) :
    Serving.final producerId env x = x.1 := by
  rw [Serving.final, h.1]
  dsimp only
  rw [h.2, submit]

/-- Behind an access of a call the session ends as it does when the call is completed. -/
theorem final_after (s : EventIngestService) (t : Serving) (event : OtkEvent)
    (progress : Progress) :
    Serving.final producerId env (s, t.after event progress) =
      Serving.final producerId env (s, { t with call := some (event, progress) }) := by
  cases progress with
  | finished r =>
    cases r with
    | ok o => rfl
    | error e => rfl
  | _ => rfl

theorem final_next (x : EventIngestService × Serving) :
    Serving.final producerId env (Serving.next producerId env x.1 x.2) =
      Serving.final producerId env x := by
  obtain ⟨s, t⟩ := x
  rw [Serving.next]
  cases hcall : t.call with
  | some call =>
    obtain ⟨event, progress⟩ := call
    dsimp only
    rw [final_after, Serving.final, Serving.final, hcall]
    dsimp only
    rw [complete_advance]
  | none =>
    cases hwaiting : t.waiting with
    | nil => rfl
    | cons event waiting =>
      dsimp only
      rw [final_after, Serving.final, Serving.final, hcall]
      dsimp only
      rw [complete_advance, complete_ready, hwaiting, submit]
      have henv : (fun n => env (t.served + (n + 1))) = fun n => env (t.served + 1 + n) := by
        funext n
        congr 1
        omega
      rw [henv]
      cases happ : s.appendEvent producerId event (env t.served) with
      | mk r s' =>
        cases r <;> simp

end Final

def IngestMetric.producer : IngestMetric → String
  | .eventAppended producerId _ => producerId
  | .duplicateDropped producerId _ => producerId
  | .sequenceGap producerId _ => producerId

def metricsOf (producerId : String) (s : EventIngestService) : List IngestMetric :=
  s.metrics.filter fun m => IngestMetric.producer m = producerId

/-- The label of what the service derives itself. -/
def timingCore : String := "<timing-core>"

/-- Two services hold the same of a producer: its marks, its detections, and its metrics
unless it goes by the name of the service. -/
structure Like (producerId : String) (s s' : EventIngestService) : Prop where
  marks : ∀ detectorId, s.gate.highWater.lookup (producerId, detectorId) =
    s'.gate.highWater.lookup (producerId, detectorId)
  stored : storedOf producerId s = storedOf producerId s'
  metrics : producerId ≠ timingCore → metricsOf producerId s = metricsOf producerId s'

/-- Two calls for an event have come equally far; what was derived beside the event and
the offset it got may differ. -/
inductive LikeCall (event : OtkEvent) : Progress → Progress → Prop
  | ready : LikeCall event .ready .ready
  | decided (gap) : LikeCall event (.decided gap) (.decided gap)
  | batched (gap) {ds ds' : List OtkEvent} : (∀ d ∈ ds, d.crossing?.isSome) →
      (∀ d ∈ ds', d.crossing?.isSome) →
      LikeCall event (.batched gap (event :: ds)) (.batched gap (event :: ds'))
  | persisted (gap) (o o' : ℕ) {ds ds' : List OtkEvent} : (∀ d ∈ ds, d.crossing?.isSome) →
      (∀ d ∈ ds', d.crossing?.isSome) →
      LikeCall event (.persisted gap (event :: ds) o) (.persisted gap (event :: ds') o')
  | gated (gap) (o o' : ℕ) {ds ds' : List OtkEvent} : (∀ d ∈ ds, d.crossing?.isSome) →
      (∀ d ∈ ds', d.crossing?.isSome) →
      LikeCall event (.gated gap (event :: ds) o) (.gated gap (event :: ds') o')
  | ok (outcome outcome' : AppendOutcome) :
      LikeCall event (.finished (.ok outcome)) (.finished (.ok outcome'))
  | error (e e' : StorageError) :
      LikeCall event (.finished (.error e)) (.finished (.error e'))

section Like

variable {producerId : String} {s s' : EventIngestService}

theorem Like.verdict (h : Like producerId s s') (event : OtkEvent) :
    gateVerdict s.gate producerId event = gateVerdict s'.gate producerId event := by
  cases event with
  | detection det => simp only [gateVerdict, SequenceGate.peek, h.marks det.detectorId]
  | _ => rfl

theorem crossing_of_derived {p : CrossingProcessor} {crossingId : CrossingId} {event : OtkEvent} :
    ∀ d ∈ deriveCrossings p crossingId event, d.crossing?.isSome := by
  intro d hd
  cases event with
  | detection det =>
    obtain ⟨c, -, rfl⟩ := List.mem_map.mp hd
    rfl
  | _ => simp [deriveCrossings] at hd

theorem detection_of_crossings {ds : List OtkEvent} (h : ∀ d ∈ ds, d.crossing?.isSome) :
    ds.filterMap OtkEvent.detection? = [] := by
  apply List.filterMap_eq_nil_iff.mpr
  intro d hd
  have hd := h d hd
  cases d with
  | detection det => cases hd
  | _ => rfl

/-- What a batch adds to the stored detections of its producer. -/
theorem stored_snoc (s : EventIngestService) (appendedAtNs : ℕ) {event : OtkEvent}
    {ds : List OtkEvent} (h : ∀ d ∈ ds, d.crossing?.isSome) :
    storedOf producerId
        { s with log := ⟨s.log.batches ++ [⟨producerId, appendedAtNs, event :: ds⟩]⟩ } =
      storedOf producerId s ++ event.detection?.toList := by
  rw [storedOf, storedOf, EventHistory.detections_snoc, List.filterMap_cons,
    detection_of_crossings h]
  cases event.detection? <;> simp

theorem stored_snoc_other (s : EventIngestService) {other : String} (h : other ≠ producerId)
    (appendedAtNs : ℕ) (batch : List OtkEvent) :
    storedOf producerId { s with log := ⟨s.log.batches ++ [⟨other, appendedAtNs, batch⟩]⟩ } =
      storedOf producerId s := by
  have hnone : ((batch.filterMap OtkEvent.detection?).map fun det => (other, det)).filter
      (fun x => x.1 = producerId) = [] := by
    apply List.filter_eq_nil_iff.mpr
    intro x hx
    obtain ⟨det, -, rfl⟩ := List.mem_map.mp hx
    simpa using h
  rw [storedOf, storedOf, EventHistory.detections_snoc, List.filter_append, hnone, List.append_nil]

theorem lookup_commitGate_other {gate : SequenceGate} {other : String} (h : other ≠ producerId)
    (batch : List OtkEvent) (detectorId : DetectorId) :
    (commitGate gate other batch).highWater.lookup (producerId, detectorId) =
      gate.highWater.lookup (producerId, detectorId) := by
  unfold commitGate
  split
  · rw [SequenceGate.highWater_commit, if_neg]
    exact fun heq => h (congrArg Prod.fst heq).symm
  · rfl

theorem lookup_commitGate {gate gate' : SequenceGate} (h : ∀ detectorId,
      gate.highWater.lookup (producerId, detectorId) =
        gate'.highWater.lookup (producerId, detectorId)) (event : OtkEvent)
    (ds ds' : List OtkEvent) (detectorId : DetectorId) :
    (commitGate gate producerId (event :: ds)).highWater.lookup (producerId, detectorId) =
      (commitGate gate' producerId (event :: ds')).highWater.lookup (producerId, detectorId) := by
  cases event with
  | detection det =>
    simp only [commitGate, SequenceGate.highWater_commit, h]
  | _ => exact h detectorId

theorem metricsOf_append (producerId : String) (s : EventIngestService) (more : List IngestMetric) :
    metricsOf producerId { s with metrics := s.metrics ++ more } =
      metricsOf producerId s ++ more.filter fun m => IngestMetric.producer m = producerId :=
  List.filter_append _ _

/-- The metrics of a batch that are not about its producer are about derived crossings. -/
theorem filter_appendedMetrics_other {other : String} (h : other ≠ producerId)
    (hname : producerId ≠ timingCore) (gap : Option (UInt64 × UInt64)) (batch : List OtkEvent) :
    ((appendedMetrics other gap batch).filter fun m => IngestMetric.producer m = producerId) =
      [] := by
  apply List.filter_eq_nil_iff.mpr
  intro m hm
  have hmember : IngestMetric.producer m = other ∨ IngestMetric.producer m = timingCore := by
    cases batch with
    | nil => cases hm
    | cons event derived =>
      rcases List.mem_append.mp hm with hm | hm
      · left
        split at hm
        · obtain rfl := List.mem_singleton.mp hm
          rfl
        · cases hm
      · rcases List.mem_cons.mp hm with rfl | hm
        · exact .inl rfl
        · obtain ⟨c, -, rfl⟩ := List.mem_map.mp hm
          exact .inr rfl
  rw [decide_eq_true_eq]
  rcases hmember with hm | hm
  · rwa [hm]
  · rw [hm]
    exact Ne.symm hname

theorem filter_appendedMetrics (hname : producerId ≠ timingCore)
    (gap : Option (UInt64 × UInt64)) (event : OtkEvent) (ds ds' : List OtkEvent) :
    ((appendedMetrics producerId gap (event :: ds)).filter
      fun m => IngestMetric.producer m = producerId) =
    (appendedMetrics producerId gap (event :: ds')).filter
      fun m => IngestMetric.producer m = producerId := by
  have hderived : ∀ ds : List OtkEvent, (((ds.filterMap OtkEvent.crossing?).map
      fun _ => IngestMetric.eventAppended "<timing-core>" "Crossing").filter
        fun m => IngestMetric.producer m = producerId) = [] := by
    intro ds
    apply List.filter_eq_nil_iff.mpr
    intro m hm
    obtain ⟨c, -, rfl⟩ := List.mem_map.mp hm
    rw [decide_eq_true_eq]
    exact Ne.symm hname
  simp only [appendedMetrics, List.filter_append, List.filter_cons, hderived]

theorem append_both (log log' : EventHistory) (producerId : String) (event : OtkEvent)
    (ds ds' : List OtkEvent) (env : EventHistory.AppendEnv) :
    (∃ e e', log.append producerId (event :: ds) env = (.error e, log) ∧
      log'.append producerId (event :: ds') env = (.error e', log')) ∨
    (∃ o o', log.append producerId (event :: ds) env =
        (.ok o, ⟨log.batches ++ [⟨producerId, env.appendedAtNs, event :: ds⟩]⟩) ∧
      log'.append producerId (event :: ds') env =
        (.ok o', ⟨log'.batches ++ [⟨producerId, env.appendedAtNs, event :: ds'⟩]⟩)) := by
  have hleft := log.append_eq_ok_iff producerId (List.cons_ne_nil event ds) env
  have hright := log'.append_eq_ok_iff producerId (List.cons_ne_nil event ds') env
  rcases log.append_cases producerId (event :: ds) env with ⟨e, h⟩ | ⟨o, h⟩
  · left
    rcases log'.append_cases producerId (event :: ds') env with ⟨e', h'⟩ | ⟨o', h'⟩
    · exact ⟨e, e', h, h'⟩
    · obtain ⟨o, log₁, hok⟩ := hleft.mpr (hright.mp ⟨_, _, h'⟩)
      rw [h] at hok
      cases hok
  · right
    rcases log'.append_cases producerId (event :: ds') env with ⟨e', h'⟩ | ⟨o', h'⟩
    · obtain ⟨o, log₁, hok⟩ := hright.mpr (hleft.mp ⟨_, _, h⟩)
      rw [h'] at hok
      cases hok
    · exact ⟨o, o', h, h'⟩

theorem Like.advance (h : Like producerId s s') {event : OtkEvent} {a a' : Progress}
    (hcall : LikeCall event a a') (env : IngestEnv) :
    Like producerId (s.advance producerId event env a).1 (s'.advance producerId event env a').1 ∧
      LikeCall event (s.advance producerId event env a).2
        (s'.advance producerId event env a').2 := by
  cases hcall with
  | ready =>
    rw [EventIngestService.advance, EventIngestService.advance, ← h.verdict event]
    cases gateVerdict s.gate producerId event with
    | none =>
      refine ⟨⟨h.marks, h.stored, fun hname => ?_⟩, .ok _ _⟩
      rw [metricsOf_append, metricsOf_append, h.metrics hname]
    | some gap => exact ⟨h, .decided gap⟩
  | decided gap => exact ⟨h, .batched gap crossing_of_derived crossing_of_derived⟩
  | @batched gap ds ds' hds hds' =>
    rw [EventIngestService.advance, EventIngestService.advance]
    rcases append_both s.log s'.log producerId event ds ds' env.append with
      ⟨e, e', hleft, hright⟩ | ⟨o, o', hleft, hright⟩
    · rw [hleft, hright]
      exact ⟨h, .error e e'⟩
    · rw [hleft, hright]
      refine ⟨⟨h.marks, ?_, h.metrics⟩, .persisted gap o o' hds hds'⟩
      exact (stored_snoc s _ hds).trans
        ((congrArg (· ++ _) h.stored).trans (stored_snoc s' _ hds').symm)
  | persisted gap o o' hds hds' =>
    exact ⟨⟨lookup_commitGate h.marks event _ _, h.stored, h.metrics⟩, .gated gap o o' hds hds'⟩
  | gated gap o o' hds hds' =>
    refine ⟨⟨h.marks, h.stored, fun hname => ?_⟩, .ok _ _⟩
    have hleft := metricsOf_append producerId s
    have hright := metricsOf_append producerId s'
    exact (hleft _).trans ((congrArg₂ _ (h.metrics hname)
      (filter_appendedMetrics hname gap event _ _)).trans (hright _).symm)
  | ok outcome outcome' => exact ⟨h, .ok outcome outcome'⟩
  | error e e' => exact ⟨h, .error e e'⟩

theorem Like.advance_other (h : Like producerId s s') {other : String} (hne : other ≠ producerId)
    (event : OtkEvent) (env : IngestEnv) (a : Progress) :
    Like producerId (s.advance other event env a).1 s' := by
  cases a with
  | ready =>
    rw [EventIngestService.advance]
    cases gateVerdict s.gate other event with
    | none =>
      refine ⟨h.marks, h.stored, fun hname => ?_⟩
      have hnone : ((duplicateMetrics other event).filter
          fun m => IngestMetric.producer m = producerId) = [] := by
        cases event <;> simp [duplicateMetrics, IngestMetric.producer, hne]
      rw [metricsOf_append, hnone, List.append_nil, h.metrics hname]
    | some gap => exact h
  | decided gap => exact h
  | batched gap batch =>
    rw [EventIngestService.advance]
    rcases s.log.append_cases other batch env.append with ⟨e, happ⟩ | ⟨o, happ⟩
    · rw [happ]
      exact h
    · rw [happ]
      exact ⟨h.marks, (stored_snoc_other s hne _ batch).trans h.stored, h.metrics⟩
  | persisted gap batch o =>
    exact ⟨fun d => (lookup_commitGate_other hne batch d).trans (h.marks d), h.stored, h.metrics⟩
  | gated gap batch o =>
    refine ⟨h.marks, h.stored, fun hname => ?_⟩
    have hmore := metricsOf_append producerId s
      (appendedMetrics other gap batch)
    rw [filter_appendedMetrics_other hne hname, List.append_nil] at hmore
    exact hmore.trans (h.metrics hname)
  | finished r => exact h

end Like

inductive LikeServing : Serving → Serving → Prop
  | idle (waiting : List OtkEvent) (served : ℕ) :
      LikeServing ⟨waiting, served, none⟩ ⟨waiting, served, none⟩
  | calling (waiting : List OtkEvent) (served : ℕ) {event : OtkEvent} {a a' : Progress} :
      LikeCall event a a' →
      LikeServing ⟨waiting, served, some (event, a)⟩ ⟨waiting, served, some (event, a')⟩

section Serving

variable {producerId : String} {s s' : EventIngestService} {t t' : Serving}

theorem LikeServing.refl (waiting : List OtkEvent) : LikeServing ⟨waiting, 0, none⟩
    ⟨waiting, 0, none⟩ := .idle waiting 0

theorem LikeServing.done_iff (h : LikeServing t t') : t.Done ↔ t'.Done := by
  cases h with
  | idle => rfl
  | calling => simp [Serving.Done]

theorem LikeCall.after {event : OtkEvent} {a a' : Progress} (h : LikeCall event a a')
    (waiting : List OtkEvent) (served : ℕ) (call call' : Option (OtkEvent × Progress)) :
    LikeServing (Serving.after ⟨waiting, served, call⟩ event a)
      (Serving.after ⟨waiting, served, call'⟩ event a') := by
  cases h with
  | ready => exact .calling waiting served .ready
  | decided gap => exact .calling waiting served (.decided gap)
  | batched gap hds hds' => exact .calling waiting served (.batched gap hds hds')
  | persisted gap o o' hds hds' =>
    exact .calling waiting served (.persisted gap o o' hds hds')
  | gated gap o o' hds hds' => exact .calling waiting served (.gated gap o o' hds hds')
  | ok outcome outcome' => exact .idle waiting (served + 1)
  | error e e' => exact .idle [] served

theorem Like.next (h : Like producerId s s') (ht : LikeServing t t') (env : ℕ → IngestEnv) :
    Like producerId (Serving.next producerId env s t).1 (Serving.next producerId env s' t').1 ∧
      LikeServing (Serving.next producerId env s t).2 (Serving.next producerId env s' t').2 := by
  cases ht with
  | idle waiting served =>
    cases waiting with
    | nil => exact ⟨h, .idle [] served⟩
    | cons event waiting =>
      obtain ⟨hlike, hcall⟩ := h.advance (LikeCall.ready : LikeCall event _ _) (env served)
      exact ⟨hlike, hcall.after waiting served none none⟩
  | @calling waiting served event a a' hcall =>
    obtain ⟨hlike, hcall'⟩ := h.advance hcall (env served)
    exact ⟨hlike, hcall'.after waiting served _ _⟩

theorem Like.next_other (h : Like producerId s s') {other : String} (hne : other ≠ producerId)
    (env : ℕ → IngestEnv) (t : Serving) :
    Like producerId (Serving.next other env s t).1 s' := by
  rw [Serving.next]
  split
  · exact h.advance_other hne _ _ _
  · split
    · exact h
    · exact h.advance_other hne _ _ _

theorem stored_advance (producerId : String) (s : EventIngestService) (other : String)
    (event : OtkEvent)
    (env : IngestEnv) (a : Progress) :
    storedOf producerId s <+: storedOf producerId (s.advance other event env a).1 := by
  cases a with
  | ready =>
    rw [EventIngestService.advance]
    split <;> exact List.prefix_refl _
  | batched gap batch =>
    rw [EventIngestService.advance]
    rcases s.log.append_cases other batch env.append with ⟨e, happ⟩ | ⟨o, happ⟩
    · rw [happ]
    · rw [happ, storedOf, storedOf, EventHistory.detections_snoc, List.filter_append,
        List.map_append]
      exact List.prefix_append _ _
  | _ => exact List.prefix_refl _

theorem stored_complete (producerId other : String) (event : OtkEvent) (env : IngestEnv)
    (x : EventIngestService × Progress) :
    storedOf producerId x.1 <+: storedOf producerId (complete other event env x).1 := by
  have hstep : ∀ k (x : EventIngestService × Progress), storedOf producerId x.1 <+:
      storedOf producerId ((fun p => p.1.advance other event env p.2)^[k] x).1 := by
    intro k
    induction k with
    | zero => exact fun x => List.prefix_refl _
    | succ k ih =>
      intro x
      rw [Function.iterate_succ_apply]
      exact (stored_advance producerId x.1 other event env x.2).trans (ih _)
  exact hstep 5 x

theorem stored_submit (producerId other : String) (env : ℕ → IngestEnv) (s : EventIngestService)
    (events : List OtkEvent) :
    storedOf producerId s <+: storedOf producerId (submit other env s events) := by
  have hcall : ∀ (env : IngestEnv) (s : EventIngestService) (event : OtkEvent),
      storedOf producerId s <+: storedOf producerId (s.appendEvent other event env).2 := by
    intro env s event
    have hgrows := stored_complete producerId other event env (s, .ready)
    rwa [complete_ready] at hgrows
  induction events generalizing s env with
  | nil => exact List.prefix_refl _
  | cons event events ih =>
    have hfirst := hcall (env 0) s event
    rw [submit]
    cases happ : s.appendEvent other event (env 0) with
    | mk r s' =>
      rw [happ] at hfirst
      cases r with
      | ok o => exact hfirst.trans (ih _ s')
      | error e => exact hfirst

theorem stored_final (producerId other : String) (env : ℕ → IngestEnv)
    (x : EventIngestService × Serving) :
    storedOf producerId x.1 <+: storedOf producerId (Serving.final other env x) := by
  rw [Serving.final]
  split
  · exact stored_submit producerId other _ _ _
  · rename_i event progress _
    have hgrows := stored_complete producerId other event (env x.2.served)
      (x.1, progress)
    split
    · rename_i s o heq
      rw [heq] at hgrows
      exact hgrows.trans (stored_submit producerId other _ _ _)
    · rename_i s a _ heq
      rw [heq] at hgrows
      exact hgrows

end Serving

section Sessions

variable {n : ℕ} (w : WireCodec) (listeners : Fin n → Listener) (sessions : Fin n → Session)
  (env : Fin n → ℕ → IngestEnv)

/-- The task of an accepted session, in front of its first event. -/
def serving (i : Fin n) : Serving where
  waiting := (drain (listeners i) w (sessions i)).1.map IncomingEvent.event

def interleaved (s : EventIngestService) (schedule : List (Fin n)) :
    EventIngestService × (Fin n → Serving) :=
  run (fun i => Serving.next (sessions i).producerId (env i))
    (s, serving w listeners sessions) schedule

variable {w listeners sessions env}

/-- A producer that no other session speaks for is served as if its session ran alone:
in any interleaving its stored detections are a front of those that the session stores
alone, and when the session is done they, the producer's marks and its metrics are the
same. -/
theorem sessions_isolated (s : EventIngestService) (schedule : List (Fin n)) (i : Fin n)
    (hown : ∀ j ≠ i, (sessions j).producerId ≠ (sessions i).producerId) :
    let x := interleaved w listeners sessions env s schedule
    let alone := handleSession (listeners i) w (sessions i).producerId (env i) s (sessions i)
    storedOf (sessions i).producerId x.1 <+: storedOf (sessions i).producerId alone ∧
      ((x.2 i).Done → Like (sessions i).producerId x.1 alone) := by
  intro x alone
  have hstart : Like (sessions i).producerId s s := ⟨fun _ => rfl, rfl, fun _ => rfl⟩
  have hsame := run_alone (fun i => Serving.next (sessions i).producerId (env i)) i
    (R := fun s t s' t' => Like (sessions i).producerId s s' ∧ LikeServing t t')
    (fun s t s' t' h => h.1.next h.2 (env i))
    (fun j hj s u t s' t' h => ⟨h.1.next_other (hown j hj) (env j) u, h.2⟩) schedule
    (s, serving w listeners sessions) (s, serving w listeners sessions i)
    ⟨hstart, .refl _⟩
  -- What the session leaves behind alone is the same after each of its turns.
  have hfinal := alone_keeps (fun i => Serving.next (sessions i).producerId (env i)) i
    (P := fun y => Serving.final (sessions i).producerId (env i) y = alone)
    (fun y hy => (final_next y).trans hy) (schedule.count i)
    (x := (s, serving w listeners sessions i)) (by
      rw [Serving.final, serving]
      simp only [Nat.zero_add]
      exact (handleSession_eq_submit (listeners i) w _ (env i) s (sessions i)).symm)
  obtain ⟨hlike, hserving⟩ := hsame
  refine ⟨?_, fun hdone => ?_⟩
  · have hgrows := stored_final (sessions i).producerId (sessions i).producerId (env i)
      (Isolation.alone (fun i => Serving.next (sessions i).producerId (env i)) i
        (schedule.count i) (s, serving w listeners sessions i))
    rw [hfinal, ← hlike.stored] at hgrows
    exact hgrows
  · rw [final_done (hserving.done_iff.mp hdone)] at hfinal
    rw [← hfinal]
    exact hlike

/-- Two sessions that have read detections of one detector. -/
def sampleSession : Fin 2 → Session
  | 0 => ⟨⟨[], none, []⟩, "peer", "p", .new 65535, ⟨⟨"p"⟩, protocolVersion⟩,
      [eventEnvelope 0 (sampleDetectionBytes 0), eventEnvelope 1 (sampleDetectionBytes 1)]⟩
  | 1 => ⟨⟨[], none, []⟩, "peer", "q", .new 65535, ⟨⟨"q"⟩, protocolVersion⟩,
      [{ eventEnvelope 0 (sampleDetectionBytes 0) with sourceId := ⟨"q"⟩ }]⟩

theorem sessions_isolated_sample :
    storedOf "p" (interleaved backlogWire (fun _ => tcp) sampleSession (fun _ => sampleEnv)
        (restart ⟨2⟩ .empty) [0, 1, 0, 1, 0, 1, 0, 1, 0, 1, 0]).1 <+:
      storedOf "p" (handleSession tcp backlogWire "p" sampleEnv (restart ⟨2⟩ .empty)
        (sampleSession 0)) := by
  have hown : ∀ j ≠ (0 : Fin 2), (sampleSession j).producerId ≠ (sampleSession 0).producerId := by
    decide
  exact (sessions_isolated (restart ⟨2⟩ .empty) [0, 1, 0, 1, 0, 1, 0, 1, 0, 1, 0] 0 hown).1

end Sessions

end OtkCore.Ingest
