import OtkCore.Node.Supervision

/-!
# Session tasks and their gauge

The guard of a session lives in its task: it is made when the session is accepted and
dropped when the task ends, in whatever way. The gauge is then what runs, at any time
and for every listener, and a listener that ends leaves no session behind that has not
been aborted.
-/
namespace OtkCore

/-! ### One more call on the gauge -/

namespace LabeledGauge

theorem unmatched_concat (p : Labels → Prop) [DecidablePred p] (ops : List GaugeOp)
    (op : GaugeOp) : unmatched p (ops ++ [op]) =
      unmatched p ops + if p (canonicalLabels op.labels) then op.delta else 0 := by
  rw [← sumOf_ops, ← sumOf_ops, List.map_append, CappedMap.sumOf_append]
  congr 1
  exact CappedMap.sumOf_singleton p _

theorem guarded_nil : Guarded [] := by
  intro first hfirst key
  obtain rfl := List.prefix_nil.mp hfirst
  exact le_refl _

theorem Guarded.concat {ops : List GaugeOp} (h : Guarded ops) {op : GaugeOp}
    (hop : ∀ key, 0 ≤ unmatched (· = key) (ops ++ [op])) : Guarded (ops ++ [op]) := by
  intro first hfirst key
  rcases List.prefix_concat_iff.mp hfirst with rfl | hbefore
  · exact hop key
  · exact h first hbefore key

end LabeledGauge

namespace MetricOp

def session? : MetricOp → Option MetricOp
  | .ingest _ => none
  | op => some op

theorem filterMap_session (ops : List MetricOp) :
    (ops.filterMap session?).filterMap gaugeOp? = ops.filterMap gaugeOp? ∧
      (ops.filterMap session?).filterMap accepted? = ops.filterMap accepted? := by
  constructor
  · rw [List.filterMap_filterMap]
    apply List.filterMap_congr
    intro op _
    cases op <;> rfl
  · rw [List.filterMap_filterMap]
    apply List.filterMap_congr
    intro op _
    cases op <;> rfl

end MetricOp

namespace Node.System

open LabeledGauge

variable {n : ℕ} {ids : Fin n → String}

/-- The labels of a session's listener, as the gauge keeps them. -/
def keyOf (ids : Fin n → String) (x : SessionTask n) : Labels :=
  canonicalLabels (listenerLabels (ids x.listener))

/-- How many of the sessions run under a set of keys. -/
def runningUnder (ids : Fin n → String) (p : Labels → Prop) [DecidablePred p]
    (sessions : List (SessionTask n)) : ℕ :=
  sessions.countP fun x => x.running && decide (p (keyOf ids x))

/-- The session metrics against the tasks of the sessions. -/
structure Kept (ids : Fin n → String) (s : System n) : Prop where
  reaped : ∀ x ∈ s.sessions, x.reaped = true → x.running = false
  owned : ∀ x ∈ s.sessions, x.running = true →
    x.aborted = true ∨ s.ended (.ingest x.listener) = none
  listed : ∀ op ∈ s.ops, ∃ i, op = .accepted (ids i) ∨ op = .closed (ids i)
  accepted : s.ops.filterMap MetricOp.accepted? = s.sessions.map fun x => ids x.listener
  active : ∀ (p : Labels → Prop) [DecidablePred p],
    unmatched p (s.ops.filterMap MetricOp.gaugeOp?) = runningUnder ids p s.sessions
  guarded : Guarded (s.ops.filterMap MetricOp.gaugeOp?)

theorem Kept.quiet {s s' : System n} (h : s.Kept ids) (hsessions : s'.sessions = s.sessions)
    (hops : s'.ops = s.ops) (hended : s'.ended = s.ended) : s'.Kept ids := by
  constructor
  · rw [hsessions]
    exact h.reaped
  · rw [hsessions, hended]
    exact h.owned
  · rw [hops]
    exact h.listed
  · rw [hsessions, hops]
    exact h.accepted
  · rw [hsessions, hops]
    exact h.active
  · rw [hops]
    exact h.guarded

/-- One more call on the gauge, and the running sessions it goes with. -/
theorem Kept.records {s : System n} (h : s.Kept ids) {op : MetricOp} {call : GaugeOp}
    (hcall : op.gaugeOp? = some call) (sessions : List (SessionTask n))
    (hrunning : ∀ (p : Labels → Prop) [DecidablePred p],
      (runningUnder ids p s.sessions : ℤ) +
        (if p (canonicalLabels call.labels) then call.delta else 0) =
      runningUnder ids p sessions) :
    (∀ (p : Labels → Prop) [DecidablePred p],
      unmatched p ((s.ops ++ [op]).filterMap MetricOp.gaugeOp?) = runningUnder ids p sessions) ∧
    Guarded ((s.ops ++ [op]).filterMap MetricOp.gaugeOp?) := by
  have hcalls : (s.ops ++ [op]).filterMap MetricOp.gaugeOp? =
      s.ops.filterMap MetricOp.gaugeOp? ++ [call] := by
    rw [List.filterMap_append, List.filterMap_cons_some hcall, List.filterMap_nil]
  have hactive : ∀ (p : Labels → Prop) [DecidablePred p],
      unmatched p (s.ops.filterMap MetricOp.gaugeOp? ++ [call]) = runningUnder ids p sessions := by
    intro p _
    rw [unmatched_concat, h.active, hrunning]
  rw [hcalls]
  constructor
  · exact hactive
  · apply h.guarded.concat
    intro key
    rw [hactive]
    exact Int.natCast_nonneg _

theorem Kept.accepts {s : System n} (h : s.Kept ids) {i : Fin n}
    (hrunning : s.ended (.ingest i) = none) :
    Kept ids { s with
      sessions := s.sessions ++ [⟨i, true, false, false⟩]
      ops := s.ops ++ [.accepted (ids i)] } := by
  have hcall : (MetricOp.accepted (ids i)).gaugeOp? = some (.inc (listenerLabels (ids i))) := rfl
  obtain ⟨hactive, hguarded⟩ :=
    h.records hcall (s.sessions ++ [⟨i, true, false, false⟩]) (by
      intro p _
      rw [runningUnder, runningUnder, List.countP_append]
      by_cases hp : p (canonicalLabels (listenerLabels (ids i))) <;>
        simp [keyOf, hp, GaugeOp.labels, GaugeOp.delta])
  constructor
  · intro x hx hreaped
    rcases List.mem_append.mp hx with hold | hnew
    · exact h.reaped x hold hreaped
    · rw [List.mem_singleton.mp hnew] at hreaped
      cases hreaped
  · intro x hx hlive
    rcases List.mem_append.mp hx with hold | hnew
    · exact h.owned x hold hlive
    · rw [List.mem_singleton.mp hnew]
      exact .inr hrunning
  · intro op hop
    rcases List.mem_append.mp hop with hold | hnew
    · exact h.listed op hold
    · exact ⟨i, .inl (List.mem_singleton.mp hnew)⟩
  · simp [h.accepted, MetricOp.accepted?]
  · exact hactive
  · exact hguarded

theorem map_set_alike {A B : Type} (f : A → B) {l : List A} {k : ℕ} {x y : A}
    (hx : l[k]? = some x) (hy : f y = f x) : (l.set k y).map f = l.map f := by
  obtain ⟨hk, rfl⟩ := List.getElem?_eq_some_iff.mp hx
  have hk' : k < (l.map f).length := by rwa [List.length_map]
  have hget : (l.map f)[k] = f l[k] := List.getElem_map f
  rw [List.map_set, hy, ← hget, List.set_getElem_self]

theorem Kept.finishes {s : System n} (h : s.Kept ids) {k : ℕ} {x : SessionTask n}
    (hx : s.sessions[k]? = some x) (hlive : x.running = true) :
    Kept ids { s with
      sessions := s.sessions.set k { x with running := false }
      ops := s.ops ++ [.closed (ids x.listener)] } := by
  obtain ⟨hk, hget⟩ := List.getElem?_eq_some_iff.mp hx
  have hcall : (MetricOp.closed (ids x.listener)).gaugeOp? =
    some (.dec (listenerLabels (ids x.listener))) := rfl
  obtain ⟨hactive, hguarded⟩ :=
    h.records hcall (s.sessions.set k { x with running := false }) (by
      intro p _
      have hset := List.countP_set (p := fun y => y.running && decide (p (keyOf ids y))) hk
        (a := { x with running := false })
      rw [hget] at hset
      rw [runningUnder, runningUnder, hset]
      by_cases hp : p (keyOf ids x)
      · have hpos : 0 < s.sessions.countP fun y => y.running && decide (p (keyOf ids y)) :=
          List.countP_pos_iff.mpr ⟨x, List.mem_of_getElem? hx, by simp [hlive, hp]⟩
        have hp' : p (canonicalLabels (listenerLabels (ids x.listener))) := hp
        simp only [hlive, hp, hp', GaugeOp.labels, GaugeOp.delta, decide_true, Bool.and_true,
          Bool.false_and, Bool.false_eq_true, if_true, if_false]
        omega
      · have hp' : ¬ p (canonicalLabels (listenerLabels (ids x.listener))) := hp
        simp [hp, hp', GaugeOp.labels])
  constructor
  · intro y hy hreaped
    rcases List.mem_or_eq_of_mem_set hy with hold | rfl
    · exact h.reaped y hold hreaped
    · rfl
  · intro y hy hrunning
    rcases List.mem_or_eq_of_mem_set hy with hold | rfl
    · exact h.owned y hold hrunning
    · cases hrunning
  · intro op hop
    rcases List.mem_append.mp hop with hold | hnew
    · exact h.listed op hold
    · exact ⟨x.listener, .inr (List.mem_singleton.mp hnew)⟩
  · have hsame : (s.sessions.set k { x with running := false }).map (fun y => ids y.listener) =
        s.sessions.map fun y => ids y.listener := map_set_alike _ hx rfl
    rw [List.filterMap_append, h.accepted, hsame]
    exact List.append_nil _
  · exact hactive
  · exact hguarded

theorem Kept.reaps {s : System n} (h : s.Kept ids) {k : ℕ} {x : SessionTask n}
    (hx : s.sessions[k]? = some x) (hlive : x.running = false) :
    Kept ids { s with sessions := s.sessions.set k { x with reaped := true } } := by
  have hmap : (s.sessions.set k { x with reaped := true }).map (fun y => ids y.listener) =
      s.sessions.map fun y => ids y.listener := map_set_alike _ hx rfl
  have hrunning : ∀ (p : Labels → Prop) [DecidablePred p],
      runningUnder ids p (s.sessions.set k { x with reaped := true }) =
        runningUnder ids p s.sessions := by
    intro p _
    have hsame : (s.sessions.set k { x with reaped := true }).map
        (fun y => y.running && decide (p (keyOf ids y))) =
        s.sessions.map fun y => y.running && decide (p (keyOf ids y)) := map_set_alike _ hx rfl
    have hcount := congrArg (List.countP id) hsame
    rw [List.countP_map, List.countP_map] at hcount
    exact hcount
  constructor
  · intro y hy hreaped
    rcases List.mem_or_eq_of_mem_set hy with hold | rfl
    · exact h.reaped y hold hreaped
    · exact hlive
  · intro y hy hrunning
    rcases List.mem_or_eq_of_mem_set hy with hold | rfl
    · exact h.owned y hold hrunning
    · rw [hlive] at hrunning
      cases hrunning
  · exact h.listed
  · rw [h.accepted, hmap]
  · intro p _
    rw [h.active, hrunning]
  · exact h.guarded

/-- The sessions after the end of a task: none is added, and none starts or stops. -/
theorem endTask_sessions (s : System n) (t : TaskId n) (r : Except JoinError Unit) :
    ∃ f : SessionTask n → SessionTask n, (s.endTask t r).sessions = s.sessions.map f ∧
      ∀ x, (f x).listener = x.listener ∧ (f x).running = x.running ∧
        (f x).reaped = x.reaped ∧ (x.aborted = true → (f x).aborted = true) ∧
        (t = .ingest x.listener → x.reaped = false → (f x).aborted = true) := by
  cases t with
  | ingest i =>
    refine ⟨_, rfl, fun x => ?_⟩
    split_ifs with hleft
    · exact ⟨rfl, rfl, rfl, fun _ => rfl, fun _ _ => rfl⟩
    · refine ⟨rfl, rfl, rfl, id, fun ht hreaped => absurd ?_ hleft⟩
      obtain rfl := TaskId.ingest.inj ht
      exact ⟨rfl, hreaped⟩
  | watcher => exact ⟨id, (List.map_id _).symm, fun x => ⟨rfl, rfl, rfl, id, nofun⟩⟩
  | api => exact ⟨id, (List.map_id _).symm, fun x => ⟨rfl, rfl, rfl, id, nofun⟩⟩

theorem Kept.ends {s : System n} (h : s.Kept ids) (t : TaskId n) (r : Except JoinError Unit) :
    (s.endTask t r).Kept ids := by
  obtain ⟨f, hsessions, hf⟩ := endTask_sessions s t r
  have hkey : ∀ x, keyOf ids (f x) = keyOf ids x := by
    intro x
    rw [keyOf, keyOf, (hf x).1]
  constructor
  · rw [hsessions]
    intro y hy hreaped
    obtain ⟨x, hx, rfl⟩ := List.mem_map.mp hy
    obtain ⟨-, hrunning, hsame, -, -⟩ := hf x
    rw [hrunning]
    apply h.reaped x hx
    rwa [← hsame]
  · rw [hsessions]
    intro y hy hlive
    obtain ⟨x, hx, rfl⟩ := List.mem_map.mp hy
    obtain ⟨hlistener, hrunning, -, haborted, hleft⟩ := hf x
    rw [hrunning] at hlive
    rw [hlistener, ended_endTask]
    rcases h.owned x hx hlive with hwas | hopen
    · exact .inl (haborted hwas)
    · by_cases ht : t = .ingest x.listener
      · -- A session that runs has not been reaped, so its listener aborts it.
        left
        apply hleft ht
        apply Bool.eq_false_iff.mpr
        intro hreaped
        rw [h.reaped x hx hreaped] at hlive
        cases hlive
      · right
        rwa [Function.update_of_ne (Ne.symm ht)]
  · exact h.listed
  · have hlisteners : (s.sessions.map f).map (fun y => ids y.listener) =
        s.sessions.map fun x => ids x.listener := by
      rw [List.map_map]
      apply List.map_congr_left
      intro x _
      exact congrArg ids (hf x).1
    rw [hsessions, hlisteners]
    exact h.accepted
  · intro p _
    have hcount : runningUnder ids p (s.sessions.map f) = runningUnder ids p s.sessions := by
      rw [runningUnder, List.countP_map]
      apply List.countP_congr
      intro x _
      simp [hkey, (hf x).2.1]
    rw [hsessions, hcount]
    exact h.active p
  · exact h.guarded

theorem Kept.step {s s' : System n} (h : s.Kept ids) (hstep : Step ids s s') : s'.Kept ids := by
  cases hstep with
  | accepts i hrunning hdraining => exact h.accepts hrunning
  | closes i hrunning hdraining => exact h.quiet rfl rfl rfl
  | hears i hrunning hdraining hshutdown => exact h.quiet rfl rfl rfl
  | finishes k x hx hlive => exact h.finishes hx hlive
  | reaps k x hx hlive hreaped hlistener => exact h.reaps hx hlive
  | returns i timedOut hrunning hdraining hall => exact h.ends _ _
  | unwatches hwatched hrunning => exact h.ends _ _
  | serves hrunning hshutdown => exact h.ends _ _
  | panics t payload hspawned hrunning => exact h.ends _ _
  | cancels t text hspawned hrunning haborted => exact h.ends _ _
  | interrupts hwatching => exact h.quiet rfl rfl rfl
  | notices t r hwatching hended hjoined => exact h.quiet rfl rfl rfl
  | drains t r exitReason firstFailure hdraining hended hjoined => exact h.quiet rfl rfl rfl
  | stops exitReason firstFailure hdraining hall => exact h.quiet rfl rfl rfl
  | givesUp exitReason firstFailure hdraining hsome => exact h.quiet rfl rfl rfl

theorem Run.kept {watched : Bool} {s : System n} (h : Run ids watched s) : s.Kept ids := by
  induction h with
  | start =>
    constructor
    · exact nofun
    · exact nofun
    · exact nofun
    · rfl
    · exact fun _ => rfl
    · exact guarded_nil
  | step hrun hstep ih => exact ih.step hstep

section Page

variable {ids : List String}

/-- Listeners of a node that has started are told apart by their labels. -/
theorem keyOf_eq_iff (hids : ids.Nodup) (x : SessionTask ids.length) (i : Fin ids.length) :
    keyOf ids.get x = canonicalLabels (listenerLabels (ids.get i)) ↔ x.listener = i := by
  rw [keyOf, canonicalLabels_listener, canonicalLabels_listener]
  constructor
  · intro h
    apply List.nodup_iff_injective_get.mp hids
    simpa using h
  · rintro rfl
    rfl

/-- With room for as many listeners on the page, each that a session came to is there. -/
theorem Kept.mem_active {s : System ids.length} (h : s.Kept ids.get)
    (hroom : ids.length ≤ maxSeriesPerMetric) {x : SessionTask ids.length} (hx : x ∈ s.sessions) :
    keyOf ids.get x ∈ (performAll (s.ops.filterMap MetricOp.gaugeOp?)).series := by
  rw [mem_performAll]
  apply CappedMap.mem_addAll_of_room _
    (ids.map fun listenerId => canonicalLabels (listenerLabels listenerId))
  · intro op hop
    obtain ⟨call, hcall, rfl⟩ := List.mem_map.mp hop
    obtain ⟨op, hop, hsome⟩ := List.mem_filterMap.mp hcall
    obtain ⟨i, rfl | rfl⟩ := h.listed op hop <;> obtain rfl := Option.some.inj hsome
    · exact List.mem_map_of_mem (List.get_mem ids i)
    · exact List.mem_map_of_mem (List.get_mem ids i)
  · rwa [List.length_map]
  · have haccepted : ids.get x.listener ∈ s.ops.filterMap MetricOp.accepted? := by
      rw [h.accepted]
      exact List.mem_map_of_mem (f := fun y => ids.get y.listener) hx
    obtain ⟨op, hop, hsome⟩ := List.mem_filterMap.mp haccepted
    cases op with
    | accepted listenerId =>
      obtain rfl := Option.some.inj hsome
      have hcall : .inc (listenerLabels (ids.get x.listener)) ∈
          s.ops.filterMap MetricOp.gaugeOp? := List.mem_filterMap.mpr ⟨_, hop, rfl⟩
      exact ⟨_, List.mem_map_of_mem hcall, rfl⟩
    | ingest call => cases hsome
    | closed listenerId => cases hsome

theorem runningUnder_key (hids : ids.Nodup) (sessions : List (SessionTask ids.length))
    (i : Fin ids.length) :
    runningUnder ids.get (· = canonicalLabels (listenerLabels (ids.get i))) sessions =
      sessions.countP fun x => x.running && x.listener == i := by
  apply List.countP_congr
  intro x _
  simp only [Bool.and_eq_true, decide_eq_true_eq, beq_iff_eq, keyOf_eq_iff hids]

theorem listenerLabels_inj (a b : String)
    (h : canonicalLabels (listenerLabels a) = canonicalLabels (listenerLabels b)) : a = b := by
  rw [canonicalLabels_listener, canonicalLabels_listener] at h
  simpa using h

theorem count_accepted (hids : ids.Nodup) (sessions : List (SessionTask ids.length))
    (i : Fin ids.length) :
    ((sessions.map fun x => ids.get x.listener : List String) : Multiset String).count
      (ids.get i) = sessions.countP fun x => x.listener == i := by
  rw [Multiset.coe_count, List.count, List.countP_map]
  apply List.countP_congr
  intro x _
  rw [Function.comp_apply, beq_iff_eq, beq_iff_eq]
  exact (List.nodup_iff_injective_get.mp hids).eq_iff

end Page

def hangingOps : List MetricOp := [.accepted "tcp", .accepted "tcp", .closed "tcp"]

end Node.System

end OtkCore
