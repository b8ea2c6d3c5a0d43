import OtkCore.Core.CrossingProcessor
import OtkCore.Lib.Segments

/-!
# Grouping of detection sequences

The crossings of a whole sequence of detections, flushed at its end. For each
key they are the greedy segments of the key's detections in arrival order, and
every anonymous detection is a crossing of its own.
-/
namespace OtkCore

open Segments

/-- `b` was detected more than the window after `a`. -/
def beyond (window : UInt64) (a b : Detection) : Bool :=
  a.detectedAtNs.toNat + window.toNat < b.detectedAtNs.toNat

theorem beyond_eq (window : UInt64) (a b : Detection) :
    beyond window a b = decide (window < satSub b.detectedAtNs a.detectedAtNs) := by
  have hiff : a.detectedAtNs.toNat + window.toNat < b.detectedAtNs.toNat ↔
      window < satSub b.detectedAtNs a.detectedAtNs := by
    unfold satSub
    split_ifs with h
    · rw [UInt64.lt_iff_toNat_lt, UInt64.toNat_sub_of_le _ _ h]
      rw [UInt64.le_iff_toNat_le] at h
      omega
    · rw [UInt64.lt_iff_toNat_lt]
      rw [UInt64.le_iff_toNat_le] at h
      simp only [UInt64.toNat_zero]
      omega
  simp only [beyond, hiff]

def Crossing.key (c : Crossing) : Option GroupKey :=
  c.subjectId.map fun s => (c.timingPointId, s)

/-- `c` is the crossing of these detections, under some id. -/
def IsCrossingOf (c : Crossing) (detections : List Detection) : Prop :=
  ∃ (h : detections ≠ []) (cid : CrossingId), c = (PendingGroup.mk detections h).commit cid

def Crossing.Alike (c c' : Crossing) : Prop := ∃ cid, c' = { c with crossingId := cid }

theorem PendingGroup.isCrossingOf (g : PendingGroup) (cid : CrossingId) :
    IsCrossingOf (g.commit cid) g.detections :=
  ⟨g.nonempty, cid, rfl⟩

theorem IsCrossingOf.alike {c c' : Crossing} {detections : List Detection}
    (h : IsCrossingOf c detections) (h' : IsCrossingOf c' detections) : c.Alike c' := by
  obtain ⟨hne, cid, rfl⟩ := h
  obtain ⟨_, cid', rfl⟩ := h'
  exact ⟨cid', rfl⟩

theorem IsCrossingOf.detectionIds {c : Crossing} {detections : List Detection}
    (h : IsCrossingOf c detections) : c.detectionIds = detections.map Detection.detectionId := by
  obtain ⟨_, _, rfl⟩ := h
  rfl

theorem PendingGroup.key_commit (g : PendingGroup) (cid : CrossingId) {k : Option GroupKey}
    (h : ∀ d ∈ g.detections, CrossingProcessor.groupKey d = k) : (g.commit cid).key = k :=
  h _ (List.head_mem g.nonempty)

namespace CrossingProcessor

/-- Process detections one after another: what each call returned, and the
processor after the last one. Each detection comes with the id drawn for it. -/
def commitEach (p : CrossingProcessor) :
    List (Detection × CrossingId) → List (List Crossing) × CrossingProcessor
  | [] => ([], p)
  | (det, cid) :: rest =>
    let (crossings, p₁) := p.commitDetection det cid
    let (more, p₂) := p₁.commitEach rest
    (crossings :: more, p₂)

theorem commitEach_append (p : CrossingProcessor) (xs ys : List (Detection × CrossingId)) :
    p.commitEach (xs ++ ys) =
      ((p.commitEach xs).1 ++ ((p.commitEach xs).2.commitEach ys).1,
        ((p.commitEach xs).2.commitEach ys).2) := by
  induction xs generalizing p with
  | nil => rfl
  | cons x xs ih => simp [commitEach, ih]

theorem length_commitEach (p : CrossingProcessor) (xs : List (Detection × CrossingId)) :
    (p.commitEach xs).1.length = xs.length := by
  induction xs generalizing p with
  | nil => rfl
  | cons x xs ih => simp [commitEach, ih]

/-- The call after some others returns what a peek would have returned. -/
theorem getElem?_commitEach (p : CrossingProcessor) (before after : List (Detection × CrossingId))
    (det : Detection) (cid : CrossingId) :
    (p.commitEach (before ++ (det, cid) :: after)).1[before.length]? =
      some ((p.commitEach before).2.peekDetection det cid) := by
  rw [commitEach_append, List.getElem?_append_right (length_commitEach p before).le,
    length_commitEach, Nat.sub_self]
  simp [commitEach, fst_commitDetection]

theorem config_commitEach (p : CrossingProcessor) (xs : List (Detection × CrossingId)) :
    (p.commitEach xs).2.config = p.config := by
  induction xs generalizing p with
  | nil => rfl
  | cons x xs ih => simp [commitEach, ih, config_commitDetection]

theorem Keyed.commitEach {p : CrossingProcessor} (h : p.Keyed)
    (xs : List (Detection × CrossingId)) : (p.commitEach xs).2.Keyed := by
  induction xs generalizing p with
  | nil => exact h
  | cons x xs ih => exact ih (h.commitDetection x.1 x.2)

def ofKey (k : Option GroupKey) (dets : List (Detection × CrossingId)) : List Detection :=
  (dets.map Prod.fst).filter fun d => groupKey d = k

theorem ofKey_concat (k : Option GroupKey) (dets : List (Detection × CrossingId))
    (x : Detection × CrossingId) :
    ofKey k (dets ++ [x]) = ofKey k dets ++ if groupKey x.1 = k then [x.1] else [] := by
  simp [ofKey, List.filter_append, List.filter_singleton]

theorem Keyed.key_peekDetection {p : CrossingProcessor} (h : p.Keyed) (det : Detection)
    (cid : CrossingId) : ∀ c ∈ p.peekDetection det cid, c.key = groupKey det := by
  intro c hc
  unfold peekDetection at hc
  cases hs : det.subjectId with
  | none =>
    simp only [hs, List.mem_singleton] at hc
    subst hc
    exact PendingGroup.key_commit _ cid (by simp [PendingGroup.single])
  | some s =>
    have hkey : groupKey det = some (det.timingPointId, s) := by simp [groupKey, hs]
    simp only [hs] at hc
    split_ifs at hc
    · cases hl : p.pending.lookup (det.timingPointId, s) with
      | none => simp [hl] at hc
      | some g =>
        simp only [hl, List.mem_singleton] at hc
        subst hc
        rw [hkey]
        exact PendingGroup.key_commit g cid fun d hd => h _ d (by simpa [group, hl] using hd)
    · simp at hc

/-- The crossings of a key so far and its pending group are the segments of its
detections so far. -/
def Segmented (p : CrossingProcessor) (key : GroupKey) (crossings : List Crossing)
    (dets : List Detection) : Prop :=
  match p.pending.lookup key with
  | none => dets = [] ∧ crossings = []
  | some g => ∃ gs, segments (beyond p.config.groupingWindowNs) dets = gs ++ [g.detections] ∧
      List.Forall₂ IsCrossingOf crossings gs

theorem Segmented.nonempty {p : CrossingProcessor} {key : GroupKey} {crossings : List Crossing}
    {dets : List Detection} (h : p.Segmented key crossings dets) {g : PendingGroup}
    (hg : p.pending.lookup key = some g) : dets ≠ [] := by
  simp only [Segmented, hg] at h
  obtain ⟨gs, hsegs, -⟩ := h
  rintro rfl
  simp [segments] at hsegs

theorem Keyed.filter_peekDetection {p : CrossingProcessor} (h : p.Keyed) (det : Detection)
    (cid : CrossingId) (k : Option GroupKey) :
    (p.peekDetection det cid).filter (fun c => c.key = k) =
      if groupKey det = k then p.peekDetection det cid else [] := by
  have hkey := h.key_peekDetection det cid
  split_ifs with hk
  · exact List.filter_eq_self.mpr fun c hc => by simp [hkey c hc, hk]
  · exact List.filter_eq_nil_iff.mpr fun c hc => by simp [hkey c hc, hk]

theorem peekDetection_of_key {p : CrossingProcessor} {det : Detection} {key : GroupKey}
    (hk : groupKey det = some key) (cid : CrossingId) :
    p.peekDetection det cid = if p.outsideWindow key det then
      ((p.pending.lookup key).map fun g => g.commit cid).toList else [] := by
  unfold groupKey at hk
  cases hs : det.subjectId with
  | none => simp [hs] at hk
  | some s =>
    simp only [hs, Option.map_some, Option.some.injEq] at hk
    subst hk
    simp only [peekDetection, hs]
    split_ifs
    · cases p.pending.lookup (det.timingPointId, s) <;> rfl
    · rfl

/-- One call moves the segments of its key on by one detection, and leaves those
of the other keys alone. -/
theorem Segmented.commitDetection {p : CrossingProcessor} {key : GroupKey}
    {crossings : List Crossing} {dets : List Detection} (h : p.Segmented key crossings dets)
    (hkeyed : p.Keyed) (det : Detection) (cid : CrossingId) :
    (p.commitDetection det cid).2.Segmented key
      (crossings ++ (p.peekDetection det cid).filter fun c => c.key = some key)
      (dets ++ if groupKey det = some key then [det] else []) := by
  rw [hkeyed.filter_peekDetection]
  unfold Segmented
  rw [lookup_commitDetection, config_commitDetection]
  by_cases hk : groupKey det = some key
  · simp only [if_pos hk]
    rw [peekDetection_of_key hk]
    cases hl : p.pending.lookup key with
    | none =>
      simp only [Segmented, hl] at h
      obtain ⟨rfl, rfl⟩ := h
      simp only [opensGroup, outsideWindow, hl, Option.isNone_none, Bool.true_or, if_true,
        Bool.false_eq_true, if_false]
      exact ⟨[], rfl, .nil⟩
    | some g =>
      have hne := h.nonempty hl
      simp only [Segmented, hl] at h
      obtain ⟨gs, hsegs, hcrossings⟩ := h
      obtain ⟨gs', g', first, hsegs', hfirst, hmore⟩ :=
        segments_concat (beyond p.config.groupingWindowNs) hne det
      obtain ⟨rfl, hg⟩ := List.append_inj' (hsegs.symm.trans hsegs') rfl
      obtain rfl : g.detections = g' := by simpa using hg
      have hanchor : first = g.detections.head g.nonempty := by
        rw [List.head?_eq_some_head g.nonempty] at hfirst
        exact (Option.some.inj hfirst).symm
      have hfar : beyond p.config.groupingWindowNs first det = p.outsideWindow key det := by
        simp only [beyond_eq, outsideWindow, hl, hanchor, PendingGroup.firstDetectedAtNs]
        rfl
      rw [hmore, hfar]
      cases ho : p.outsideWindow key det with
      | true =>
        simp only [opensGroup, hl, ho, Option.isNone_some, Bool.or_true, if_true, Option.map_some,
          Option.toList_some]
        refine ⟨gs ++ [g.detections], by simp [PendingGroup.single], ?_⟩
        exact List.rel_append hcrossings (.cons (g.isCrossingOf cid) .nil)
      | false =>
        simp only [opensGroup, hl, ho, Option.isNone_some, Bool.or_false, Bool.false_eq_true,
          if_false, Option.map_some, List.append_nil]
        exact ⟨gs, by simp [PendingGroup.push], hcrossings⟩
  · simp only [if_neg hk, List.append_nil]
    exact h

/-- The crossings of one key that the calls have returned. -/
def returned (k : Option GroupKey) (outputs : List (List Crossing)) : List Crossing :=
  outputs.flatten.filter fun c => c.key = k

theorem segmented_commitEach (config : ProcessorConfig) (dets : List (Detection × CrossingId))
    (key : GroupKey) :
    ((new config).commitEach dets).2.Segmented key
      (returned (some key) ((new config).commitEach dets).1) (ofKey (some key) dets) := by
  induction dets using List.reverseRecOn with
  | nil => exact ⟨rfl, rfl⟩
  | append_singleton dets x ih =>
    have hstep := ih.commitDetection ((keyed_new config).commitEach dets) x.1 x.2
    rw [commitEach_append, ofKey_concat]
    simpa [commitEach, returned, fst_commitDetection] using hstep

theorem forall₂_anonymous (config : ProcessorConfig) (dets : List (Detection × CrossingId)) :
    List.Forall₂ IsCrossingOf (returned none ((new config).commitEach dets).1)
      ((ofKey none dets).map fun d => [d]) := by
  induction dets using List.reverseRecOn with
  | nil => exact .nil
  | append_singleton dets x ih =>
    have hkeyed := (keyed_new config).commitEach dets
    have hout : returned none ((new config).commitEach (dets ++ [x])).1 =
        returned none ((new config).commitEach dets).1 ++ if groupKey x.1 = none then
          ((new config).commitEach dets).2.peekDetection x.1 x.2 else [] := by
      rw [commitEach_append, ← hkeyed.filter_peekDetection]
      simp [commitEach, returned, fst_commitDetection]
    rw [hout, ofKey_concat, List.map_append]
    refine List.rel_append ih ?_
    split_ifs with hk
    · have hs : x.1.subjectId = none := by simpa [groupKey] using hk
      simp only [peekDetection, hs, List.map_cons, List.map_nil]
      exact .cons (PendingGroup.isCrossingOf (.single x.1) x.2) .nil
    · exact .nil

/-- Stored groups become crossings of the key they are stored under. -/
theorem Keyed.key_of_mem_entries {p : CrossingProcessor} (h : p.Keyed)
    {e : (_ : GroupKey) × PendingGroup} (he : e ∈ p.pending.entries) (cid : CrossingId) :
    (e.2.commit cid).key = some e.1 := by
  have hl : p.pending.lookup e.1 = some e.2 := AList.mem_lookup_iff.mpr he
  exact PendingGroup.key_commit _ cid fun d hd => h e.1 d (by simpa [group, hl] using hd)

/-- What a flush returns under one key: the crossing of its group. -/
theorem Keyed.filter_flush {p : CrossingProcessor} (h : p.Keyed) (ids : GroupKey → CrossingId)
    (key : GroupKey) :
    ((p.flush ids).1.filter fun c => c.key = some key) =
      ((p.pending.lookup key).map fun g => g.commit (ids key)).toList := by
  have hlist : ∀ entries : List ((_ : GroupKey) × PendingGroup),
      (∀ e ∈ entries, (e.2.commit (ids e.1)).key = some e.1) →
      ((entries.map fun e => e.2.commit (ids e.1)).filter fun c => c.key = some key) =
        (List.lookupAll key entries).map fun g => g.commit (ids key) := by
    intro entries
    induction entries with
    | nil => exact fun _ => rfl
    | cons e entries ih =>
      intro hall
      obtain ⟨he, hrest⟩ := List.forall_mem_cons.mp hall
      rw [List.map_cons, List.filter_cons, ih hrest]
      by_cases hk : e.1 = key
      · obtain ⟨k, g⟩ := e
        obtain rfl : k = key := hk
        simp [he]
      · rw [List.lookupAll_cons_ne entries e (Ne.symm hk), he]
        simp [hk]
  rw [flush, hlist _ fun e he => h.key_of_mem_entries he _,
    List.lookupAll_eq_dlookup key p.pending.nodupKeys]
  change List.map _ (p.pending.lookup key).toList = _
  cases p.pending.lookup key <;> rfl

theorem Keyed.filter_flush_none {p : CrossingProcessor} (h : p.Keyed)
    (ids : GroupKey → CrossingId) : ((p.flush ids).1.filter fun c => c.key = none) = [] := by
  refine List.filter_eq_nil_iff.mpr fun c hc => ?_
  obtain ⟨e, he, rfl⟩ := List.mem_map.mp hc
  simp [h.key_of_mem_entries he]

/-- All crossings of a sequence: those the calls return, then those of a flush. -/
def crossings (config : ProcessorConfig) (dets : List (Detection × CrossingId))
    (ids : GroupKey → CrossingId) : List Crossing :=
  let (outputs, p) := (new config).commitEach dets
  outputs.flatten ++ (p.flush ids).1

theorem perm_of_filter_eq {α κ : Type} [DecidableEq α] [DecidableEq κ] (cls : α → κ) {xs ys : List α}
    (h : ∀ k, xs.filter (fun x => cls x = k) = ys.filter fun y => cls y = k) : xs.Perm ys := by
  refine List.perm_iff_count.mpr fun a => ?_
  have hx := congrArg (List.count a) (h (cls a))
  rwa [List.count_filter (by simp), List.count_filter (by simp)] at hx

theorem detectionIds_of_forall₂ {cs : List Crossing} {gs : List (List Detection)}
    (h : List.Forall₂ IsCrossingOf cs gs) :
    cs.flatMap Crossing.detectionIds = gs.flatten.map Detection.detectionId := by
  induction h with
  | nil => rfl
  | cons hc _ ih => simp [ih, hc.detectionIds]

theorem filter_listed (cs : List Crossing) (k : Option GroupKey) :
    (cs.flatMap fun c => c.detectionIds.map fun i => (c.key, i)).filter (fun x => x.1 = k) =
      ((cs.filter fun c => c.key = k).flatMap Crossing.detectionIds).map fun i => (k, i) := by
  induction cs with
  | nil => rfl
  | cons c cs ih =>
    rw [List.flatMap_cons, List.filter_append, ih, List.filter_map, List.filter_cons]
    by_cases hk : c.key = k
    · simp [hk, Function.comp_def]
    · simp [hk, Function.comp_def]

theorem filter_arrived (dets : List (Detection × CrossingId)) (k : Option GroupKey) :
    (dets.map fun x => (groupKey x.1, x.1.detectionId)).filter (fun x => x.1 = k) =
      ((ofKey k dets).map Detection.detectionId).map fun i => (k, i) := by
  induction dets with
  | nil => rfl
  | cons x xs ih =>
    rw [List.map_cons, List.filter_cons, ih]
    by_cases hk : groupKey x.1 = k
    · simp [hk, ofKey]
    · simp [hk, ofKey]

section Whole

variable (config : ProcessorConfig) (dets : List (Detection × CrossingId))
  (ids : GroupKey → CrossingId)

/-- The groups of one key, or one for each anonymous detection. -/
def expected : Option GroupKey → List (List Detection)
  | none => (ofKey none dets).map fun d => [d]
  | some key => segments (beyond config.groupingWindowNs) (ofKey (some key) dets)

theorem flatten_expected (k : Option GroupKey) :
    (expected config dets k).flatten = ofKey k dets := by
  cases k with
  | none => simp [expected, ← List.flatMap_def]
  | some key => exact flatten_segments _ _

theorem forall₂_crossings (k : Option GroupKey) :
    List.Forall₂ IsCrossingOf ((crossings config dets ids).filter fun c => c.key = k)
      (expected config dets k) := by
  have hkeyed := (keyed_new config).commitEach dets
  have hsplit : ((crossings config dets ids).filter fun c => c.key = k) =
      returned k ((new config).commitEach dets).1 ++
        ((((new config).commitEach dets).2.flush ids).1.filter fun c => c.key = k) :=
    List.filter_append ..
  rw [hsplit]
  cases k with
  | none =>
    rw [hkeyed.filter_flush_none, List.append_nil]
    exact forall₂_anonymous config dets
  | some key =>
    rw [hkeyed.filter_flush]
    have hsegs := segmented_commitEach config dets key
    unfold Segmented at hsegs
    rw [config_commitEach] at hsegs
    change List.Forall₂ IsCrossingOf _
      (segments (beyond config.groupingWindowNs) (ofKey (some key) dets))
    cases hl : ((new config).commitEach dets).2.pending.lookup key with
    | none =>
      simp only [hl] at hsegs
      rw [hsegs.1, hsegs.2]
      exact .nil
    | some g =>
      simp only [hl] at hsegs
      obtain ⟨gs, hgs, hforall⟩ := hsegs
      change List.Forall₂ IsCrossingOf _ (segments (beyond (new config).config.groupingWindowNs) _)
      rw [hgs]
      exact List.rel_append hforall (.cons (g.isCrossingOf _) .nil)

theorem perm_detectionIds :
    ((crossings config dets ids).flatMap Crossing.detectionIds).Perm
      (dets.map fun x => x.1.detectionId) := by
  -- The ids with the keys they are listed under.
  have htagged : ((crossings config dets ids).flatMap fun c =>
      c.detectionIds.map fun i => (c.key, i)).Perm
        (dets.map fun x => (groupKey x.1, x.1.detectionId)) := by
    refine perm_of_filter_eq Prod.fst fun k => ?_
    rw [filter_listed, filter_arrived,
      detectionIds_of_forall₂ (forall₂_crossings config dets ids k), flatten_expected]
  simpa [List.map_flatMap, Function.comp_def] using htagged.map Prod.snd

end Whole

/-- Whatever else is ingested, the crossings of a key are those of its own
detections. -/
theorem crossings_alike (config : ProcessorConfig) {dets dets' : List (Detection × CrossingId)}
    (ids ids' : GroupKey → CrossingId) {k : Option GroupKey} (h : ofKey k dets' = ofKey k dets) :
    List.Forall₂ Crossing.Alike ((crossings config dets ids).filter fun c => c.key = k)
      ((crossings config dets' ids').filter fun c => c.key = k) := by
  have hsame : expected config dets' k = expected config dets k := by
    cases k with
    | none => rw [expected, expected, h]
    | some key => rw [expected, expected, h]
  have hleft := forall₂_crossings config dets ids k
  have hright := forall₂_crossings config dets' ids' k
  rw [hsame] at hright
  have hcommon : ∀ {cs cs' : List Crossing} {gs : List (List Detection)},
      List.Forall₂ IsCrossingOf cs gs → List.Forall₂ IsCrossingOf cs' gs →
        List.Forall₂ Crossing.Alike cs cs' := by
    intro cs cs' gs hcs
    induction hcs generalizing cs' with
    | nil =>
      intro hcs'
      cases hcs'
      exact .nil
    | cons hc _ ih =>
      intro hcs'
      cases hcs' with
      | cons hc' htail => exact .cons (hc.alike hc') (ih htail)
  exact hcommon hleft hright

/-- With timestamps in order a group spans at most the window. -/
theorem gap_le_of_sorted {config : ProcessorConfig} {dets : List Detection}
    (hsorted : dets.Pairwise fun a b => a.detectedAtNs ≤ b.detectedAtNs) {g : List Detection}
    (hg : g ∈ segments (beyond config.groupingWindowNs) dets) {a b : Detection} (ha : a ∈ g)
    (hb : b ∈ g) : b.detectedAtNs.toNat ≤ a.detectedAtNs.toNat + config.groupingWindowNs.toNat := by
  obtain ⟨first, hhead, htail⟩ := near_segments _ _ g hg
  have hsub : g.Sublist dets := by
    have hflat := List.sublist_flatten_of_mem hg
    rwa [flatten_segments] at hflat
  have hgs := hsorted.sublist hsub
  cases g with
  | nil => simp at hhead
  | cons x xs =>
    obtain rfl : x = first := by simpa using hhead
    have hlow : x.detectedAtNs.toNat ≤ a.detectedAtNs.toNat := by
      rcases List.mem_cons.mp ha with rfl | ha
      · exact le_rfl
      · exact UInt64.le_iff_toNat_le.mp ((List.pairwise_cons.mp hgs).1 a ha)
    have hhigh : b.detectedAtNs.toNat ≤ x.detectedAtNs.toNat + config.groupingWindowNs.toNat := by
      rcases List.mem_cons.mp hb with rfl | hb
      · exact Nat.le_add_right _ _
      · simpa [beyond] using htail b hb
    omega

/-- The crossings of any sequence of detections, flushed at its end: of each key
the greedy segments of its own detections in arrival order, and each anonymous
detection where it arrived; a peek before each call shows what it will return. -/
theorem crossings_greedy (config : ProcessorConfig) (dets : List (Detection × CrossingId))
    (ids : GroupKey → CrossingId) :
    (∀ key, List.Forall₂ IsCrossingOf
      ((crossings config dets ids).filter fun c => c.key = some key)
      (segments (beyond config.groupingWindowNs) (ofKey (some key) dets))) ∧
    List.Forall₂ IsCrossingOf ((crossings config dets ids).filter fun c => c.key = none)
      ((ofKey none dets).map fun d => [d]) ∧
    (∀ before det cid after, dets = before ++ (det, cid) :: after →
      ((new config).commitEach dets).1[before.length]? =
        some (((new config).commitEach before).2.peekDetection det cid) ∧
      (det.subjectId = none →
        ((new config).commitEach dets).1[before.length]? =
          some [(PendingGroup.single det).commit cid])) ∧
    ((crossings config dets ids).flatMap Crossing.detectionIds).Perm
      (dets.map fun x => x.1.detectionId) ∧
    (∀ k dets' ids', ofKey k dets' = ofKey k dets →
      List.Forall₂ Crossing.Alike ((crossings config dets ids).filter fun c => c.key = k)
        ((crossings config dets' ids').filter fun c => c.key = k)) ∧
    ∀ key, (ofKey (some key) dets).Pairwise (fun a b => a.detectedAtNs ≤ b.detectedAtNs) →
      (∀ g ∈ segments (beyond config.groupingWindowNs) (ofKey (some key) dets),
        ∀ a ∈ g, ∀ b ∈ g,
          b.detectedAtNs.toNat ≤ a.detectedAtNs.toNat + config.groupingWindowNs.toNat) ∧
      (segments (beyond config.groupingWindowNs) (ofKey (some key) dets)).IsChain fun g g' =>
        ∃ a b, g.head? = some a ∧ g'.head? = some b ∧
          a.detectedAtNs.toNat + config.groupingWindowNs.toNat < b.detectedAtNs.toNat := by
  refine ⟨fun key => forall₂_crossings config dets ids (some key),
    forall₂_crossings config dets ids none, ?_, perm_detectionIds config dets ids,
    fun k dets' ids' h => crossings_alike config ids ids' h, fun key hsorted => ⟨?_, ?_⟩⟩
  · rintro before det cid after rfl
    refine ⟨getElem?_commitEach _ _ _ _ _, fun hs => ?_⟩
    rw [getElem?_commitEach, peekDetection, hs]
  · exact fun g hg a ha b hb => gap_le_of_sorted hsorted hg ha hb
  · refine (isChain_segments _ _).imp ?_
    rintro g g' ⟨a, b, ha, hb, hfar⟩
    exact ⟨a, b, ha, hb, by simpa [beyond] using hfar⟩

end CrossingProcessor
end OtkCore
