import OtkCore.EventModel
import Mathlib.Data.List.Basic
import Mathlib.Data.UInt

/-!
# Crossing processor

Detections of one `(timing point, subject)` are merged into a pending group
until one arrives outside the grouping window; the group then becomes a
crossing. `peekDetection` computes the crossings a commit would emit and
`commitDetection` moves the state. A crossing id is drawn at random by the
source, so every function that builds a crossing takes the drawn id.
-/
namespace OtkCore

/-- `u64::saturating_sub`. -/
def satSub (a b : UInt64) : UInt64 := if b ≤ a then a - b else 0

/-- `Iterator::max_by_key` from a first element: the last of the largest. -/
def maxByKey [LT κ] [DecidableLT κ] (key : α → κ) : α → List α → α :=
  List.foldl fun x y => if key y < key x then x else y

/-- `Iterator::min_by_key` from a first element: the first of the smallest. -/
def minByKey [LT κ] [DecidableLT κ] (key : α → κ) : α → List α → α :=
  List.foldl fun x y => if key y < key x then y else x

theorem foldl_pick_mem (pick : α → α → α) (hp : ∀ x y, pick x y = x ∨ pick x y = y) :
    ∀ (xs : List α) (x : α), xs.foldl pick x ∈ x :: xs
  | [], x => List.mem_cons_self
  | y :: ys, x => by
    have ih := foldl_pick_mem pick hp ys (pick x y)
    rw [List.foldl_cons]
    rcases hp x y with h | h <;> rw [h] at ih ⊢ <;> simp only [List.mem_cons] at ih ⊢ <;> tauto

theorem maxByKey_mem [LT κ] [DecidableLT κ] (key : α → κ) (x : α) (xs : List α) :
    maxByKey key x xs ∈ x :: xs :=
  foldl_pick_mem _ (fun _ _ => by split_ifs <;> simp) xs x

theorem minByKey_mem [LT κ] [DecidableLT κ] (key : α → κ) (x : α) (xs : List α) :
    minByKey key x xs ∈ x :: xs :=
  foldl_pick_mem _ (fun _ _ => by split_ifs <;> simp) xs x

/-- The signal strength of a loop transponder that reports one. -/
def SensorData.rssi? : SensorData → Option Int16
  | .loopTransponder rssi _ => rssi
  | _ => none

/-- Index of the peak detection of a group: the strongest signal when any loop
transponder reports one, else the earliest timestamp. Other detections count
as `i16::MIN` in the first case. The source panics on an empty group. -/
def pickPeakIndex (detections : List Detection) : ℕ :=
  match detections.zipIdx with
  | [] => 0
  | x :: xs =>
    if detections.any fun d => d.sensor.rssi?.isSome then
      (maxByKey (fun p : Detection × ℕ => p.1.sensor.rssi?.getD Int16.minValue) x xs).2
    else
      (minByKey (fun p : Detection × ℕ => p.1.detectedAtNs) x xs).2

theorem pickPeakIndex_lt {detections : List Detection} (h : detections ≠ []) :
    pickPeakIndex detections < detections.length := by
  have hmem : ∀ p ∈ detections.zipIdx, p.2 < detections.length :=
    fun p hp => (List.mem_zipIdx' hp).1
  unfold pickPeakIndex
  cases hz : detections.zipIdx with
  | nil => simp_all
  | cons x xs =>
    rw [hz] at hmem
    dsimp only
    split_ifs
    · exact hmem _ (maxByKey_mem _ _ _)
    · exact hmem _ (minByKey_mem _ _ _)

/-- A derived passage of a subject across a timing point. -/
structure Crossing where
  crossingId : CrossingId
  timingPointId : TimingPointId
  subjectId : Option SubjectId
  crossedAtNs : UInt64
  crossedAtUncertaintyNs : Option UInt64
  timebaseId : TimebaseId
  timestampingMethod : TimestampingMethod
  sourceAttestation : SourceAttestation
  detectionIds : List DetectionId
  deriving DecidableEq

abbrev GroupKey := TimingPointId × SubjectId

/-- Detections of one key in arrival order. A stored group is never empty. -/
structure PendingGroup where
  detections : List Detection
  nonempty : detections ≠ []

namespace PendingGroup

def single (det : Detection) : PendingGroup := ⟨[det], by simp⟩

def push (g : PendingGroup) (det : Detection) : PendingGroup :=
  ⟨g.detections ++ [det], by simp⟩

/-- Window anchor: the first detection by arrival order. -/
def firstDetectedAtNs (g : PendingGroup) : UInt64 := (g.detections.head g.nonempty).detectedAtNs

/-- Turn a group into the crossing with the drawn id. -/
def commit (g : PendingGroup) (crossingId : CrossingId) : Crossing :=
  let times := g.detections.map Detection.detectedAtNs
  let firstAt := times.min (by simpa [times] using g.nonempty)
  let lastAt := times.max (by simpa [times] using g.nonempty)
  let span := satSub lastAt firstAt
  let peak := g.detections.get ⟨pickPeakIndex g.detections, pickPeakIndex_lt g.nonempty⟩
  let first := g.detections.head g.nonempty
  { crossingId := crossingId
    timingPointId := first.timingPointId
    subjectId := first.subjectId
    crossedAtNs := peak.detectedAtNs
    crossedAtUncertaintyNs :=
      match peak.detectedAtUncertaintyNs with
      | some u => if 0 < span then some (max u span) else some u
      | none => if 0 < span then some span else none
    timebaseId := peak.timebaseId
    timestampingMethod := peak.timestampingMethod
    sourceAttestation := peak.sourceAttestation
    detectionIds := g.detections.map Detection.detectionId }

end PendingGroup

structure ProcessorConfig where
  groupingWindowNs : UInt64 := 2000000000
  deriving DecidableEq

structure CrossingProcessor where
  config : ProcessorConfig
  pending : AList fun _ : GroupKey => PendingGroup

namespace CrossingProcessor

def new (config : ProcessorConfig) : CrossingProcessor := ⟨config, ∅⟩

/-- The detection lies outside the window of its key's pending group. -/
def outsideWindow (p : CrossingProcessor) (key : GroupKey) (det : Detection) : Bool :=
  match p.pending.lookup key with
  | some g => p.config.groupingWindowNs < satSub det.detectedAtNs g.firstDetectedAtNs
  | none => false

/-- Crossings a commit of `det` would emit; the state is only read. -/
def peekDetection (p : CrossingProcessor) (det : Detection) (crossingId : CrossingId) :
    List Crossing :=
  match det.subjectId with
  | none => [(PendingGroup.single det).commit crossingId]
  | some subjectId =>
    let key := (det.timingPointId, subjectId)
    if p.outsideWindow key det then
      match p.pending.lookup key with
      | some g => [g.commit crossingId]
      | none => []
    else []

/-- Process one detection: evict a group it falls outside of, then add it to
the group of its key. -/
def commitDetection (p : CrossingProcessor) (det : Detection) (crossingId : CrossingId) :
    List Crossing × CrossingProcessor :=
  match det.subjectId with
  | none => ([(PendingGroup.single det).commit crossingId], p)
  | some subjectId =>
    let key := (det.timingPointId, subjectId)
    let (committed, pending) :=
      if p.outsideWindow key det then
        match p.pending.lookup key with
        | some g => ([g.commit crossingId], p.pending.erase key)
        | none => ([], p.pending)
      else ([], p.pending)
    let group := match pending.lookup key with
      | some g => g.push det
      | none => PendingGroup.single det
    (committed, { p with pending := pending.insert key group })

/-- Commit every pending group; the drawn id of each group is a parameter. -/
def flush (p : CrossingProcessor) (crossingId : GroupKey → CrossingId) :
    List Crossing × CrossingProcessor :=
  (p.pending.entries.map fun e => e.2.commit (crossingId e.1), { p with pending := ∅ })

/-- Key of the group a detection belongs to, if it has a subject. -/
def groupKey (det : Detection) : Option GroupKey :=
  det.subjectId.map fun s => (det.timingPointId, s)

/-- Detections waiting under a key, in arrival order. -/
def group (p : CrossingProcessor) (key : GroupKey) : List Detection :=
  match p.pending.lookup key with
  | some g => g.detections
  | none => []

theorem config_commitDetection (p : CrossingProcessor) (det : Detection) (cid : CrossingId) :
    (p.commitDetection det cid).2.config = p.config := by
  unfold commitDetection
  cases det.subjectId <;> rfl

/-- In single-threaded use a commit returns what the peek before it returned. -/
theorem fst_commitDetection (p : CrossingProcessor) (det : Detection) (cid : CrossingId) :
    (p.commitDetection det cid).1 = p.peekDetection det cid := by
  unfold commitDetection peekDetection
  cases det.subjectId with
  | none => rfl
  | some s =>
    dsimp only
    split_ifs with h
    · cases p.pending.lookup (det.timingPointId, s) <;> rfl
    · rfl

/-- A commit touches only the group of its own key: an evicted group is
replaced by the new detection, otherwise the detection joins at the end. -/
theorem group_commitDetection (p : CrossingProcessor) (det : Detection) (cid : CrossingId)
    (key : GroupKey) :
    (p.commitDetection det cid).2.group key =
      if groupKey det = some key then
        (if p.outsideWindow key det then [] else p.group key) ++ [det]
      else p.group key := by
  unfold commitDetection groupKey
  cases hs : det.subjectId with
  | none => simp
  | some s =>
    dsimp only [Option.map_some]
    by_cases hk : (det.timingPointId, s) = key
    · subst hk
      cases hl : p.pending.lookup (det.timingPointId, s) with
      | none => simp [outsideWindow, group, hl, AList.lookup_insert, PendingGroup.single]
      | some g =>
        by_cases ho : p.outsideWindow (det.timingPointId, s) det
        · simp [ho, group, AList.lookup_insert, AList.lookup_erase, PendingGroup.single]
        · simp [ho, group, hl, AList.lookup_insert, PendingGroup.push]
    · have hk' : key ≠ (det.timingPointId, s) := fun h => hk h.symm
      simp only [Option.some.injEq, hk, if_false, group]
      split_ifs with ho
      · cases hl : p.pending.lookup (det.timingPointId, s) with
        | none => simp [AList.lookup_insert_ne hk']
        | some g => simp [AList.lookup_insert_ne hk', AList.lookup_erase_ne hk']
      · simp [AList.lookup_insert_ne hk']

/-- A commit of `det` starts a new group under `key`. -/
def opensGroup (p : CrossingProcessor) (key : GroupKey) (det : Detection) : Bool :=
  (p.pending.lookup key).isNone || p.outsideWindow key det

theorem lookup_commitDetection (p : CrossingProcessor) (det : Detection) (cid : CrossingId)
    (key : GroupKey) :
    (p.commitDetection det cid).2.pending.lookup key =
      if groupKey det = some key then
        (if p.opensGroup key det then some (.single det)
          else (p.pending.lookup key).map fun g => g.push det)
      else p.pending.lookup key := by
  unfold commitDetection groupKey opensGroup
  cases hs : det.subjectId with
  | none => simp
  | some s =>
    dsimp only [Option.map_some]
    by_cases hk : (det.timingPointId, s) = key
    · subst hk
      cases hl : p.pending.lookup (det.timingPointId, s) with
      | none => simp [outsideWindow, hl, AList.lookup_insert]
      | some g =>
        by_cases ho : p.outsideWindow (det.timingPointId, s) det
        · simp [ho, AList.lookup_insert, AList.lookup_erase]
        · simp [ho, hl, AList.lookup_insert]
    · have hk' : key ≠ (det.timingPointId, s) := fun h => hk h.symm
      simp only [Option.some.injEq, hk, if_false]
      split_ifs with ho
      · cases hl : p.pending.lookup (det.timingPointId, s) with
        | none => simp [AList.lookup_insert_ne hk']
        | some g => simp [AList.lookup_insert_ne hk', AList.lookup_erase_ne hk']
      · simp [AList.lookup_insert_ne hk']

theorem detectionIds_peekDetection (p : CrossingProcessor) {det : Detection} (cid : CrossingId)
    {key : GroupKey} (hk : groupKey det = some key) :
    (p.peekDetection det cid).flatMap Crossing.detectionIds =
      if p.outsideWindow key det then (p.group key).map Detection.detectionId else [] := by
  unfold groupKey at hk
  cases hs : det.subjectId with
  | none => simp [hs] at hk
  | some s =>
    simp only [hs, Option.map_some, Option.some.injEq] at hk
    subst hk
    unfold peekDetection
    simp only [hs]
    split_ifs with ho
    · cases hl : p.pending.lookup (det.timingPointId, s) with
      | none => simp [group, hl]
      | some g => simp [group, hl, PendingGroup.commit]
    · rfl

/-- Every detection of a stored group belongs to the key it is stored under. -/
def Keyed (p : CrossingProcessor) : Prop :=
  ∀ key, ∀ det ∈ p.group key, groupKey det = some key

theorem keyed_new (config : ProcessorConfig) : (new config).Keyed := by
  intro key det h
  simp [new, group] at h

theorem Keyed.commitDetection {p : CrossingProcessor} (h : p.Keyed) (det : Detection)
    (cid : CrossingId) : (p.commitDetection det cid).2.Keyed := by
  intro key d hd
  rw [group_commitDetection] at hd
  split_ifs at hd with hk ho
  · simp only [List.nil_append, List.mem_singleton] at hd
    exact hd ▸ hk
  · rcases List.mem_append.mp hd with hd | hd
    · exact h key d hd
    · exact (List.mem_singleton.mp hd) ▸ hk
  · exact h key d hd

end CrossingProcessor
end OtkCore
