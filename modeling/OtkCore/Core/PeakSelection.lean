import OtkCore.Core.EventIngest

/-!
# Peak, time and uncertainty of a crossing

A crossing takes its time and its provenance from one detection of its group,
the peak, and an uncertainty that reaches every timestamp of the group. The
peak is the strongest signal of the group, unless every signal that a loop
transponder reports is `i16::MIN`: the detections that report none count as
just that, and of equals the last one is picked.
-/
namespace OtkCore

section Pick

variable {α κ : Type} [LE κ] [LT κ] [DecidableLT κ] [Std.IsLinearOrder κ] [Std.LawfulOrderLT κ]
  (key : α → κ)

theorem le_maxByKey (x : α) (xs : List α) {y : α} (hy : y ∈ x :: xs) :
    key y ≤ key (maxByKey key x xs) := by
  induction xs generalizing x y with
  | nil =>
    obtain rfl := List.mem_singleton.mp hy
    exact Std.le_refl _
  | cons z zs ih =>
    rw [maxByKey, List.foldl_cons]
    have hpick : key x ≤ key (if key z < key x then x else z) ∧
        key z ≤ key (if key z < key x then x else z) := by
      split_ifs with h
      · exact ⟨Std.le_refl _, Std.le_of_lt h⟩
      · exact ⟨Std.not_lt.mp h, Std.le_refl _⟩
    have hfirst := ih (if key z < key x then x else z) List.mem_cons_self
    rcases List.mem_cons.mp hy with rfl | hy
    · exact Std.le_trans hpick.1 hfirst
    · rcases List.mem_cons.mp hy with rfl | hy
      · exact Std.le_trans hpick.2 hfirst
      · exact ih _ (List.mem_cons_of_mem _ hy)

theorem minByKey_le (x : α) (xs : List α) {y : α} (hy : y ∈ x :: xs) :
    key (minByKey key x xs) ≤ key y := by
  induction xs generalizing x y with
  | nil =>
    obtain rfl := List.mem_singleton.mp hy
    exact Std.le_refl _
  | cons z zs ih =>
    rw [minByKey, List.foldl_cons]
    have hpick : key (if key z < key x then z else x) ≤ key x ∧
        key (if key z < key x then z else x) ≤ key z := by
      split_ifs with h
      · exact ⟨Std.le_of_lt h, Std.le_refl _⟩
      · exact ⟨Std.le_refl _, Std.not_lt.mp h⟩
    have hfirst := ih (if key z < key x then z else x) List.mem_cons_self
    rcases List.mem_cons.mp hy with rfl | hy
    · exact Std.le_trans hfirst hpick.1
    · rcases List.mem_cons.mp hy with rfl | hy
      · exact Std.le_trans hfirst hpick.2
      · exact ih _ (List.mem_cons_of_mem _ hy)

omit [Std.IsLinearOrder κ] in
theorem maxByKey_of_equal {k : κ} (x : α) (xs : List α) (h : ∀ y ∈ x :: xs, key y = k) :
    maxByKey key x xs = (x :: xs).getLast (List.cons_ne_nil x xs) := by
  induction xs generalizing x with
  | nil => rfl
  | cons z zs ih =>
    have hx : key x = k := h x List.mem_cons_self
    have hz : key z = k := h z (List.mem_cons_of_mem _ List.mem_cons_self)
    rw [maxByKey, List.foldl_cons, if_neg (by rw [hx, hz]; exact Std.lt_irrefl),
      List.getLast_cons (List.cons_ne_nil z zs)]
    exact ih z fun y hy => h y (List.mem_cons_of_mem _ hy)

end Pick

/-- The key under which a detection takes part in the search for the strongest
signal. -/
def strength (d : Detection) : Int16 := d.sensor.rssi?.getD Int16.minValue

/-- `i` is the place of the strongest signal, or of an earliest detection where
no signal is reported. -/
def IsPeak (detections : List Detection) (i : ℕ) : Prop :=
  ∃ d, detections[i]? = some d ∧
    ((∃ x ∈ detections, x.sensor.rssi?.isSome = true) →
      ∃ r, d.sensor.rssi? = some r ∧ ∀ x ∈ detections, ∀ r', x.sensor.rssi? = some r' → r' ≤ r) ∧
    ((∀ x ∈ detections, x.sensor.rssi? = none) →
      ∀ x ∈ detections, d.detectedAtNs ≤ x.detectedAtNs)

theorem strength_of_some {d : Detection} {r : Int16} (h : d.sensor.rssi? = some r) :
    strength d = r := by
  simp [strength, h]

theorem isSome_of_strength {d : Detection} (h : Int16.minValue < strength d) :
    d.sensor.rssi?.isSome = true := by
  cases hr : d.sensor.rssi? with
  | some r => rfl
  | none => exact absurd h (by simp [strength, hr])

theorem getElem?_of_mem_zipIdx {α : Type} {xs : List α} {p : α × ℕ} (h : p ∈ xs.zipIdx) :
    xs[p.2]? = some p.1 := by
  simpa using List.mem_zipIdx_iff_getElem?.mp h

theorem exists_mem_zipIdx {α : Type} {xs : List α} {x : α} (h : x ∈ xs) :
    ∃ i, (x, i) ∈ xs.zipIdx := by
  obtain ⟨i, hi, rfl⟩ := List.getElem_of_mem h
  exact ⟨i, by simp [List.mem_zipIdx_iff_getElem?, hi]⟩

/-- What is picked where a loop transponder reports a signal: an element of
the greatest strength, and the last element if all are equally strong. -/
theorem pickPeakIndex_of_signal {detections : List Detection}
    (h : ∃ x ∈ detections, x.sensor.rssi?.isSome = true) :
    ∃ d, detections[pickPeakIndex detections]? = some d ∧
      (∀ x ∈ detections, strength x ≤ strength d) ∧
      ∀ k, (∀ x ∈ detections, strength x = k) → detections.getLast? = some d := by
  have hany : (detections.any fun d => d.sensor.rssi?.isSome) = true := by simpa using h
  cases hz : detections.zipIdx with
  | nil =>
    obtain rfl := List.zipIdx_eq_nil_iff.mp hz
    simp at h
  | cons x xs =>
    have hplaces : ∀ p, p ∈ x :: xs ↔ p ∈ detections.zipIdx := by simp [hz]
    obtain ⟨best, hbest⟩ : ∃ best, best = maxByKey (fun p => strength p.1) x xs := ⟨_, rfl⟩
    have hpick : pickPeakIndex detections = best.2 := by
      simp only [pickPeakIndex, hz, hany, if_true, hbest, strength]
    have hmem : best ∈ x :: xs := hbest ▸ maxByKey_mem _ x xs
    refine ⟨best.1, ?_, fun y hy => ?_, fun k hk => ?_⟩
    · rw [hpick]
      exact getElem?_of_mem_zipIdx ((hplaces _).mp hmem)
    · obtain ⟨i, hi⟩ := exists_mem_zipIdx hy
      have hle := le_maxByKey (fun p : Detection × ℕ => strength p.1) x xs ((hplaces _).mpr hi)
      rwa [← hbest] at hle
    · have hequal : ∀ p ∈ x :: xs, strength p.1 = k := by
        intro p hp
        exact hk _ (List.mem_of_getElem? (getElem?_of_mem_zipIdx ((hplaces _).mp hp)))
      have hmap : (x :: xs).map Prod.fst = detections := by rw [← hz]; simp
      rw [hbest, maxByKey_of_equal _ x xs hequal, ← hmap, List.getLast?_map,
        List.getLast?_eq_some_getLast (List.cons_ne_nil x xs)]
      rfl

theorem pickPeakIndex_of_silence {detections : List Detection} (hne : detections ≠ [])
    (h : ∀ x ∈ detections, x.sensor.rssi? = none) :
    ∃ d, detections[pickPeakIndex detections]? = some d ∧
      ∀ x ∈ detections, d.detectedAtNs ≤ x.detectedAtNs := by
  have hany : ¬ (detections.any fun d => d.sensor.rssi?.isSome) = true := by simpa using h
  cases hz : detections.zipIdx with
  | nil => exact absurd (List.zipIdx_eq_nil_iff.mp hz) hne
  | cons x xs =>
    have hplaces : ∀ p, p ∈ x :: xs ↔ p ∈ detections.zipIdx := by simp [hz]
    obtain ⟨best, hbest⟩ : ∃ best, best = minByKey (fun p => p.1.detectedAtNs) x xs := ⟨_, rfl⟩
    have hpick : pickPeakIndex detections = best.2 := by
      simp only [pickPeakIndex, hz, if_neg hany, hbest]
    have hmem : best ∈ x :: xs := hbest ▸ minByKey_mem _ x xs
    refine ⟨best.1, ?_, fun y hy => ?_⟩
    · rw [hpick]
      exact getElem?_of_mem_zipIdx ((hplaces _).mp hmem)
    · obtain ⟨i, hi⟩ := exists_mem_zipIdx hy
      have hle := minByKey_le (fun p : Detection × ℕ => p.1.detectedAtNs) x xs ((hplaces _).mpr hi)
      rwa [← hbest] at hle

/-- The peak is right unless the strongest signal is `i16::MIN` and the last
detection reports none. -/
theorem pickPeakIndex_isPeak_iff {detections : List Detection} (hne : detections ≠ []) :
    IsPeak detections (pickPeakIndex detections) ↔
      (∀ x ∈ detections, x.sensor.rssi? = none) ∨
      (∃ x ∈ detections, ∃ r, x.sensor.rssi? = some r ∧ Int16.minValue < r) ∨
      ∃ x, detections.getLast? = some x ∧ x.sensor.rssi?.isSome = true := by
  by_cases hsilent : ∀ x ∈ detections, x.sensor.rssi? = none
  · obtain ⟨d, hd, hmin⟩ := pickPeakIndex_of_silence hne hsilent
    have hpeak : IsPeak detections (pickPeakIndex detections) := by
      refine ⟨d, hd, ?_, fun _ => hmin⟩
      rintro ⟨x, hx, hsome⟩
      simp [hsilent x hx] at hsome
    exact iff_of_true hpeak (Or.inl hsilent)
  have hsig : ∃ x ∈ detections, x.sensor.rssi?.isSome = true := by
    push Not at hsilent
    obtain ⟨x, hx, hsome⟩ := hsilent
    exact ⟨x, hx, Option.isSome_iff_ne_none.mpr hsome⟩
  obtain ⟨d, hd, hmax, hlast⟩ := pickPeakIndex_of_signal hsig
  have hpeak : IsPeak detections (pickPeakIndex detections) ↔ d.sensor.rssi?.isSome = true := by
    constructor
    · rintro ⟨d', hd', hbest, -⟩
      obtain rfl := Option.some.inj (hd.symm.trans hd')
      obtain ⟨r, hr, -⟩ := hbest hsig
      rw [hr]
      rfl
    · intro hsome
      obtain ⟨r, hr⟩ := Option.isSome_iff_exists.mp hsome
      refine ⟨d, hd, fun _ => ⟨r, hr, fun x hx r' hr' => ?_⟩, fun h => absurd h hsilent⟩
      have hle := hmax x hx
      rwa [strength_of_some hr, strength_of_some hr'] at hle
  rw [hpeak]
  by_cases hstrong : ∃ x ∈ detections, ∃ r, x.sensor.rssi? = some r ∧ Int16.minValue < r
  · obtain ⟨x, hx, r, hr, hlt⟩ := hstrong
    have hle : r ≤ strength d := strength_of_some hr ▸ hmax x hx
    exact iff_of_true (isSome_of_strength (Std.lt_of_lt_of_le hlt hle))
      (Or.inr (Or.inl ⟨x, hx, r, hr, hlt⟩))
  -- All strengths are the least one, so the last detection is picked.
  have hall : ∀ x ∈ detections, strength x = Int16.minValue := by
    intro x hx
    cases hr : x.sensor.rssi? with
    | none => simp [strength, hr]
    | some r =>
      rw [strength_of_some hr]
      by_contra hne
      refine hstrong ⟨x, hx, r, hr, ?_⟩
      exact Std.lt_of_le_of_ne (Int16.minValue_le r) (Ne.symm hne)
  have hget := hlast _ hall
  constructor
  · exact fun hsome => Or.inr (Or.inr ⟨d, hget, hsome⟩)
  · rintro (hnone | hlt | ⟨x, hx, hsome⟩)
    · exact absurd hnone hsilent
    · exact absurd hlt hstrong
    · rw [hget] at hx
      obtain rfl := Option.some.inj hx
      exact hsome

/-- A detection of one group with the given sensor. -/
def sensed (id : String) (sensor : SensorData) : Detection :=
  ⟨⟨id⟩, ⟨"det"⟩, ⟨"tp"⟩, some ⟨"s"⟩, 5, none, none, .hardwareEventCapture, ⟨"tb"⟩,
    .runtimeDiscovered, 0, sensor⟩

/-- A signal of `i16::MIN` and a light barrier behind it: the light barrier is
taken for the peak. -/
theorem peak_of_weakest_signal :
    let detections := [sensed "a" (.loopTransponder (some Int16.minValue) none), sensed "b" .beamBreak]
    pickPeakIndex detections = 1 ∧ ¬ IsPeak detections (pickPeakIndex detections) := by
  intro detections
  have hpick : pickPeakIndex detections = 1 := by decide
  refine ⟨hpick, ?_⟩
  rw [hpick]
  rintro ⟨d, hd, hbest, -⟩
  obtain rfl : sensed "b" .beamBreak = d := Option.some.inj hd
  obtain ⟨r, hr, -⟩ := hbest ⟨sensed "a" (.loopTransponder (some Int16.minValue) none), by
    simp [detections], rfl⟩
  cases hr

theorem pickPeakIndex_isPeak_sample :
    let detections := [sensed "a" .beamBreak, sensed "b" (.loopTransponder (some (-60)) none)]
    detections ≠ [] ∧ (IsPeak detections (pickPeakIndex detections) ↔
      (∀ x ∈ detections, x.sensor.rssi? = none) ∨
      (∃ x ∈ detections, ∃ r, x.sensor.rssi? = some r ∧ Int16.minValue < r) ∨
      ∃ x, detections.getLast? = some x ∧ x.sensor.rssi?.isSome = true) :=
  ⟨by simp, pickPeakIndex_isPeak_iff (by simp)⟩

def gap (a b : UInt64) : ℕ := max (a.toNat - b.toNat) (b.toNat - a.toNat)

instance lawfulOrderMaxUInt64 : Std.LawfulOrderMax UInt64 where
  max_eq_or a b := by
    change (if a ≤ b then b else a) = a ∨ (if a ≤ b then b else a) = b
    split_ifs <;> simp
  max_le_iff a b c := by
    change (if a ≤ b then b else a) ≤ c ↔ _
    split_ifs with h
    · exact ⟨fun hbc => ⟨Std.le_trans h hbc, hbc⟩, And.right⟩
    · exact ⟨fun hac => ⟨hac, Std.le_trans (Std.le_of_lt (Std.not_le.mp h)) hac⟩, And.left⟩

theorem toNat_satSub (a b : UInt64) : (satSub a b).toNat = a.toNat - b.toNat := by
  unfold satSub
  split_ifs with h
  · exact UInt64.toNat_sub_of_le a b h
  · have hlt : a.toNat < b.toNat := by
      rw [UInt64.le_iff_toNat_le] at h
      omega
    simp only [UInt64.toNat_zero]
    omega

namespace PendingGroup

variable (g : PendingGroup)

theorem peakIndex_lt : pickPeakIndex g.detections < g.detections.length :=
  pickPeakIndex_lt g.nonempty

/-- The detection the crossing takes its time and provenance from. -/
def peak : Detection := g.detections.get ⟨pickPeakIndex g.detections, g.peakIndex_lt⟩

theorem peak_mem : g.peak ∈ g.detections := List.get_mem _ _

def times : List UInt64 := g.detections.map Detection.detectedAtNs

theorem times_ne_nil : g.times ≠ [] := by simpa [times] using g.nonempty

def firstAt : UInt64 := g.times.min g.times_ne_nil

def lastAt : UInt64 := g.times.max g.times_ne_nil

/-- The time from the earliest to the latest detection. -/
def span : UInt64 := satSub g.lastAt g.firstAt

theorem between {d : Detection} (hd : d ∈ g.detections) :
    g.firstAt ≤ d.detectedAtNs ∧ d.detectedAtNs ≤ g.lastAt := by
  have hmem : d.detectedAtNs ∈ g.times := List.mem_map_of_mem hd
  exact ⟨List.min_le_of_mem hmem, List.le_max_of_mem hmem⟩

/-- Two detections of a group are no further apart than its span. -/
theorem gap_le_span {d d' : Detection} (hd : d ∈ g.detections) (hd' : d' ∈ g.detections) :
    gap d.detectedAtNs d'.detectedAtNs ≤ g.span.toNat := by
  obtain ⟨hlo, hhi⟩ := g.between hd
  obtain ⟨hlo', hhi'⟩ := g.between hd'
  rw [UInt64.le_iff_toNat_le] at hlo hhi hlo' hhi'
  rw [span, toNat_satSub, gap]
  omega

theorem uncertainty_commit (cid : CrossingId) :
    (g.commit cid).crossedAtUncertaintyNs =
      match g.peak.detectedAtUncertaintyNs with
      | some u => if 0 < g.span then some (max u g.span) else some u
      | none => if 0 < g.span then some g.span else none := rfl

theorem gap_eq_zero (h : ¬ 0 < g.span) {d d' : Detection} (hd : d ∈ g.detections)
    (hd' : d' ∈ g.detections) : gap d.detectedAtNs d'.detectedAtNs = 0 := by
  have hle := g.gap_le_span hd hd'
  rw [UInt64.lt_iff_toNat_lt, UInt64.toNat_zero] at h
  omega

theorem eq_of_gap {a b : UInt64} (h : gap a b = 0) : a = b := by
  rw [gap] at h
  exact UInt64.toNat_inj.mp (by omega)

/-- What a crossing says is carried by one detection `p` of its group, and its
uncertainty reaches all of them. -/
structure CarriedBy (c : Crossing) (p : Detection) : Prop where
  mem : p ∈ g.detections
  time : c.crossedAtNs = p.detectedAtNs
  timebase : c.timebaseId = p.timebaseId
  method : c.timestampingMethod = p.timestampingMethod
  attestation : c.sourceAttestation = p.sourceAttestation
  reach : ∀ u, c.crossedAtUncertaintyNs = some u →
    (∀ d ∈ g.detections, gap d.detectedAtNs c.crossedAtNs ≤ u.toNat) ∧
      ∀ v, p.detectedAtUncertaintyNs = some v → v ≤ u
  exact : c.crossedAtUncertaintyNs = none →
    p.detectedAtUncertaintyNs = none ∧
      ∀ d ∈ g.detections, ∀ d' ∈ g.detections, d.detectedAtNs = d'.detectedAtNs

theorem commit_carriedBy (cid : CrossingId) : g.CarriedBy (g.commit cid) g.peak where
  mem := g.peak_mem
  time := rfl
  timebase := rfl
  method := rfl
  attestation := rfl
  reach := by
    intro u hu
    rw [uncertainty_commit] at hu
    have hspan : ∀ d ∈ g.detections, gap d.detectedAtNs (g.commit cid).crossedAtNs ≤ g.span.toNat :=
      fun d hd => g.gap_le_span hd g.peak_mem
    have hzero : ¬ 0 < g.span → ∀ d ∈ g.detections,
        gap d.detectedAtNs (g.commit cid).crossedAtNs ≤ u.toNat :=
      fun h d hd => (g.gap_eq_zero h hd g.peak_mem).trans_le (Nat.zero_le _)
    cases hp : g.peak.detectedAtUncertaintyNs with
    | some v =>
      simp only [hp] at hu
      split_ifs at hu with hpos
      · obtain rfl := Option.some.inj hu
        have hmax : v ≤ max v g.span ∧ g.span ≤ max v g.span :=
          ⟨Std.left_le_max, Std.right_le_max⟩
        refine ⟨fun d hd => (hspan d hd).trans ?_, ?_⟩
        · exact UInt64.le_iff_toNat_le.mp hmax.2
        · rintro v' hv'
          obtain rfl := Option.some.inj hv'
          exact hmax.1
      · obtain rfl := Option.some.inj hu
        refine ⟨hzero hpos, ?_⟩
        rintro v' hv'
        obtain rfl := Option.some.inj hv'
        exact Std.le_refl _
    | none =>
      simp only [hp] at hu
      split_ifs at hu with hpos
      obtain rfl := Option.some.inj hu
      exact ⟨hspan, fun v hv => absurd hv (by simp)⟩
  exact := by
    intro hu
    rw [uncertainty_commit] at hu
    cases hp : g.peak.detectedAtUncertaintyNs with
    | some v =>
      simp only [hp] at hu
      split_ifs at hu
    | none =>
      simp only [hp] at hu
      split_ifs at hu with hpos
      exact ⟨rfl, fun d hd d' hd' => eq_of_gap (g.gap_eq_zero hpos hd hd')⟩

end PendingGroup

/-- The crossing with the fields of a logged one. -/
def Crossing.ofEvent (e : CrossingEvent) : Crossing :=
  { crossingId := e.crossingId
    timingPointId := e.timingPointId
    subjectId := e.subjectId
    crossedAtNs := e.crossedAtNs
    crossedAtUncertaintyNs := e.crossedAtUncertaintyNs
    timebaseId := e.timebaseId
    timestampingMethod := e.timestampingMethod
    sourceAttestation := e.sourceAttestation
    detectionIds := e.detectionIds }

theorem ofEvent_mapCrossing (c : Crossing) : Crossing.ofEvent (mapCrossing c) = c := rfl

/-- The crossing of any group, also as it is read back from the logged event. -/
theorem commit_sound (g : PendingGroup) (cid : CrossingId) :
    (∃ p, g.CarriedBy (g.commit cid) p) ∧
      (g.commit cid).detectionIds = g.detections.map Detection.detectionId ∧
      Crossing.ofEvent (mapCrossing (g.commit cid)) = g.commit cid :=
  ⟨⟨g.peak, g.commit_carriedBy cid⟩, rfl, ofEvent_mapCrossing _⟩

end OtkCore
