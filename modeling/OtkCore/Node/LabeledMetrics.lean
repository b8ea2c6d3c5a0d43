import OtkCore.Lib.CappedMap
import Mathlib.Data.Multiset.Count
import Mathlib.Data.String.Basic
import Mathlib.Data.UInt

/-!
# Labelled counters and gauges

Both metrics keep one atomic cell per label set, at most
`maxSeriesPerMetric` of them, and one overflow cell. The cells are machine
integers whose additions wrap; a run over them is the image of the run over
exact numbers, where the table's sums are conserved.
-/
namespace OtkCore

abbrev Labels := List (String × String)

/-- Cardinality cap per labelled counter or gauge. -/
def maxSeriesPerMetric : ℕ := 10000

/-- The key of a label list: its labels sorted by name. -/
def canonicalLabels (labels : Labels) : Labels := labels.mergeSort fun a b => a.1 ≤ b.1

abbrev LabeledMetric (V : Type) := CappedMap Labels V

namespace LabeledMetric

variable {V : Type} [Add V] [Zero V]

/-- `fetch_add` on the cell of a key that has one. -/
def fetchAdd? (m : LabeledMetric V) (delta : V) (key : Labels) : Option (LabeledMetric V) :=
  (m.series.lookup key).map fun v => { m with series := m.series.insert key (v + delta) }

def add (m : LabeledMetric V) (delta : V) (labels : Labels) : LabeledMetric V :=
  let key := canonicalLabels labels
  match m.fetchAdd? delta key with
  | some m' => m'
  | none =>
    -- The write lock is taken now, and the map looked up again under it.
    match m.fetchAdd? delta key with
    | some m' => m'
    | none =>
      if maxSeriesPerMetric ≤ m.series.keys.length then { m with overflow := m.overflow + delta }
      else { m with series := m.series.insert key (0 + delta) }

theorem add_eq (m : LabeledMetric V) (delta : V) (labels : Labels) :
    m.add delta labels = CappedMap.add maxSeriesPerMetric m (canonicalLabels labels, delta) := by
  unfold add fetchAdd? CappedMap.add
  cases hl : m.series.lookup (canonicalLabels labels) <;> simp [hl]

end LabeledMetric

abbrev LabeledCounter := LabeledMetric UInt64

namespace LabeledCounter

def incr (c : LabeledCounter) (labels : Labels) : LabeledCounter := c.add 1 labels

def incrAll (calls : List Labels) : LabeledCounter := calls.foldl incr CappedMap.empty

end LabeledCounter

abbrev LabeledGauge := LabeledMetric Int64

inductive GaugeOp
  | inc (labels : Labels)
  | dec (labels : Labels)
  deriving DecidableEq

namespace LabeledGauge

def inc (g : LabeledGauge) (labels : Labels) : LabeledGauge := g.add 1 labels
def dec (g : LabeledGauge) (labels : Labels) : LabeledGauge := g.add (-1) labels

def perform (g : LabeledGauge) : GaugeOp → LabeledGauge
  | .inc labels => g.inc labels
  | .dec labels => g.dec labels

def performAll (ops : List GaugeOp) : LabeledGauge := ops.foldl perform CappedMap.empty

end LabeledGauge

theorem canonicalLabels_perm (labels : Labels) : (canonicalLabels labels).Perm labels :=
  List.mergeSort_perm _ _

theorem canonicalLabels_eq_iff {a b : Labels} (ha : (a.map Prod.fst).Nodup) :
    canonicalLabels a = canonicalLabels b ↔ a.Perm b := by
  constructor
  · intro h
    exact (canonicalLabels_perm a).symm.trans (h ▸ canonicalLabels_perm b)
  · intro h
    have hsorted : ∀ l : Labels, (canonicalLabels l).Pairwise fun x y => x.1 ≤ y.1 := by
      intro l
      have hl : (l.mergeSort fun x y => decide (x.1 ≤ y.1)).Pairwise
          fun x y => decide (x.1 ≤ y.1) = true :=
        List.pairwise_mergeSort (by simpa using fun x y z => le_trans)
          (by simpa using fun x y => le_total x y) l
      simpa [canonicalLabels] using hl
    have hperm := (canonicalLabels_perm a).trans (h.trans (canonicalLabels_perm b).symm)
    refine hperm.eq_of_pairwise ?_ (hsorted a) (hsorted b)
    intro x y hx hy hxy hyx
    have hxa : x ∈ a := (canonicalLabels_perm a).mem_iff.mp hx
    have hya : y ∈ a := h.mem_iff.mpr ((canonicalLabels_perm b).mem_iff.mp hy)
    exact List.inj_on_of_nodup_map ha hxa hya (le_antisymm hxy hyx)

section Exact

variable {V W : Type} [Add V] [Zero V] [Add W] [Zero W] {α : Type}

/-- A run of additions is the image of the same run over exact numbers. -/
theorem foldl_add_eq_map (f : W → V) (hadd : ∀ a b, f (a + b) = f a + f b) (hzero : f 0 = 0)
    (step : LabeledMetric V → α → LabeledMetric V) (op : α → Labels × W)
    (hstep : ∀ m a, step m a = m.add (f (op a).2) (op a).1) (as : List α) :
    as.foldl step CappedMap.empty =
      ((CappedMap.empty : LabeledMetric W).addAll maxSeriesPerMetric
        (as.map fun a => (canonicalLabels (op a).1, (op a).2))).map f := by
  have hempty : (CappedMap.empty : LabeledMetric V) =
      (CappedMap.empty : LabeledMetric W).map f := by
    simp only [CappedMap.empty, CappedMap.map, hzero]
    rfl
  rw [← CappedMap.map_addAll f hadd hzero, ← hempty, List.map_map]
  generalize (CappedMap.empty : LabeledMetric V) = m
  induction as generalizing m with
  | nil => rfl
  | cons a as ih =>
    rw [List.foldl_cons, ih, hstep, LabeledMetric.add_eq]
    rfl

end Exact

namespace LabeledCounter

def exact (calls : List Labels) : LabeledMetric ℕ :=
  (CappedMap.empty : LabeledMetric ℕ).addAll maxSeriesPerMetric
    (calls.map fun labels => (canonicalLabels labels, 1))

theorem incrAll_eq (calls : List Labels) : incrAll calls = (exact calls).map UInt64.ofNat :=
  foldl_add_eq_map UInt64.ofNat UInt64.ofNat_add rfl incr (fun labels => (labels, 1))
    (fun _ _ => rfl) calls

def received (p : Labels → Prop) [DecidablePred p] (calls : List Labels) : ℕ :=
  calls.countP fun labels => p (canonicalLabels labels)

theorem sumOf_calls (p : Labels → Prop) [DecidablePred p] (calls : List Labels) :
    CappedMap.sumOf p (calls.map fun labels => (canonicalLabels labels, 1)) =
      received p calls := by
  induction calls with
  | nil => rfl
  | cons labels calls ih =>
    rw [List.map_cons, ← List.singleton_append, CappedMap.sumOf_append, CappedMap.sumOf_singleton,
      ih, received, received, List.countP_cons]
    by_cases h : p (canonicalLabels labels) <;> simp [h, Nat.add_comm]

theorem mem_incrAll {calls : List Labels} {key : Labels} :
    key ∈ (incrAll calls).series ↔ key ∈ (exact calls).series := by
  rw [incrAll_eq]
  exact CappedMap.mem_mapSeries _

/-- A series counts the calls with its key, modulo the width of its cell. -/
theorem toNat_of_lookup {calls more : List Labels} {key : Labels} {n : UInt64}
    (hnot : key ∉ (incrAll calls).series)
    (hl : (incrAll (calls ++ more)).series.lookup key = some n) :
    n.toNat = received (· = key) more % 2 ^ 64 := by
  rw [mem_incrAll] at hnot
  simp only [incrAll_eq, CappedMap.map, CappedMap.lookup_mapSeries, Option.map_eq_some_iff] at hl
  obtain ⟨v, hv, rfl⟩ := hl
  rw [exact, List.map_append] at hv
  rw [CappedMap.lookup_addAll_append _ _ hnot hv, sumOf_calls, UInt64.toNat_ofNat']

theorem tracks_exact (calls : List Labels) :
    CappedMap.Tracks maxSeriesPerMetric
      (calls.map fun labels => (canonicalLabels labels, 1)) (exact calls) :=
  CappedMap.tracks_addAll _

theorem overflow_exact (calls : List Labels) :
    (exact calls).overflow = received (· ∉ (incrAll calls).series) calls := by
  rw [(tracks_exact calls).overflow, sumOf_calls]
  simp only [received, mem_incrAll]

theorem total_exact (calls : List Labels) :
    (exact calls).values.sum + (exact calls).overflow = calls.length := by
  have h := CappedMap.total_addAll maxSeriesPerMetric (CappedMap.empty : LabeledMetric ℕ)
    (calls.map fun labels => (canonicalLabels labels, 1))
  simpa [CappedMap.total, CappedMap.empty, CappedMap.values, exact, Function.comp_def] using h

theorem sum_mod_eq_iff {width : ℕ} (hw : 0 < width) (vs : List ℕ) (o : ℕ) :
    (vs.map (· % width)).sum + o % width = vs.sum + o ↔
      (∀ v ∈ vs, v < width) ∧ o < width := by
  have hle : ∀ v, v % width ≤ v := fun v => Nat.mod_le v width
  have heq : ∀ v, v % width = v ↔ v < width :=
    fun v => ⟨fun h => h ▸ Nat.mod_lt v hw, Nat.mod_eq_of_lt⟩
  have hsum : ∀ vs : List ℕ, (vs.map (· % width)).sum ≤ vs.sum ∧
      ((vs.map (· % width)).sum = vs.sum ↔ ∀ v ∈ vs, v < width) := by
    intro vs
    induction vs with
    | nil => simp
    | cons v vs ih =>
      obtain ⟨ihle, iheq⟩ := ih
      have hv := hle v
      simp only [List.map_cons, List.sum_cons, List.forall_mem_cons, ← heq v, ← iheq]
      omega
  obtain ⟨hvs, hvseq⟩ := hsum vs
  have ho := hle o
  rw [← heq o, ← hvseq]
  omega

/-- The cells add up to the number of calls unless one of them has wrapped. -/
theorem sum_eq_length_iff (calls : List Labels) :
    ((incrAll calls).values.map UInt64.toNat).sum + (incrAll calls).overflow.toNat =
        calls.length ↔
      (∀ key ∈ (incrAll calls).series, received (· = key) calls < 2 ^ 64) ∧
        received (· ∉ (incrAll calls).series) calls < 2 ^ 64 := by
  have hvalues : (∀ v ∈ (exact calls).values, v < 2 ^ 64) ↔
      ∀ key ∈ (incrAll calls).series, received (· = key) calls < 2 ^ 64 := by
    constructor
    · intro h key hkey
      obtain ⟨v, hv⟩ := CappedMap.mem_series_iff.mp (mem_incrAll.mp hkey)
      rw [← sumOf_calls, ← (tracks_exact calls).series key v hv]
      exact h v (CappedMap.mem_values.mpr ⟨key, hv⟩)
    · intro h v hmem
      obtain ⟨key, hv⟩ := CappedMap.mem_values.mp hmem
      rw [(tracks_exact calls).series key v hv, sumOf_calls]
      exact h key (mem_incrAll.mpr (CappedMap.mem_series_iff.mpr ⟨v, hv⟩))
  have hcells : ((incrAll calls).values.map UInt64.toNat).sum + (incrAll calls).overflow.toNat =
      ((exact calls).values.map (· % 2 ^ 64)).sum + (exact calls).overflow % 2 ^ 64 := by
    simp only [incrAll_eq, CappedMap.values_map, CappedMap.overflow_map, List.map_map,
      Function.comp_def, UInt64.toNat_ofNat']
  rw [hcells, ← total_exact, sum_mod_eq_iff (by decide), hvalues, overflow_exact]

theorem sum_ne_of_replicate {labels : Labels} {n : ℕ} (hn : 2 ^ 64 ≤ n) :
    ¬ ((incrAll (List.replicate n labels)).values.map UInt64.toNat).sum +
        (incrAll (List.replicate n labels)).overflow.toNat =
      (List.replicate n labels).length := by
  rw [sum_eq_length_iff]
  rintro ⟨hin, hout⟩
  have hall : ∀ (p : Labels → Prop) [DecidablePred p], p (canonicalLabels labels) →
      received p (List.replicate n labels) = n := by
    intro p _ hp
    rw [received, List.countP_replicate, if_pos (decide_eq_true hp)]
  by_cases hmem : canonicalLabels labels ∈ (incrAll (List.replicate n labels)).series
  · have hcount := hin _ hmem
    rw [hall (· = canonicalLabels labels) rfl] at hcount
    omega
  · rw [hall (· ∉ (incrAll (List.replicate n labels)).series) hmem] at hout
    omega

end LabeledCounter

namespace GaugeOp

def labels : GaugeOp → Labels
  | .inc labels => labels
  | .dec labels => labels

def delta : GaugeOp → ℤ
  | .inc _ => 1
  | .dec _ => -1

def inc? : GaugeOp → Option Labels
  | .inc labels => some (canonicalLabels labels)
  | .dec _ => none

def dec? : GaugeOp → Option Labels
  | .inc _ => none
  | .dec labels => some (canonicalLabels labels)

end GaugeOp

namespace LabeledGauge

def incs (ops : List GaugeOp) : List Labels := ops.filterMap GaugeOp.inc?
def decs (ops : List GaugeOp) : List Labels := ops.filterMap GaugeOp.dec?

/-- How many increments of a set of keys are not matched yet. -/
def unmatched (p : Labels → Prop) [DecidablePred p] (ops : List GaugeOp) : ℤ :=
  (incs ops).countP (p ·) - (decs ops).countP (p ·)

/-- Every decrement comes after an increment of its own label set. -/
def Guarded (ops : List GaugeOp) : Prop :=
  ∀ first, first <+: ops → ∀ key, 0 ≤ unmatched (· = key) first

def exact (ops : List GaugeOp) : LabeledMetric ℤ :=
  (CappedMap.empty : LabeledMetric ℤ).addAll maxSeriesPerMetric
    (ops.map fun op => (canonicalLabels op.labels, op.delta))

theorem performAll_eq (ops : List GaugeOp) : performAll ops = (exact ops).map Int64.ofInt :=
  foldl_add_eq_map Int64.ofInt Int64.ofInt_add rfl perform (fun op => (op.labels, op.delta))
    (fun _ op => by cases op <;> rfl) ops

theorem mem_performAll {ops : List GaugeOp} {key : Labels} :
    key ∈ (performAll ops).series ↔ key ∈ (exact ops).series := by
  rw [performAll_eq]
  exact CappedMap.mem_mapSeries _

theorem sumOf_ops (p : Labels → Prop) [DecidablePred p] (ops : List GaugeOp) :
    CappedMap.sumOf p (ops.map fun op => (canonicalLabels op.labels, op.delta)) =
      unmatched p ops := by
  induction ops with
  | nil => rfl
  | cons op ops ih =>
    rw [List.map_cons, ← List.singleton_append, CappedMap.sumOf_append, CappedMap.sumOf_singleton,
      ih]
    cases op with
    | inc labels =>
      by_cases h : p (canonicalLabels labels) <;>
        simp [unmatched, incs, decs, List.filterMap_cons, GaugeOp.labels, GaugeOp.delta,
          GaugeOp.inc?, GaugeOp.dec?, h]
      omega
    | dec labels =>
      by_cases h : p (canonicalLabels labels) <;>
        simp [unmatched, incs, decs, List.filterMap_cons, GaugeOp.labels, GaugeOp.delta,
          GaugeOp.inc?, GaugeOp.dec?, h]
      omega

theorem count_sub_count (key : Labels) (ops : List GaugeOp) :
    ((incs ops : Multiset Labels).count key : ℤ) - (decs ops : Multiset Labels).count key =
      unmatched (· = key) ops := by
  simp only [unmatched, Multiset.count, Multiset.coe_countP, eq_comm]

theorem unmatched_nonneg {ops : List GaugeOp} (h : Guarded ops) (p : Labels → Prop)
    [DecidablePred p] : 0 ≤ unmatched p ops := by
  have hle : (decs ops : Multiset Labels) ≤ incs ops := by
    rw [Multiset.le_iff_count]
    intro key
    have hkey := h ops (List.prefix_refl ops) key
    rw [← count_sub_count] at hkey
    omega
  have hcount := Multiset.countP_le_of_le p hle
  simp only [Multiset.coe_countP] at hcount
  unfold unmatched
  omega

theorem unmatched_eq_zero {ops : List GaugeOp} (h : ∀ key, unmatched (· = key) ops = 0)
    (p : Labels → Prop) [DecidablePred p] : unmatched p ops = 0 := by
  have hsame : (incs ops : Multiset Labels) = decs ops := by
    ext key
    have hkey := h key
    rw [← count_sub_count] at hkey
    omega
  have hperm : (incs ops).Perm (decs ops) := Multiset.coe_eq_coe.mp hsame
  rw [unmatched, hperm.countP_eq, Int.sub_self]

theorem tracks_exact (ops : List GaugeOp) :
    CappedMap.Tracks maxSeriesPerMetric
      (ops.map fun op => (canonicalLabels op.labels, op.delta)) (exact ops) :=
  CappedMap.tracks_addAll _

theorem value_exact {ops : List GaugeOp} {v : ℤ} (h : v ∈ (exact ops).values) :
    ∃ key ∈ (performAll ops).series, v = unmatched (· = key) ops := by
  obtain ⟨key, hv⟩ := CappedMap.mem_values.mp h
  exact ⟨key, mem_performAll.mpr (CappedMap.mem_series_iff.mpr ⟨v, hv⟩),
    by rw [(tracks_exact ops).series key v hv, sumOf_ops]⟩

theorem overflow_exact (ops : List GaugeOp) :
    (exact ops).overflow = unmatched (· ∉ (performAll ops).series) ops := by
  rw [(tracks_exact ops).overflow, sumOf_ops]
  simp only [unmatched, mem_performAll]

theorem total_exact (ops : List GaugeOp) :
    (exact ops).values.sum + (exact ops).overflow = (incs ops).length - (decs ops).length := by
  have h := CappedMap.total_addAll maxSeriesPerMetric (CappedMap.empty : LabeledMetric ℤ)
    (ops.map fun op => (canonicalLabels op.labels, op.delta))
  have hall : (ops.map GaugeOp.delta).sum = unmatched (fun _ => True) ops := by
    rw [← sumOf_ops]
    simp [CappedMap.sumOf, Function.comp_def]
  simpa [CappedMap.total, CappedMap.empty, CappedMap.values, exact, Function.comp_def, hall,
    unmatched] using h

def Fits (ops : List GaugeOp) : Prop :=
  (∀ key ∈ (performAll ops).series, unmatched (· = key) ops < 2 ^ 63) ∧
    unmatched (· ∉ (performAll ops).series) ops < 2 ^ 63

/-- No run of fewer than `2 ^ 63` operations overflows a cell. -/
theorem fits_of_length {ops : List GaugeOp} (h : ops.length < 2 ^ 63) : Fits ops := by
  have hle : ∀ (p : Labels → Prop) [DecidablePred p], unmatched p ops < 2 ^ 63 := by
    intro p _
    have hcount := List.countP_le_length (p := fun key => decide (p key)) (l := incs ops)
    have hincs : (incs ops).length ≤ ops.length := List.length_filterMap_le _ _
    unfold unmatched
    omega
  exact ⟨fun key _ => hle (· = key), hle _⟩

theorem cells_exact {ops : List GaugeOp} (hg : Guarded ops) (hfit : Fits ops) :
    (performAll ops).values.map Int64.toInt = (exact ops).values ∧
      (performAll ops).overflow.toInt = (exact ops).overflow := by
  have hcell : ∀ v : ℤ, 0 ≤ v → v < 2 ^ 63 → (Int64.ofInt v).toInt = v :=
    fun v h₁ h₂ => Int64.toInt_ofInt_of_le (by omega) h₂
  have hoverflow : (performAll ops).overflow = Int64.ofInt (exact ops).overflow := by
    rw [performAll_eq, CappedMap.overflow_map]
  constructor
  · have hvalue : ∀ v ∈ (exact ops).values, (Int64.ofInt v).toInt = v := by
      intro v hv
      obtain ⟨key, hkey, rfl⟩ := value_exact hv
      exact hcell _ (unmatched_nonneg hg _) (hfit.1 key hkey)
    rw [performAll_eq, CappedMap.values_map, List.map_map]
    exact (List.map_congr_left hvalue).trans (List.map_id _)
  · rw [hoverflow, overflow_exact]
    exact hcell _ (unmatched_nonneg hg _) hfit.2

end LabeledGauge

/-- Counters count every call in one cell, up to the width of the cell, and
never keep more series than the cap; gauges whose decrements are guarded stay
non-negative and return to zero. -/
theorem labeledMetrics_conserve :
    (∀ calls : List Labels,
      let c := LabeledCounter.incrAll calls
      c.series.keys.length ≤ 10000 ∧
      ((c.values.map UInt64.toNat).sum + c.overflow.toNat = calls.length ↔
        (∀ key ∈ c.series, LabeledCounter.received (· = key) calls < 2 ^ 64) ∧
          LabeledCounter.received (· ∉ c.series) calls < 2 ^ 64) ∧
      ∀ before after, calls = before ++ after → ∀ key n,
        key ∉ (LabeledCounter.incrAll before).series → c.series.lookup key = some n →
          n.toNat = LabeledCounter.received (· = key) after % 2 ^ 64) ∧
    (∀ (c : LabeledCounter) (a b : Labels), (a.map Prod.fst).Nodup → a.Perm b →
      c.incr a = c.incr b) ∧
    (∀ a b : Labels, (a.map Prod.fst).Nodup →
      (canonicalLabels a = canonicalLabels b ↔ a.Perm b)) ∧
    ∀ ops : List GaugeOp, LabeledGauge.Guarded ops → LabeledGauge.Fits ops →
      let g := LabeledGauge.performAll ops
      (∀ n ∈ g.values, 0 ≤ n.toInt) ∧ 0 ≤ g.overflow.toInt ∧
      (g.values.map Int64.toInt).sum + g.overflow.toInt =
        (LabeledGauge.incs ops).length - (LabeledGauge.decs ops).length ∧
      ((∀ key, LabeledGauge.unmatched (· = key) ops = 0) →
        (∀ n ∈ g.values, n.toInt = 0) ∧ g.overflow.toInt = 0) := by
  refine ⟨?_, ?_, fun a b ha => canonicalLabels_eq_iff ha, ?_⟩
  · intro calls c
    refine ⟨?_, LabeledCounter.sum_eq_length_iff calls, ?_⟩
    · have hcap := CappedMap.length_keys_addAll_le maxSeriesPerMetric
        (CappedMap.empty : LabeledMetric ℕ)
        (calls.map fun labels => (canonicalLabels labels, 1)) (by simp [CappedMap.empty])
      simpa [c, LabeledCounter.incrAll_eq, CappedMap.map, LabeledCounter.exact,
        maxSeriesPerMetric] using hcap
    · rintro before after rfl key n hnot hl
      exact LabeledCounter.toNat_of_lookup hnot hl
  · intro c a b ha hab
    rw [LabeledCounter.incr, LabeledCounter.incr, LabeledMetric.add_eq, LabeledMetric.add_eq,
      (canonicalLabels_eq_iff ha).mpr hab]
  · intro ops hg hfit g
    obtain ⟨hvalues, hoverflow⟩ := LabeledGauge.cells_exact hg hfit
    have hcell : ∀ n ∈ g.values, ∃ key, n.toInt = LabeledGauge.unmatched (· = key) ops := by
      intro n hn
      have hmem := List.mem_map_of_mem (f := Int64.toInt) hn
      rw [hvalues] at hmem
      obtain ⟨key, -, hkey⟩ := LabeledGauge.value_exact hmem
      exact ⟨key, hkey⟩
    have hout : g.overflow.toInt = LabeledGauge.unmatched (· ∉ g.series) ops :=
      hoverflow.trans (LabeledGauge.overflow_exact ops)
    refine ⟨?_, ?_, ?_, ?_⟩
    · intro n hn
      obtain ⟨key, hkey⟩ := hcell n hn
      rw [hkey]
      exact LabeledGauge.unmatched_nonneg hg _
    · rw [hout]
      exact LabeledGauge.unmatched_nonneg hg _
    · rw [hvalues, hoverflow, LabeledGauge.total_exact]
    · intro hall
      refine ⟨?_, hout.trans (LabeledGauge.unmatched_eq_zero hall _)⟩
      intro n hn
      obtain ⟨key, hkey⟩ := hcell n hn
      exact hkey.trans (hall key)

def oneSession : List GaugeOp := [.inc [("listener_id", "tcp")], .dec [("listener_id", "tcp")]]

theorem labeledMetrics_conserve_oneSession :
    LabeledGauge.Guarded oneSession ∧ LabeledGauge.Fits oneSession ∧
      (LabeledGauge.performAll oneSession).overflow.toInt = 0 := by
  have hguarded : LabeledGauge.Guarded oneSession := by
    intro first hfirst key
    simp only [oneSession, List.prefix_cons_iff, List.prefix_nil] at hfirst
    rcases hfirst with rfl | ⟨_, rfl, rfl | ⟨_, rfl, rfl⟩⟩ <;>
      simp [LabeledGauge.unmatched, LabeledGauge.incs, LabeledGauge.decs, List.filterMap_cons,
        GaugeOp.inc?, GaugeOp.dec?]
    split_ifs <;> decide
  have hfits : LabeledGauge.Fits oneSession := LabeledGauge.fits_of_length (by decide)
  have hzero := (labeledMetrics_conserve.2.2.2 oneSession hguarded hfits).2.2.2
  refine ⟨hguarded, hfits, (hzero ?_).2⟩
  intro key
  simp [oneSession, LabeledGauge.unmatched, LabeledGauge.incs, LabeledGauge.decs,
    List.filterMap_cons, GaugeOp.inc?, GaugeOp.dec?]

/-- One label set counted `2 ^ 64` times: its cell is back at zero. -/
theorem labeledCounter_wraps :
    ¬ ∀ calls : List Labels, (∀ labels ∈ calls, (labels.map Prod.fst).Nodup) →
      ((LabeledCounter.incrAll calls).values.map UInt64.toNat).sum +
        (LabeledCounter.incrAll calls).overflow.toNat = calls.length := by
  intro h
  exact LabeledCounter.sum_ne_of_replicate le_rfl
    (h (List.replicate (2 ^ 64) [("producer_id", "p")]) fun labels hl => by
      rw [List.eq_of_mem_replicate hl]
      decide)

end OtkCore
