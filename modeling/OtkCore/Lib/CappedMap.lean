import Mathlib.Data.List.AList
import Mathlib.Algebra.BigOperators.Group.List.Basic
import Mathlib.Tactic.Abel

/-!
# A table with bounded cardinality

Amounts are added under keys. A key that is not in the table is entered while
the table has fewer than `cap` keys; afterwards its amounts go to one overflow
cell. No key ever leaves, so a key whose first amount overflowed never enters,
and every cell holds exactly the amounts of its keys.
-/
structure CappedMap (K V : Type*) where
  series : AList fun _ : K => V
  overflow : V

namespace CappedMap

variable {K V W : Type*} [DecidableEq K] {cap : ℕ}

def empty [Zero V] : CappedMap K V := ⟨∅, 0⟩

def values (m : CappedMap K V) : List V := m.series.entries.map Sigma.snd

theorem mem_values {m : CappedMap K V} {v : V} :
    v ∈ m.values ↔ ∃ key, m.series.lookup key = some v := by
  simp only [values, List.mem_map, Sigma.exists, exists_eq_right]
  exact exists_congr fun key => (List.mem_dlookup_iff m.series.nodupKeys).symm

theorem mem_series_iff {m : CappedMap K V} {key : K} :
    key ∈ m.series ↔ ∃ v, m.series.lookup key = some v := by
  rw [← AList.lookup_isSome, Option.isSome_iff_exists]

section Add

variable [Add V] [Zero V]

def add (cap : ℕ) (m : CappedMap K V) (op : K × V) : CappedMap K V :=
  match m.series.lookup op.1 with
  | some v => { m with series := m.series.insert op.1 (v + op.2) }
  | none =>
    if cap ≤ m.series.keys.length then { m with overflow := m.overflow + op.2 }
    else { m with series := m.series.insert op.1 (0 + op.2) }

def addAll (cap : ℕ) (m : CappedMap K V) (ops : List (K × V)) : CappedMap K V :=
  ops.foldl (add cap) m

/-- What one addition does: raise a cell, overflow, or enter the key. -/
theorem add_cases (cap : ℕ) (m : CappedMap K V) (op : K × V) :
    (∃ v, m.series.lookup op.1 = some v ∧
      m.add cap op = { m with series := m.series.insert op.1 (v + op.2) }) ∨
    (m.series.lookup op.1 = none ∧ cap ≤ m.series.keys.length ∧
      m.add cap op = { m with overflow := m.overflow + op.2 }) ∨
    (m.series.lookup op.1 = none ∧ m.series.keys.length < cap ∧
      m.add cap op = { m with series := m.series.insert op.1 (0 + op.2) }) := by
  unfold add
  cases hl : m.series.lookup op.1 with
  | some v => exact Or.inl ⟨v, rfl, rfl⟩
  | none =>
    by_cases hcap : cap ≤ m.series.keys.length
    · exact Or.inr (Or.inl ⟨rfl, hcap, by simp [hcap]⟩)
    · exact Or.inr (Or.inr ⟨rfl, Nat.not_le.mp hcap, by simp [hcap]⟩)

theorem mem_add (m : CappedMap K V) (op : K × V) {key : K} (h : key ∈ m.series) :
    key ∈ (m.add cap op).series := by
  rcases m.add_cases cap op with ⟨v, -, heq⟩ | ⟨-, -, heq⟩ | ⟨-, -, heq⟩ <;>
    simp [heq, AList.mem_insert, h]

theorem length_keys_add_le (m : CappedMap K V) (op : K × V)
    (h : m.series.keys.length ≤ cap) : (m.add cap op).series.keys.length ≤ cap := by
  rcases m.add_cases cap op with ⟨v, hl, heq⟩ | ⟨-, -, heq⟩ | ⟨-, hlt, heq⟩
  · have hmem : op.1 ∈ m.series.keys := AList.lookup_isSome.mp (by simp [hl])
    rw [heq]
    simp only [AList.keys_insert, List.length_cons, List.length_erase_of_mem hmem]
    have hpos := List.length_pos_of_mem hmem
    omega
  · rw [heq]
    exact h
  · rw [heq]
    have hle := List.length_erase_le (a := op.1) (l := m.series.keys)
    simp only [AList.keys_insert, List.length_cons]
    omega

theorem length_keys_le_add (m : CappedMap K V) (op : K × V) :
    m.series.keys.length ≤ (m.add cap op).series.keys.length := by
  have hsub : m.series.keys ⊆ (m.add cap op).series.keys := fun key hkey => m.mem_add op hkey
  exact (List.subperm_of_subset m.series.keys_nodup hsub).length_le

theorem length_keys_addAll_le (cap : ℕ) (m : CappedMap K V) (ops : List (K × V))
    (h : m.series.keys.length ≤ cap) : (m.addAll cap ops).series.keys.length ≤ cap := by
  induction ops generalizing m with
  | nil => exact h
  | cons op ops ih => exact ih _ (m.length_keys_add_le op h)

theorem mem_of_mem_addAll (m : CappedMap K V) (ops : List (K × V)) {key : K}
    (h : key ∈ (m.addAll cap ops).series) : key ∈ m.series ∨ ∃ op ∈ ops, op.1 = key := by
  induction ops generalizing m with
  | nil => exact Or.inl h
  | cons op ops ih =>
    rcases ih (m.add cap op) h with hmem | ⟨op', hop', hkey⟩
    · rcases m.add_cases cap op with ⟨v, -, heq⟩ | ⟨-, -, heq⟩ | ⟨-, -, heq⟩
      · rw [heq, AList.mem_insert] at hmem
        exact hmem.symm.imp_right fun hkey => ⟨op, List.mem_cons_self, hkey.symm⟩
      · rw [heq] at hmem
        exact Or.inl hmem
      · rw [heq, AList.mem_insert] at hmem
        exact hmem.symm.imp_right fun hkey => ⟨op, List.mem_cons_self, hkey.symm⟩
    · exact Or.inr ⟨op', List.mem_cons_of_mem _ hop', hkey⟩

theorem addAll_append (m : CappedMap K V) (ops ops' : List (K × V)) :
    m.addAll cap (ops ++ ops') = (m.addAll cap ops).addAll cap ops' :=
  List.foldl_append

end Add

section Map

omit [DecidableEq K] in
theorem nodupKeys_map (f : V → W) (s : AList fun _ : K => V) :
    (s.entries.map (.map id fun _ => f) : List (Sigma fun _ : K => W)).NodupKeys := by
  simpa [List.NodupKeys, List.keys, Function.comp_def, Sigma.map] using s.nodupKeys

def mapSeries (f : V → W) (s : AList fun _ : K => V) : AList fun _ : K => W :=
  ⟨s.entries.map (.map id fun _ => f), nodupKeys_map f s⟩

def map (f : V → W) (m : CappedMap K V) : CappedMap K W := ⟨mapSeries f m.series, f m.overflow⟩

variable (f : V → W)

omit [DecidableEq K] in
@[simp] theorem keys_mapSeries (s : AList fun _ : K => V) : (mapSeries f s).keys = s.keys := by
  simp [mapSeries, AList.keys, List.keys, Function.comp_def, Sigma.map]

omit [DecidableEq K] in
@[simp] theorem values_map (m : CappedMap K V) : (m.map f).values = m.values.map f := by
  simp [map, mapSeries, values, Function.comp_def, Sigma.map]

omit [DecidableEq K] in
@[simp] theorem overflow_map (m : CappedMap K V) : (m.map f).overflow = f m.overflow := rfl

@[simp] theorem lookup_mapSeries (s : AList fun _ : K => V) (key : K) :
    (mapSeries f s).lookup key = (s.lookup key).map f :=
  List.dlookup_map₂ key

omit [DecidableEq K] in
theorem mem_mapSeries {s : AList fun _ : K => V} {key : K} :
    key ∈ mapSeries f s ↔ key ∈ s := by
  rw [AList.mem_keys, AList.mem_keys, keys_mapSeries]

theorem mapSeries_insert (s : AList fun _ : K => V) (key : K) (v : V) :
    mapSeries f (s.insert key v) = (mapSeries f s).insert key (f v) := by
  have herase : ∀ l : List (Sigma fun _ : K => V),
      (l.kerase key).map (.map id fun _ => f) =
        ((l.map (.map id fun _ => f) : List (Sigma fun _ : K => W)).kerase key) := by
    intro l
    induction l with
    | nil => rfl
    | cons e l ih =>
      by_cases h : key = e.1 <;> simp [List.kerase_cons_eq, List.kerase_cons_ne, Sigma.map, h, ih]
  apply AList.ext
  simp [mapSeries, AList.entries_insert, herase, Sigma.map]

variable [Add V] [Zero V] [Add W] [Zero W]

theorem map_addAll (hadd : ∀ a b, f (a + b) = f a + f b) (hzero : f 0 = 0) (m : CappedMap K V)
    (ops : List (K × V)) :
    (m.map f).addAll cap (ops.map fun op => (op.1, f op.2)) = (m.addAll cap ops).map f := by
  have hstep : ∀ (m : CappedMap K V) (op : K × V),
      (m.map f).add cap (op.1, f op.2) = (m.add cap op).map f := by
    intro m op
    cases hl : m.series.lookup op.1 with
    | some v => simp [add, map, hl, mapSeries_insert, hadd]
    | none =>
      by_cases hcap : cap ≤ m.series.keys.length
      · simp [add, map, hl, hcap, hadd]
      · simp [add, map, hl, hcap, mapSeries_insert, hadd, hzero]
  induction ops generalizing m with
  | nil => rfl
  | cons op ops ih =>
    have hrest := ih (m.add cap op)
    rw [← hstep] at hrest
    exact hrest

end Map

section Sums

variable [AddCommMonoid V]

def sumOf (p : K → Prop) [DecidablePred p] (ops : List (K × V)) : V :=
  ((ops.filter fun op => p op.1).map Prod.snd).sum

def total (m : CappedMap K V) : V := m.values.sum + m.overflow

omit [DecidableEq K] in
theorem sumOf_append (p : K → Prop) [DecidablePred p] (ops ops' : List (K × V)) :
    sumOf p (ops ++ ops') = sumOf p ops + sumOf p ops' := by
  simp [sumOf]

omit [DecidableEq K] in
theorem sumOf_singleton (p : K → Prop) [DecidablePred p] (op : K × V) :
    sumOf p [op] = if p op.1 then op.2 else 0 := by
  by_cases h : p op.1 <;> simp [sumOf, h]

omit [DecidableEq K] in
theorem sumOf_congr {p q : K → Prop} [DecidablePred p] [DecidablePred q] {ops : List (K × V)}
    (h : ∀ op ∈ ops, p op.1 ↔ q op.1) : sumOf p ops = sumOf q ops := by
  have hfilter : ops.filter (fun op => p op.1) = ops.filter fun op => q op.1 :=
    List.filter_congr fun op hop => by simp [h op hop]
  rw [sumOf, sumOf, hfilter]

omit [DecidableEq K] in
theorem sumOf_eq_zero {p : K → Prop} [DecidablePred p] {ops : List (K × V)}
    (h : ∀ op ∈ ops, ¬ p op.1) : sumOf p ops = 0 := by
  have hfilter : ops.filter (fun op => p op.1) = [] :=
    List.filter_eq_nil_iff.mpr fun op hop => by simpa using h op hop
  simp [sumOf, hfilter]

theorem sum_insert_of_lookup (s : AList fun _ : K => V) {key : K} {v : V}
    (h : s.lookup key = some v) (delta : V) :
    ((s.insert key (v + delta)).entries.map Sigma.snd).sum =
      (s.entries.map Sigma.snd).sum + delta := by
  have hmem : key ∈ s.entries.keys := AList.lookup_isSome.mp (by simp [h])
  obtain ⟨w, front, back, -, hs, herase⟩ := List.exists_of_kerase hmem
  have hw : w = v := by
    have hin : (⟨key, w⟩ : Sigma fun _ : K => V) ∈ s.entries := by simp [hs]
    have hlook := (List.mem_dlookup_iff s.nodupKeys).mpr hin
    exact Option.some.inj (hlook.symm.trans h)
  subst hw
  rw [AList.entries_insert, herase, hs]
  simp only [List.map_cons, List.map_append, List.sum_cons, List.sum_append]
  abel

theorem total_add (m : CappedMap K V) (op : K × V) : (m.add cap op).total = m.total + op.2 := by
  rcases m.add_cases cap op with ⟨v, hl, heq⟩ | ⟨-, -, heq⟩ | ⟨hl, -, heq⟩
  · rw [heq, total, total, values, values, sum_insert_of_lookup m.series hl]
    abel
  · rw [heq, total, total, values, values, add_assoc]
  · have hnot : op.1 ∉ m.series := AList.lookup_eq_none.mp hl
    rw [heq, total, total, values, values, AList.entries_insert_of_notMem hnot]
    simp only [List.map_cons, List.sum_cons, zero_add]
    abel

theorem total_addAll (cap : ℕ) (m : CappedMap K V) (ops : List (K × V)) :
    (m.addAll cap ops).total = m.total + (ops.map Prod.snd).sum := by
  induction ops generalizing m with
  | nil => simp [addAll]
  | cons op ops ih =>
    have h := ih (m.add cap op)
    rw [total_add, add_assoc] at h
    simpa [addAll] using h

/-- Every cell of `m` holds the amounts of its keys among `ops`, and a key seen
outside the table finds it full. -/
structure Tracks (cap : ℕ) (ops : List (K × V)) (m : CappedMap K V) : Prop where
  seen : ∀ op ∈ ops, op.1 ∈ m.series ∨ cap ≤ m.series.keys.length
  series : ∀ key v, m.series.lookup key = some v → v = sumOf (· = key) ops
  overflow : m.overflow = sumOf (· ∉ m.series) ops

theorem tracks_empty : Tracks cap [] (empty : CappedMap K V) :=
  ⟨by simp, by simp [empty], rfl⟩

section Step

variable {ops : List (K × V)} {m : CappedMap K V} {op : K × V}

theorem Tracks.seen_add (h : Tracks cap ops m) (op : K × V) :
    ∀ op' ∈ ops ++ [op],
      op'.1 ∈ (m.add cap op).series ∨ cap ≤ (m.add cap op).series.keys.length := by
  intro op' hop'
  rcases List.mem_append.mp hop' with hold | hnew
  · exact (h.seen op' hold).imp (m.mem_add op) fun hcap => hcap.trans (m.length_keys_le_add op)
  · rw [List.mem_singleton.mp hnew]
    rcases m.add_cases cap op with ⟨v, -, heq⟩ | ⟨-, hcap, heq⟩ | ⟨-, -, heq⟩
    · exact Or.inl (by simp [heq])
    · exact Or.inr (by simpa [heq] using hcap)
    · exact Or.inl (by simp [heq])

theorem Tracks.series_insert (h : Tracks cap ops m) {v : V}
    (hself : v = sumOf (· = op.1) ops + op.2) (key : K) (w : V)
    (hw : (m.series.insert op.1 v).lookup key = some w) :
    w = sumOf (· = key) (ops ++ [op]) := by
  rw [sumOf_append, sumOf_singleton]
  by_cases hk : op.1 = key
  · subst hk
    rw [AList.lookup_insert, Option.some.injEq] at hw
    simp [← hw, hself]
  · rw [AList.lookup_insert_ne (Ne.symm hk)] at hw
    simp [hk, h.series key w hw]

theorem Tracks.overflow_insert (h : Tracks cap ops m) {v : V}
    (hop : op.1 ∈ m.series ∨ ∀ op' ∈ ops, op'.1 ≠ op.1) :
    m.overflow = sumOf (· ∉ m.series.insert op.1 v) (ops ++ [op]) := by
  have hsame : sumOf (· ∉ m.series.insert op.1 v) ops = sumOf (· ∉ m.series) ops := by
    refine sumOf_congr fun op' hop' => ?_
    simp only [AList.mem_insert, not_or, and_iff_right_iff_imp]
    intro hnot heq
    rcases hop with hmem | hnew
    · exact hnot (heq ▸ hmem)
    · exact hnew op' hop' heq
  rw [sumOf_append, hsame, sumOf_singleton, if_neg (by simp), add_zero]
  exact h.overflow

theorem Tracks.add (h : Tracks cap ops m) (op : K × V) :
    Tracks cap (ops ++ [op]) (m.add cap op) := by
  have hseen := h.seen_add op
  rcases m.add_cases cap op with ⟨v, hl, heq⟩ | ⟨hl, hcap, heq⟩ | ⟨hl, hcap, heq⟩ <;>
    rw [heq] at hseen ⊢
  · have hmem : op.1 ∈ m.series := AList.lookup_isSome.mp (by simp [hl])
    exact ⟨hseen, h.series_insert (by rw [h.series _ v hl]), h.overflow_insert (Or.inl hmem)⟩
  · have hnot : op.1 ∉ m.series := AList.lookup_eq_none.mp hl
    refine ⟨hseen, ?_, by simp [h.overflow, sumOf_append, sumOf_singleton, hnot]⟩
    intro key w hw
    have hk : op.1 ≠ key := by
      rintro rfl
      simp [hl] at hw
    simp [sumOf_append, sumOf_singleton, hk, h.series key w hw]
  · -- The key enters: seen before, it would have found the table full.
    have hnot : op.1 ∉ m.series := AList.lookup_eq_none.mp hl
    have hnew : ∀ op' ∈ ops, op'.1 ≠ op.1 := by
      intro op' hop' hk
      rcases h.seen op' hop' with hmem | hfull
      · exact hnot (hk ▸ hmem)
      · omega
    have hzero : sumOf (· = op.1) ops = 0 := sumOf_eq_zero hnew
    exact ⟨hseen, h.series_insert (by rw [hzero]), h.overflow_insert (Or.inr hnew)⟩

theorem Tracks.addAll (h : Tracks cap ops m) (more : List (K × V)) :
    Tracks cap (ops ++ more) (m.addAll cap more) := by
  induction more generalizing ops m with
  | nil => simpa [CappedMap.addAll] using h
  | cons op more ih => simpa [CappedMap.addAll] using ih (h.add op)

theorem tracks_addAll (ops : List (K × V)) :
    Tracks cap ops ((empty : CappedMap K V).addAll cap ops) := by
  simpa using tracks_empty.addAll ops

theorem mem_addAll_of_room (ops : List (K × V)) (keys : List K)
    (hkeys : ∀ op ∈ ops, op.1 ∈ keys) (hroom : keys.length ≤ cap) {key : K}
    (hkey : ∃ op ∈ ops, op.1 = key) :
    key ∈ ((empty : CappedMap K V).addAll cap ops).series := by
  obtain ⟨op, hop, rfl⟩ := hkey
  rcases (tracks_addAll ops).seen op hop with hmem | hfull
  · exact hmem
  · by_contra hnot
    have hnodup := List.nodup_cons.mpr ⟨hnot, AList.keys_nodup _⟩
    have hsub : op.1 :: ((empty : CappedMap K V).addAll cap ops).series.keys ⊆ keys := by
      intro key hkey
      rcases List.mem_cons.mp hkey with rfl | hold
      · exact hkeys op hop
      · rcases mem_of_mem_addAll _ _ hold with hempty | ⟨op', hop', rfl⟩
        · simp [empty] at hempty
        · exact hkeys op' hop'
    have hle := (List.subperm_of_subset hnodup hsub).length_le
    rw [List.length_cons] at hle
    omega

theorem notMem_addAll (hnot : op.1 ∉ m.series) (hcap : cap ≤ m.series.keys.length)
    (more : List (K × V)) : op.1 ∉ (m.addAll cap more).series := by
  induction more generalizing m with
  | nil => exact hnot
  | cons op' more ih =>
    refine ih ?_ (hcap.trans (m.length_keys_le_add op'))
    rcases m.add_cases cap op' with ⟨v, hl, heq⟩ | ⟨-, -, heq⟩ | ⟨-, hlt, -⟩
    · have hmem : op'.1 ∈ m.series := AList.lookup_isSome.mp (by simp [hl])
      rw [heq]
      simp only [AList.mem_insert, not_or]
      exact ⟨fun hk => hnot (hk ▸ hmem), hnot⟩
    · rwa [heq]
    · omega

/-- A cell holds the amounts added since its key entered; before, there were none. -/
theorem lookup_addAll_append (ops more : List (K × V)) {key : K} {v : V}
    (hnot : key ∉ ((empty : CappedMap K V).addAll cap ops).series)
    (hl : ((empty : CappedMap K V).addAll cap (ops ++ more)).series.lookup key = some v) :
    v = sumOf (· = key) more := by
  have hnone : ∀ op ∈ ops, op.1 ≠ key := by
    rintro op hop rfl
    rcases (tracks_addAll ops).seen op hop with hmem | hfull
    · exact hnot hmem
    · have hout := notMem_addAll hnot hfull more
      rw [← addAll_append, ← AList.lookup_eq_none, hl] at hout
      cases hout
  have hzero : sumOf (· = key) ops = (0 : V) := sumOf_eq_zero hnone
  rw [(tracks_addAll (ops ++ more)).series key v hl, sumOf_append, hzero, zero_add]

end Step
end Sums

end CappedMap
