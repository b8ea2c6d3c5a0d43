import Mathlib.Data.List.Flatten
import Mathlib.Data.List.Chain

/-!
# Greedy segments

A list is cut before each element that is too far from the first element of
the current segment. Unlike a split between neighbours, the anchor of a segment
does not move, so the cuts depend on the whole list before them.
-/
namespace Segments

variable {α : Type} (far : α → α → Bool)

/-- The segments of `xs` behind the open segment `group`, which began with
`first`. -/
def segmentsFrom (first : α) (group : List α) : List α → List (List α)
  | [] => [group]
  | x :: xs =>
    if far first x then group :: segmentsFrom x [x] xs else segmentsFrom first (group ++ [x]) xs

def segments : List α → List (List α)
  | [] => []
  | x :: xs => segmentsFrom far x [x] xs

theorem flatten_segmentsFrom (first : α) (group xs : List α) :
    (segmentsFrom far first group xs).flatten = group ++ xs := by
  induction xs generalizing first group with
  | nil => simp [segmentsFrom]
  | cons x xs ih =>
    rw [segmentsFrom]
    split_ifs
    · simp [ih]
    · simp [ih]

theorem flatten_segments (xs : List α) : (segments far xs).flatten = xs := by
  cases xs with
  | nil => rfl
  | cons x xs => simpa [segments] using flatten_segmentsFrom far x [x] xs

/-- A segment: it begins with its anchor and has nothing far from it. -/
def Near (first : α) (group : List α) : Prop :=
  group.head? = some first ∧ ∀ y ∈ group.tail, far first y = false

variable {far}

theorem near_singleton (x : α) : Near far x [x] := ⟨rfl, by simp⟩

theorem Near.concat {first : α} {group : List α} (h : Near far first group) {x : α}
    (hx : far first x = false) : Near far first (group ++ [x]) := by
  obtain ⟨hhead, htail⟩ := h
  cases group with
  | nil => simp at hhead
  | cons y ys =>
    refine ⟨hhead, fun z hz => ?_⟩
    rcases List.mem_append.mp hz with hz | hz
    · exact htail z hz
    · obtain rfl := List.mem_singleton.mp hz
      exact hx

variable (far)

theorem near_segmentsFrom {first : α} {group : List α} (h : Near far first group) (xs : List α) :
    ∀ g ∈ segmentsFrom far first group xs, ∃ x, Near far x g := by
  induction xs generalizing first group with
  | nil => simpa [segmentsFrom] using ⟨first, h⟩
  | cons x xs ih =>
    rw [segmentsFrom]
    split_ifs with hfar
    · intro g hg
      rcases List.mem_cons.mp hg with rfl | hg
      · exact ⟨first, h⟩
      · exact ih (near_singleton x) g hg
    · exact ih (h.concat (Bool.not_eq_true _ ▸ hfar))

/-- Every segment has an anchor, and nothing in it is far from that. -/
theorem near_segments (xs : List α) : ∀ g ∈ segments far xs, ∃ x, Near far x g := by
  cases xs with
  | nil => simp [segments]
  | cons x xs => exact near_segmentsFrom far (near_singleton x) xs

/-- The anchor of the second segment is far from the anchor of the first. -/
def Apart (g g' : List α) : Prop :=
  ∃ x x', g.head? = some x ∧ g'.head? = some x' ∧ far x x' = true

theorem isChain_segmentsFrom {first : α} {group : List α} (h : group.head? = some first)
    (xs : List α) :
    (segmentsFrom far first group xs).IsChain (Apart far) ∧
      ∀ g, (segmentsFrom far first group xs).head? = some g → g.head? = some first := by
  induction xs generalizing first group with
  | nil => simp [segmentsFrom, h]
  | cons x xs ih =>
    rw [segmentsFrom]
    split_ifs with hfar
    · obtain ⟨hchain, hhead⟩ := ih (show [x].head? = some x from rfl)
      refine ⟨List.isChain_cons.mpr ⟨fun g hg => ⟨first, x, h, hhead g hg, hfar⟩, hchain⟩, ?_⟩
      rintro g hg
      obtain rfl := Option.some.inj hg
      exact h
    · refine ih ?_
      cases group with
      | nil => simp at h
      | cons y ys => exact h

/-- Each segment begins far from the beginning of the one before it. -/
theorem isChain_segments (xs : List α) : (segments far xs).IsChain (Apart far) := by
  cases xs with
  | nil => exact List.isChain_nil
  | cons x xs => exact (isChain_segmentsFrom far (show [x].head? = some x from rfl) xs).1

/-- One more element joins the last segment or begins another one. -/
theorem segmentsFrom_concat {first : α} {group : List α} (h : group.head? = some first)
    (xs : List α) (z : α) :
    ∃ gs g x, segmentsFrom far first group xs = gs ++ [g] ∧ g.head? = some x ∧
      segmentsFrom far first group (xs ++ [z]) =
        gs ++ if far x z then [g, [z]] else [g ++ [z]] := by
  induction xs generalizing first group with
  | nil =>
    refine ⟨[], group, first, rfl, h, ?_⟩
    simp [segmentsFrom]
  | cons x xs ih =>
    rw [List.cons_append, segmentsFrom, segmentsFrom]
    split_ifs with hfar
    · obtain ⟨gs, g, y, hsplit, hy, hmore⟩ := ih (show [x].head? = some x from rfl)
      exact ⟨group :: gs, g, y, by simp [hsplit], hy, by simp [hmore]⟩
    · have hhead : (group ++ [x]).head? = some first := by
        cases group with
        | nil => simp at h
        | cons y ys => exact h
      exact ih hhead

theorem segments_concat {xs : List α} (h : xs ≠ []) (z : α) :
    ∃ gs g x, segments far xs = gs ++ [g] ∧ g.head? = some x ∧
      segments far (xs ++ [z]) = gs ++ if far x z then [g, [z]] else [g ++ [z]] := by
  cases xs with
  | nil => exact absurd rfl h
  | cons y ys => exact segmentsFrom_concat far (show [y].head? = some y from rfl) ys z

end Segments
