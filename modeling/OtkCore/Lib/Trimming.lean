import Mathlib.Data.List.DropRight
import Mathlib.Tactic.Common

/-!
# Trimming and splitting

A text in which one kind of symbol separates the others. Trimming it, splitting
it at the first separator and trimming what follows reads off two fields; the
texts from which two given fields are read are exactly those in which separators
stand before, between and behind the fields. The symbols are of any type, so the
same facts hold of a text and of its bytes.
-/
namespace Trimming

variable {α β : Type} {p : α → Bool}

def trimMatches (p : α → Bool) (s : List α) : List α := (s.dropWhile p).rdropWhile p

/-- What stands before and behind the first separator. -/
def splitOnce (p : α → Bool) : List α → Option (List α × List α)
  | [] => none
  | c :: s => if p c then some ([], s) else (splitOnce p s).map fun (a, b) => (c :: a, b)

structure Trimmed (p : α → Bool) (s : List α) : Prop where
  first : ∀ c ∈ s.head?, p c = false
  last : ∀ c ∈ s.getLast?, p c = false

/-- The text reads `head tail`: separators may stand before and behind, at least
one stands between, and the tail is nonempty and has none at its ends. -/
structure Fields (p : α → Bool) (head tail s : List α) : Prop where
  nonempty : tail ≠ []
  trimmed : Trimmed p tail
  spaced : ∃ lead gap trail, s = lead ++ head ++ gap ++ tail ++ trail ∧ gap ≠ [] ∧
    (∀ c ∈ lead, p c) ∧ (∀ c ∈ gap, p c) ∧ ∀ c ∈ trail, p c

theorem dropWhile_of_head {s : List α} (h : ∀ c ∈ s.head?, p c = false) : s.dropWhile p = s := by
  cases s with
  | nil => rfl
  | cons c s => simp [h c (by simp)]

theorem rdropWhile_of_last {s : List α} (h : ∀ c ∈ s.getLast?, p c = false) :
    s.rdropWhile p = s := by
  rw [List.rdropWhile, dropWhile_of_head (by simpa using h), List.reverse_reverse]

theorem rdropWhile_append_of_all {s trail : List α} (h : ∀ c ∈ trail, p c) :
    (s ++ trail).rdropWhile p = s.rdropWhile p := by
  rw [List.rdropWhile, List.reverse_append, List.dropWhile_append_of_pos (by simpa using h),
    List.rdropWhile]

theorem trimmed_trimMatches (s : List α) : Trimmed p (trimMatches p s) := by
  constructor
  · intro c hc
    -- the first symbol left is the first one of what the left trim left
    have hhead : c ∈ (s.dropWhile p).head? := by
      obtain ⟨trail, htrail⟩ := List.rdropWhile_prefix p (l := s.dropWhile p)
      rw [← htrail, List.head?_append]
      simp only [trimMatches] at hc
      simp [Option.mem_def.mp hc]
    have hnot := List.head?_dropWhile_not p s
    rw [Option.mem_def.mp hhead] at hnot
    simpa using hnot
  · intro c hc
    have hnot := List.head?_dropWhile_not p (s.dropWhile p).reverse
    rw [trimMatches, List.rdropWhile, List.getLast?_reverse] at hc
    rw [Option.mem_def.mp hc] at hnot
    simpa using hnot

/-- Trimming takes off separators only, and all of those at the ends. -/
theorem trimMatches_eq_iff {s t : List α} : trimMatches p s = t ↔
    Trimmed p t ∧ ∃ lead trail, s = lead ++ t ++ trail ∧ (∀ c ∈ lead, p c) ∧ ∀ c ∈ trail, p c := by
  constructor
  · rintro rfl
    refine ⟨trimmed_trimMatches s, s.takeWhile p, (s.dropWhile p).rtakeWhile p, ?_, ?_, ?_⟩
    · rw [List.append_assoc, trimMatches, List.rdropWhile_append_rtakeWhile,
        List.takeWhile_append_dropWhile]
    · exact fun c => List.mem_takeWhile_imp
    · exact fun c => List.mem_rtakeWhile_imp
  · rintro ⟨ht, lead, trail, rfl, hlead, htrail⟩
    rw [trimMatches, List.append_assoc, List.dropWhile_append_of_pos hlead]
    cases t with
    | nil =>
      have hnil : trail.dropWhile p = [] := List.dropWhile_eq_nil_iff.mpr htrail
      rw [List.nil_append, hnil, List.rdropWhile_nil]
    | cons c t =>
      rw [dropWhile_of_head (by simpa using ht.first), rdropWhile_append_of_all htrail,
        rdropWhile_of_last ht.last]

theorem splitOnce_eq_some_iff {s a b : List α} : splitOnce p s = some (a, b) ↔
    (∀ c ∈ a, p c = false) ∧ ∃ c, p c ∧ s = a ++ c :: b := by
  induction s generalizing a with
  | nil => simp [splitOnce]
  | cons d s ih =>
    by_cases hd : p d
    · cases a with
      | nil => simp [splitOnce, hd]
      | cons e a =>
        simp only [splitOnce, hd, if_true, Option.some.injEq, Prod.mk.injEq, List.nil_eq,
          reduceCtorEq, false_and, List.cons_append, List.cons.injEq, false_iff]
        rintro ⟨hall, c, -, rfl, -⟩
        exact absurd hd (by simp [hall d (by simp)])
    · simp only [splitOnce, hd, Bool.false_eq_true, if_false, Option.map_eq_some_iff,
        Prod.mk.injEq, Prod.exists]
      cases a with
      | nil =>
        simp only [reduceCtorEq, false_and, and_false, exists_false, List.nil_append,
          List.cons.injEq, false_iff]
        rintro ⟨-, c, hc, rfl, -⟩
        exact hd hc
      | cons e a =>
        constructor
        · rintro ⟨a', b', hs, ha, rfl⟩
          obtain ⟨rfl, rfl⟩ := List.cons.inj ha
          obtain ⟨hall, c, hc, rfl⟩ := ih.mp hs
          exact ⟨by simpa [hd] using hall, c, hc, rfl⟩
        · rintro ⟨hall, c, hc, hs⟩
          obtain ⟨rfl, rfl⟩ := List.cons.inj hs
          exact ⟨a, b, ih.mpr ⟨fun x hx => hall x (by simp [hx]), c, hc, rfl⟩, rfl, rfl⟩

/-- Trimming, splitting and trimming again reads the two fields of a text. -/
theorem fields_iff {head tail s : List α} (hne : head ≠ []) (hhead : ∀ c ∈ head, p c = false) :
    Fields p head tail s ↔
      ∃ rest, splitOnce p (trimMatches p s) = some (head, rest) ∧ trimMatches p rest = tail ∧
        tail ≠ [] := by
  constructor
  · rintro ⟨htail, htrimmed, lead, gap, trail, rfl, hgap, hlead, hgaps, htrail⟩
    obtain ⟨c, gap, rfl⟩ := List.exists_cons_of_ne_nil hgap
    refine ⟨gap ++ tail, ?_, ?_, htail⟩
    · have htrim : trimMatches p (lead ++ head ++ c :: gap ++ tail ++ trail) =
          head ++ c :: (gap ++ tail) := by
        refine trimMatches_eq_iff.mpr ⟨⟨?_, ?_⟩, lead, trail, by simp, hlead, htrail⟩
        · intro d hd
          obtain ⟨e, head, rfl⟩ := List.exists_cons_of_ne_nil hne
          exact hhead d (by simp_all)
        · intro d hd
          obtain ⟨init, e, rfl⟩ := (List.eq_nil_or_concat' tail).resolve_left htail
          have hlast : head ++ c :: (gap ++ (init ++ [e])) = head ++ c :: (gap ++ init) ++ [e] := by
            simp
          rw [hlast, List.getLast?_concat] at hd
          exact htrimmed.last d (by simpa using hd)
      rw [htrim, splitOnce_eq_some_iff]
      exact ⟨hhead, c, hgaps c (by simp), rfl⟩
    · exact trimMatches_eq_iff.mpr
        ⟨htrimmed, gap, [], by simp, fun d hd => hgaps d (by simp [hd]), by simp⟩
  · rintro ⟨rest, hsplit, hrest, htail⟩
    obtain ⟨-, lead, trail, hs, hlead, htrail⟩ := trimMatches_eq_iff.mp (rfl : trimMatches p s = _)
    obtain ⟨-, c, hc, htrim⟩ := splitOnce_eq_some_iff.mp hsplit
    obtain ⟨htrimmed, gap, trail', rfl, hgap, htrail'⟩ := trimMatches_eq_iff.mp hrest
    refine ⟨htail, htrimmed, lead, c :: gap, trail' ++ trail, ?_, by simp, hlead, ?_, ?_⟩
    · rw [hs, htrim]
      simp
    · simpa [hc] using hgap
    · intro d hd
      rcases List.mem_append.mp hd with hd | hd
      · exact htrail' d hd
      · exact htrail d hd

section Map

variable {q : β → Bool} {f : α → β} {s : List α}

theorem forall_map_iff (h : ∀ c ∈ s, q (f c) = p c) : (∀ d ∈ s.map f, q d) ↔ ∀ c ∈ s, p c := by
  rw [List.forall_mem_map]
  exact forall₂_congr fun c hc => by rw [h c hc]

theorem Trimmed.map_iff (h : ∀ c ∈ s, q (f c) = p c) : Trimmed q (s.map f) ↔ Trimmed p s := by
  constructor
  · rintro ⟨hfirst, hlast⟩
    refine ⟨fun c hc => ?_, fun c hc => ?_⟩
    · rw [← h c (List.mem_of_mem_head? hc)]
      exact hfirst (f c) (by simp [Option.mem_def.mp hc])
    · rw [← h c (List.mem_of_mem_getLast? hc)]
      exact hlast (f c) (by simp [Option.mem_def.mp hc])
  · rintro ⟨hfirst, hlast⟩
    refine ⟨fun d hd => ?_, fun d hd => ?_⟩
    · obtain ⟨c, hc, rfl⟩ := Option.map_eq_some_iff.mp ((List.head?_map ..).symm.trans hd)
      rw [h c (List.mem_of_mem_head? hc), hfirst c hc]
    · obtain ⟨c, hc, rfl⟩ := Option.map_eq_some_iff.mp ((List.getLast?_map ..).symm.trans hd)
      rw [h c (List.mem_of_mem_getLast? hc), hlast c hc]

/-- The fields of an encoded text are the encoded fields of the text. -/
theorem fields_map_iff {head tail : List β} (h : ∀ c ∈ s, q (f c) = p c) :
    Fields q head tail (s.map f) ↔
      ∃ head' tail', head = head'.map f ∧ tail = tail'.map f ∧ Fields p head' tail' s := by
  constructor
  · rintro ⟨htail, htrimmed, lead, gap, trail, hs, hgap, hlead, hgaps, htrail⟩
    obtain ⟨s4, trail', rfl, hs4, rfl⟩ := List.map_eq_append_iff.mp hs
    obtain ⟨s3, tail', rfl, hs3, rfl⟩ := List.map_eq_append_iff.mp hs4
    obtain ⟨s2, gap', rfl, hs2, rfl⟩ := List.map_eq_append_iff.mp hs3
    obtain ⟨lead', head', rfl, rfl, rfl⟩ := List.map_eq_append_iff.mp hs2
    refine ⟨head', tail', rfl, rfl, by simpa using htail,
      (Trimmed.map_iff fun c hc => h c (by simp [hc])).mp htrimmed,
      lead', gap', trail', rfl, by simpa using hgap, ?_, ?_, ?_⟩
    · exact (forall_map_iff fun c hc => h c (by simp [hc])).mp hlead
    · exact (forall_map_iff fun c hc => h c (by simp [hc])).mp hgaps
    · exact (forall_map_iff fun c hc => h c (by simp [hc])).mp htrail
  · rintro ⟨head', tail', rfl, rfl, htail, htrimmed, lead, gap, trail, rfl, hgap, hlead, hgaps,
      htrail⟩
    refine ⟨by simpa using htail, (Trimmed.map_iff fun c hc => h c (by simp [hc])).mpr htrimmed,
      lead.map f, gap.map f, trail.map f, by simp, by simpa using hgap, ?_, ?_, ?_⟩
    · exact (forall_map_iff fun c hc => h c (by simp [hc])).mpr hlead
    · exact (forall_map_iff fun c hc => h c (by simp [hc])).mpr hgaps
    · exact (forall_map_iff fun c hc => h c (by simp [hc])).mpr htrail

end Map

end Trimming
