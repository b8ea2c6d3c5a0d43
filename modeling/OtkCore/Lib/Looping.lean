import Mathlib.Data.Option.Basic
import Mathlib.Tactic.Common

/-!
# Loops

A loop given by what one more round makes of its state, `none` if the loop is
left. It is left if every round lowers a measure, and it is not if some set of
states is never left.
-/
namespace Looping

variable {σ : Type} {again : σ → Option σ}

/-- The state after `k` rounds, unless the loop is left before. -/
def rounds (again : σ → Option σ) : ℕ → σ → Option σ
  | 0, s => some s
  | k + 1, s => (again s).bind (rounds again k)

def Exits (again : σ → Option σ) (s : σ) : Prop := ∃ k, rounds again k s = none

theorem rounds_succ (k : ℕ) (s : σ) :
    rounds again (k + 1) s = (rounds again k s).bind again := by
  induction k generalizing s with
  | zero => simp [rounds]
  | succ k ih =>
    rw [rounds]
    cases h : again s with
    | none => simp [rounds, h]
    | some t =>
      rw [Option.bind_some, ih]
      simp [rounds, h]

theorem rounds_none_of_le {j k : ℕ} (h : j ≤ k) {s : σ} (hj : rounds again j s = none) :
    rounds again k s = none := by
  induction h with
  | refl => exact hj
  | step _ ih => rw [rounds_succ, ih, Option.bind_none]

theorem Exits.of_again {s : σ} (h : ∀ t, again s = some t → Exits again t) : Exits again s := by
  cases hs : again s with
  | none => exact ⟨1, by simp [rounds, hs]⟩
  | some t =>
    obtain ⟨k, hk⟩ := h t hs
    exact ⟨k + 1, by rw [rounds, hs, Option.bind_some, hk]⟩

/-- A loop that lowers a measure in every round, or gets to where it ends, is left. -/
theorem Exits.of_measure {I : σ → Prop} {m : σ → ℕ}
    (h : ∀ s t, I s → again s = some t → Exits again t ∨ I t ∧ m t < m s) {s : σ} (hs : I s) :
    Exits again s := by
  induction hm : m s using Nat.strongRecOn generalizing s with
  | ind n ih =>
    refine .of_again fun t ht => ?_
    rcases h s t hs ht with hexits | ⟨hI, hlt⟩
    · exact hexits
    · exact ih (m t) (hm ▸ hlt) hI rfl

/-- A loop is not left from a set of states that every round leads back to. -/
theorem not_exits_of_invariant {I : σ → Prop} (h : ∀ s, I s → ∃ t, again s = some t ∧ I t) {s : σ}
    (hs : I s) : ¬ Exits again s := by
  rintro ⟨k, hk⟩
  induction k generalizing s with
  | zero => cases hk
  | succ k ih =>
    obtain ⟨t, ht, hI⟩ := h s hs
    rw [rounds, ht, Option.bind_some] at hk
    exact ih hI hk

end Looping
