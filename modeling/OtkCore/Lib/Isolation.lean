import Mathlib.Data.List.Count
import Mathlib.Logic.Function.Basic
import Mathlib.Logic.Function.Iterate

/-!
# Tasks that do not disturb each other

Tasks with states of their own take turns on a shared state. What a task sees of the
shared state may be untouched by the turns of the others; then the task does in any
schedule what it does alone.
-/
namespace Isolation

variable {ι σ τ : Type*}

/-- Turns of task `i` alone. -/
def alone (next : ι → σ → τ → σ × τ) (i : ι) (k : ℕ) (x : σ × τ) : σ × τ :=
  (fun x => next i x.1 x.2)^[k] x

theorem alone_succ (next : ι → σ → τ → σ × τ) (i : ι) (k : ℕ) (x : σ × τ) :
    alone next i (k + 1) x = alone next i k (next i x.1 x.2) :=
  Function.iterate_succ_apply _ _ _

theorem alone_keeps (next : ι → σ → τ → σ × τ) (i : ι) {P : σ × τ → Prop}
    (hnext : ∀ x, P x → P (next i x.1 x.2)) (k : ℕ) {x : σ × τ} (h : P x) :
    P (alone next i k x) := by
  induction k generalizing x with
  | zero => exact h
  | succ k ih =>
    rw [alone_succ]
    exact ih (hnext x h)

variable [DecidableEq ι]

/-- The shared state and the states of the tasks, after a turn of task `i`. -/
def step (next : ι → σ → τ → σ × τ) (sys : σ × (ι → τ)) (i : ι) : σ × (ι → τ) :=
  ((next i sys.1 (sys.2 i)).1, Function.update sys.2 i (next i sys.1 (sys.2 i)).2)

def run (next : ι → σ → τ → σ × τ) (sys : σ × (ι → τ)) (schedule : List ι) : σ × (ι → τ) :=
  schedule.foldl (step next) sys

theorem step_self (next : ι → σ → τ → σ × τ) (sys : σ × (ι → τ)) (i : ι) :
    (step next sys i).2 i = (next i sys.1 (sys.2 i)).2 := Function.update_self _ _ _

theorem step_other (next : ι → σ → τ → σ × τ) (sys : σ × (ι → τ)) {i j : ι} (h : i ≠ j) :
    (step next sys j).2 i = sys.2 i := Function.update_of_ne h _ _

/-- A relation between two sights of a task, kept by its own turns and by those of the
others on one side: after any schedule the task has come as far as it does alone. -/
theorem run_alone (next : ι → σ → τ → σ × τ) (i : ι) {R : σ → τ → σ → τ → Prop}
    (hown : ∀ s t s' t', R s t s' t' →
      R (next i s t).1 (next i s t).2 (next i s' t').1 (next i s' t').2)
    (hother : ∀ j ≠ i, ∀ s u t s' t', R s t s' t' → R (next j s u).1 t s' t')
    (schedule : List ι) (sys : σ × (ι → τ)) (x : σ × τ) (h : R sys.1 (sys.2 i) x.1 x.2) :
    R (run next sys schedule).1 ((run next sys schedule).2 i)
      (alone next i (schedule.count i) x).1 (alone next i (schedule.count i) x).2 := by
  induction schedule generalizing sys x with
  | nil => exact h
  | cons j schedule ih =>
    rw [run, List.foldl_cons]
    by_cases hj : j = i
    · subst hj
      rw [List.count_cons_self, alone_succ]
      apply ih
      rw [step_self]
      exact hown _ _ _ _ h
    · rw [List.count_cons_of_ne hj]
      apply ih
      rw [step_other next sys (Ne.symm hj)]
      exact hother j hj _ _ _ _ _ h

end Isolation
