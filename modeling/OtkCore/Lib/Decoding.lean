import Mathlib.Data.List.Basic
import Mathlib.Tactic.Common

/-!
# Incremental decoders

A decoder is pushed one chunk after another and answers with the items it
completed. It is incremental on the states of an invariant when pushing two
chunks is the same as pushing their concatenation; how the input is cut is then
invisible in the items and in the final state.
-/
namespace Decoding

variable {σ α β : Type}

/-- Push the chunks in turn and collect the items. -/
def feed (push : σ → List α → List β × σ) : σ → List (List α) → List β × σ
  | s, [] => ([], s)
  | s, chunk :: chunks =>
    let (items, s) := push s chunk
    let (more, s) := feed push s chunks
    (items ++ more, s)

def batches (push : σ → List α → List β × σ) : σ → List (List α) → List (List β)
  | _, [] => []
  | s, chunk :: chunks => (push s chunk).1 :: batches push (push s chunk).2 chunks

variable (push : σ → List α → List β × σ)

@[simp] theorem feed_nil (s : σ) : feed push s [] = ([], s) := rfl

theorem feed_cons (s : σ) (chunk : List α) (chunks : List (List α)) :
    feed push s (chunk :: chunks) =
      ((push s chunk).1 ++ (feed push (push s chunk).2 chunks).1,
        (feed push (push s chunk).2 chunks).2) := rfl

theorem batches_flatten (s : σ) (chunks : List (List α)) :
    (batches push s chunks).flatten = (feed push s chunks).1 := by
  induction chunks generalizing s with
  | nil => rfl
  | cons chunk chunks ih => simp [batches, feed_cons, ih]

theorem feed_append (s : σ) (chunks chunks' : List (List α)) :
    feed push s (chunks ++ chunks') =
      ((feed push s chunks).1 ++ (feed push (feed push s chunks).2 chunks').1,
        (feed push (feed push s chunks).2 chunks').2) := by
  induction chunks generalizing s with
  | nil => simp
  | cons chunk chunks ih => simp [feed_cons, ih]

theorem batches_append (s : σ) (chunks chunks' : List (List α)) :
    batches push s (chunks ++ chunks') =
      batches push s chunks ++ batches push (feed push s chunks).2 chunks' := by
  induction chunks generalizing s with
  | nil => rfl
  | cons chunk chunks ih => simp [batches, feed_cons, ih]

/-- Pushing two chunks is pushing their concatenation, on every state of `Inv`;
pushing nothing changes nothing. -/
structure Incremental (Inv : σ → Prop) : Prop where
  keeps : ∀ s bytes, Inv s → Inv (push s bytes).2
  nil : ∀ s, Inv s → push s [] = ([], s)
  append : ∀ s bytes bytes', Inv s → push s (bytes ++ bytes') =
    ((push s bytes).1 ++ (push (push s bytes).2 bytes').1, (push (push s bytes).2 bytes').2)

namespace Incremental

variable {push} {Inv : σ → Prop} (h : Incremental push Inv)
include h

/-- The items and the final state do not depend on the cutting. -/
theorem feed_eq {s : σ} (hs : Inv s) (chunks : List (List α)) :
    feed push s chunks = push s chunks.flatten := by
  induction chunks generalizing s with
  | nil => simp [h.nil s hs]
  | cons chunk chunks ih =>
    rw [feed_cons, ih (h.keeps s chunk hs), List.flatten_cons, h.append s chunk _ hs]

theorem keeps_feed {s : σ} (hs : Inv s) (chunks : List (List α)) :
    Inv (feed push s chunks).2 := by
  rw [h.feed_eq hs]
  exact h.keeps s _ hs

end Incremental

def passes (step : σ → α → List β × σ) : σ → List α → List β × σ
  | s, [] => ([], s)
  | s, a :: as =>
    let (items, s) := step s a
    let (more, s) := passes step s as
    (items ++ more, s)

variable (step : σ → α → List β × σ)

theorem passes_cons (s : σ) (a : α) (as : List α) :
    passes step s (a :: as) =
      ((step s a).1 ++ (passes step (step s a).2 as).1, (passes step (step s a).2 as).2) := rfl

theorem passes_append (s : σ) (as as' : List α) :
    passes step s (as ++ as') =
      ((passes step s as).1 ++ (passes step (passes step s as).2 as').1,
        (passes step (passes step s as).2 as').2) := by
  induction as generalizing s with
  | nil => simp [passes]
  | cons a as ih => simp [passes_cons, ih]

theorem passes_keeps {Inv : σ → Prop} (hstep : ∀ s a, Inv s → Inv (step s a).2) {s : σ}
    (hs : Inv s) (as : List α) : Inv (passes step s as).2 := by
  induction as generalizing s with
  | nil => exact hs
  | cons a as ih => exact ih (hstep s a hs)

theorem incremental_passes {Inv : σ → Prop} (hstep : ∀ s a, Inv s → Inv (step s a).2) :
    Incremental (passes step) Inv where
  keeps _ as hs := passes_keeps step hstep hs as
  nil _ _ := rfl
  append s as as' _ := passes_append step s as as'

end Decoding
