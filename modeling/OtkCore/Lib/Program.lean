import Mathlib.Data.List.Basic
import Mathlib.Tactic.Common
import Mathlib.Algebra.Group.Nat.Defs

/-!
# Programs over an effect signature

A program is a tree of operations, each with a continuation for every possible
response. Its meaning is given by a step relation of the environment, so one
definition serves for complete runs, for runs stopped between two operations
and for several programs taking turns on one state. `Safe` is the weakest
precondition of a program with a rely condition (what others may do between
two operations) and a guarantee (what each operation of its own does), both
over worlds that extend the state by auxiliary information.
-/
namespace Effect

inductive Prog {Op : Type} (Resp : Op → Type) (α : Type) : Type
  | pure (a : α)
  | step (op : Op) (k : Resp op → Prog Resp α)

namespace Prog

variable {Op : Type} {Resp : Op → Type} {α β γ : Type}

protected def bind : Prog Resp α → (α → Prog Resp β) → Prog Resp β
  | .pure a, f => f a
  | .step op k, f => .step op fun r => (k r).bind f

instance : Monad (Prog Resp) where
  pure := Prog.pure
  bind := Prog.bind

def op (o : Op) : Prog Resp (Resp o) := .step o .pure

@[simp] theorem pure_bind (a : α) (f : α → Prog Resp β) : (Prog.pure a >>= f) = f a := rfl

@[simp] theorem step_bind (o : Op) (k : Resp o → Prog Resp α) (f : α → Prog Resp β) :
    (Prog.step o k >>= f) = .step o fun r => k r >>= f := rfl

theorem bind_assoc (p : Prog Resp α) (f : α → Prog Resp β) (g : β → Prog Resp γ) :
    (p >>= f >>= g) = p >>= fun a => f a >>= g := by
  induction p with
  | pure a => rfl
  | step o k ih => simp only [step_bind, ih]

@[simp] theorem bind_pure_right (p : Prog Resp α) : (p >>= Prog.pure) = p := by
  induction p with
  | pure a => rfl
  | step o k ih => simp only [step_bind, ih]

end Prog

/-- A computation on a state `σ` that may fail with `ε`; the state survives a
failure. -/
def Proc {Op : Type} (Resp : Op → Type) (ε σ α : Type) : Type :=
  σ → Prog Resp (Except ε α × σ)

namespace Proc

variable {Op : Type} {Resp : Op → Type} {ε ε' σ τ α β : Type}

instance : Monad (Proc Resp ε σ) where
  pure a := fun s => .pure (.ok a, s)
  bind t f := fun s => t s >>= fun
    | (.ok a, s') => f a s'
    | (.error e, s') => .pure (.error e, s')

def throw (e : ε) : Proc Resp ε σ α := fun s => .pure (.error e, s)

def get : Proc Resp ε σ σ := fun s => .pure (.ok s, s)

def modify (f : σ → σ) : Proc Resp ε σ Unit := fun s => .pure (.ok (), f s)

def lift (p : Prog Resp α) : Proc Resp ε σ α := fun s => p >>= fun a => .pure (.ok a, s)

/-- A program whose result is a success or an error. -/
def liftE (p : Prog Resp (Except ε α)) : Proc Resp ε σ α := fun s => p >>= fun r => .pure (r, s)

/-- Run a procedure and return its outcome instead of failing. -/
def attempt (t : Proc Resp ε σ α) : Proc Resp ε' σ (Except ε α) :=
  fun s => t s >>= fun (r, s') => .pure (.ok r, s')

def mapError (f : ε → ε') (t : Proc Resp ε σ α) : Proc Resp ε' σ α :=
  fun s => t s >>= fun (r, s') => .pure (r.mapError f, s')

/-- Run a procedure on a state of its own and return that state with the result. -/
def on (t : Proc Resp ε τ α) (x : τ) : Proc Resp ε σ (α × τ) :=
  fun s => t x >>= fun (r, x') => .pure (r.map (·, x'), s)

def zoom (view : σ → τ) (update : τ → σ → σ) (t : Proc Resp ε τ α) : Proc Resp ε σ α :=
  fun s => t (view s) >>= fun (r, x) => .pure (r, update x s)

@[simp] theorem pure_apply (a : α) (s : σ) :
    (pure a : Proc Resp ε σ α) s = .pure (.ok a, s) := rfl

theorem bind_apply (t : Proc Resp ε σ α) (f : α → Proc Resp ε σ β) (s : σ) :
    (t >>= f) s = t s >>= fun
      | (.ok a, s') => f a s'
      | (.error e, s') => .pure (.error e, s') := rfl

@[simp] theorem throw_apply (e : ε) (s : σ) :
    (throw e : Proc Resp ε σ α) s = .pure (.error e, s) := rfl

@[simp] theorem get_apply (s : σ) : (get : Proc Resp ε σ σ) s = .pure (.ok s, s) := rfl

@[simp] theorem modify_apply (f : σ → σ) (s : σ) :
    (modify f : Proc Resp ε σ Unit) s = .pure (.ok (), f s) := rfl

end Proc

abbrev Event {Op : Type} (Resp : Op → Type) : Type := (o : Op) × Resp o

variable {Op : Type} {Resp : Op → Type} {S W α β : Type}

/-- `Exec step s p tr s' p'`: started in `s`, the program `p` performs the
operations `tr` and stops in `s'` with `p'` left to do. -/
inductive Exec (step : S → (o : Op) → Resp o → S → Prop) :
    S → Prog Resp α → List (Event Resp) → S → Prog Resp α → Prop
  | refl (s : S) (p : Prog Resp α) : Exec step s p [] s p
  | step {s s₁ s' : S} {o : Op} {r : Resp o} {k : Resp o → Prog Resp α}
      {tr : List (Event Resp)} {p' : Prog Resp α} :
      step s o r s₁ → Exec step s₁ (k r) tr s' p' → Exec step s (.step o k) (⟨o, r⟩ :: tr) s' p'

namespace Exec

variable {step : S → (o : Op) → Resp o → S → Prop}

theorem imp {step' : S → (o : Op) → Resp o → S → Prop}
    (h : ∀ s o r s', step s o r s' → step' s o r s') {s s' : S} {p p' : Prog Resp α}
    {tr : List (Event Resp)} (hx : Exec step s p tr s' p') : Exec step' s p tr s' p' := by
  induction hx with
  | refl => exact .refl _ _
  | step hs _ ih => exact .step (h _ _ _ _ hs) ih

theorem bind {s s' : S} {p p' : Prog Resp α} {tr : List (Event Resp)}
    (h : Exec step s p tr s' p') (f : α → Prog Resp β) :
    Exec step s (p >>= f) tr s' (p' >>= f) := by
  induction h with
  | refl => exact .refl _ _
  | step hs _ ih => exact .step hs ih

/-- An execution of two programs in a row stops in the first one, or completes
it and stops in the second one. -/
theorem bind_split {s s' : S} {p : Prog Resp α} {f : α → Prog Resp β} {tr : List (Event Resp)}
    {q : Prog Resp β} (h : Exec step s (p >>= f) tr s' q) :
    (∃ p', Exec step s p tr s' p') ∨
      ∃ a s₁ tr₁ tr₂, tr = tr₁ ++ tr₂ ∧ Exec step s p tr₁ s₁ (.pure a) ∧
        Exec step s₁ (f a) tr₂ s' q := by
  induction p generalizing s tr with
  | pure a => exact Or.inr ⟨a, s, [], tr, rfl, .refl _ _, h⟩
  | step o k ih =>
    rw [Prog.step_bind] at h
    cases h with
    | refl => exact Or.inl ⟨_, .refl _ _⟩
    | step hs hrest =>
      obtain ⟨p', hp⟩ | ⟨a, s₁, tr₁, tr₂, rfl, hp, hf⟩ := ih _ hrest
      · exact Or.inl ⟨p', .step hs hp⟩
      · exact Or.inr ⟨a, s₁, _, tr₂, rfl, .step hs hp, hf⟩

theorem bind_inv {s s' : S} {p : Prog Resp α} {f : α → Prog Resp β} {tr : List (Event Resp)}
    {q : Prog Resp β} (h : Exec step s (p >>= f) tr s' q) :
    (∃ p', Exec step s p tr s' p') ∨
      ∃ a s₁ tr₁ tr₂, Exec step s p tr₁ s₁ (.pure a) ∧ Exec step s₁ (f a) tr₂ s' q :=
  h.bind_split.imp_right fun ⟨a, s₁, tr₁, tr₂, _, hp, hf⟩ => ⟨a, s₁, tr₁, tr₂, hp, hf⟩

end Exec

/-- A complete run: started in `s`, the program returns `a` and leaves `s'`. -/
def Finishes (step : S → (o : Op) → Resp o → S → Prop) (s : S) (p : Prog Resp α) (s' : S) (a : α) :
    Prop :=
  ∃ tr, Exec step s p tr s' (.pure a)

theorem Finishes.imp {step step' : S → (o : Op) → Resp o → S → Prop}
    (h : ∀ s o r s', step s o r s' → step' s o r s') {s s' : S} {p : Prog Resp α} {a : α}
    (hx : Finishes step s p s' a) : Finishes step' s p s' a := by
  obtain ⟨tr, hx⟩ := hx
  exact ⟨tr, hx.imp h⟩

theorem Finishes.bind_inv {step : S → (o : Op) → Resp o → S → Prop} {s s' : S} {p : Prog Resp α}
    {f : α → Prog Resp β} {b : β} (h : Finishes step s (p >>= f) s' b) :
    ∃ a s₁, Finishes step s p s₁ a ∧ Finishes step s₁ (f a) s' b := by
  obtain ⟨tr, h⟩ := h
  induction p generalizing s tr with
  | pure a => exact ⟨a, s, ⟨[], .refl _ _⟩, tr, h⟩
  | step o k ih =>
    rw [Prog.step_bind] at h
    cases h with
    | step hs hrest =>
      obtain ⟨a, s₁, ⟨tr₁, hp⟩, hf⟩ := ih _ _ hrest
      exact ⟨a, s₁, ⟨_, .step hs hp⟩, hf⟩

/-- What a proof about programs is relative to: the step relation, the worlds
it talks about, and what is assumed and promised between two worlds. -/
structure Setting {Op : Type} (Resp : Op → Type) (S W : Type) where
  step : S → (o : Op) → Resp o → S → Prop
  view : W → S
  rely : W → W → Prop
  guar : W → (o : Op) → Resp o → W → Prop

/-- Every execution of the program keeps the guarantee at each operation and
ends with `Q`, if others keep the rely condition. -/
def Safe (T : Setting Resp S W) : Prog Resp α → (α → W → Prop) → W → Prop
  | .pure a, Q, w => Q a w
  | .step o k, Q, w => ∀ w₁, T.rely w w₁ → ∀ r s', T.step (T.view w₁) o r s' →
      ∃ w', T.view w' = s' ∧ T.guar w₁ o r w' ∧ Safe T (k r) Q w'

namespace Safe

variable {T : Setting Resp S W} {ε ε' σ τ : Type}

theorem mono {p : Prog Resp α} {Q Q' : α → W → Prop} {w : W} (h : Safe T p Q w)
    (hQ : ∀ a w', Q a w' → Q' a w') : Safe T p Q' w := by
  induction p generalizing w with
  | pure a => exact hQ a w h
  | step o k ih =>
    intro w₁ hw₁ r s' hs
    obtain ⟨w', hv, hg, hk⟩ := h w₁ hw₁ r s' hs
    exact ⟨w', hv, hg, ih r hk⟩

theorem bind {p : Prog Resp α} {f : α → Prog Resp β} {Q : β → W → Prop} {w : W}
    (h : Safe T p (fun a w' => Safe T (f a) Q w') w) : Safe T (p >>= f) Q w := by
  induction p generalizing w with
  | pure a => exact h
  | step o k ih =>
    intro w₁ hw₁ r s' hs
    obtain ⟨w', hv, hg, hk⟩ := h w₁ hw₁ r s' hs
    exact ⟨w', hv, hg, ih r hk⟩

/-- The rule for a procedure followed by another: the second one starts in the state
and world the first one leaves, unless that failed. -/
theorem bindP {t : Proc Resp ε σ α} {f : α → Proc Resp ε σ β}
    {Q : Except ε β × σ → W → Prop} {s : σ} {w : W}
    (h : Safe T (t s) (fun x w' => match x with
      | (.ok a, s') => Safe T (f a s') Q w'
      | (.error e, s') => Q (.error e, s') w') w) : Safe T ((t >>= f) s) Q w := by
  rw [Proc.bind_apply]
  refine bind (h.mono ?_)
  rintro ⟨r, s'⟩ w' hx
  cases r with
  | ok a => exact hx
  | error e => exact hx

theorem getP {f : σ → Proc Resp ε σ β} {Q : Except ε β × σ → W → Prop} {s : σ} {w : W}
    (h : Safe T (f s s) Q w) : Safe T ((Proc.get >>= f) s) Q w := h

theorem modifyP {g : σ → σ} {f : Unit → Proc Resp ε σ β} {Q : Except ε β × σ → W → Prop} {s : σ}
    {w : W} (h : Safe T (f () (g s)) Q w) : Safe T ((Proc.modify g >>= f) s) Q w := h

theorem lift {p : Prog Resp α} {Q : Except ε α × σ → W → Prop} {s : σ} {w : W}
    (h : Safe T p (fun a w' => Q (.ok a, s) w') w) : Safe T ((Proc.lift p : Proc Resp ε σ α) s) Q w :=
  bind h

theorem liftE {p : Prog Resp (Except ε α)} {Q : Except ε α × σ → W → Prop} {s : σ} {w : W}
    (h : Safe T p (fun r w' => Q (r, s) w') w) : Safe T ((Proc.liftE p : Proc Resp ε σ α) s) Q w :=
  bind h

theorem attempt {t : Proc Resp ε σ α} {Q : Except ε' (Except ε α) × σ → W → Prop} {s : σ} {w : W}
    (h : Safe T (t s) (fun x w' => Q (.ok x.1, x.2) w') w) :
    Safe T ((t.attempt : Proc Resp ε' σ (Except ε α)) s) Q w :=
  bind h

theorem mapError {t : Proc Resp ε σ α} {f : ε → ε'} {Q : Except ε' α × σ → W → Prop} {s : σ}
    {w : W} (h : Safe T (t s) (fun x w' => Q (x.1.mapError f, x.2) w') w) :
    Safe T (t.mapError f s) Q w :=
  bind h

theorem on {t : Proc Resp ε τ α} {x : τ} {Q : Except ε (α × τ) × σ → W → Prop} {s : σ} {w : W}
    (h : Safe T (t x) (fun y w' => Q (y.1.map (·, y.2), s) w') w) : Safe T (t.on x s) Q w :=
  bind h

/-- A stopped execution of a safe program leaves a world in which the rest of
the program is safe, and every property that its operations keep holds there. -/
theorem exec (hrefl : ∀ w, T.rely w w) {I : W → Prop} {s s' : S} {p p' : Prog Resp α}
    {tr : List (Event Resp)} (hx : Exec T.step s p tr s' p')
    (hI : ∀ w o r w', ⟨o, r⟩ ∈ tr → I w → T.guar w o r w' → I w') {Q : α → W → Prop} {w : W}
    (hw : T.view w = s) (h : Safe T p Q w) (hi : I w) :
    ∃ w', T.view w' = s' ∧ I w' ∧ Safe T p' Q w' := by
  induction hx generalizing w with
  | refl s p => exact ⟨w, hw, hi, h⟩
  | step hs _ ih =>
    obtain ⟨w', hv, hg, hk⟩ := h w (hrefl w) _ _ (hw ▸ hs)
    exact ih (fun w o r w' hmem => hI w o r w' (List.mem_cons_of_mem _ hmem)) hv hk
      (hI _ _ _ _ List.mem_cons_self hi hg)

theorem finishes (hrefl : ∀ w, T.rely w w) {s s' : S} {p : Prog Resp α} {a : α}
    (hx : Finishes T.step s p s' a) {Q : α → W → Prop} {w : W} (hw : T.view w = s)
    (h : Safe T p Q w) : ∃ w', T.view w' = s' ∧ Q a w' := by
  obtain ⟨tr, hx⟩ := hx
  obtain ⟨w', hv, -, hQ⟩ := h.exec hrefl (I := fun _ => True) hx (fun _ _ _ _ _ _ _ => trivial) hw
    trivial
  exact ⟨w', hv, hQ⟩

end Safe
end Effect
