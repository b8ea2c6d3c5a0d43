import OtkCore.Lib.Program

/-!
# Outcomes

What a program returns together with the operations it performed, whatever it
is answered. Nothing is assumed about the answers, so the rules fit facts that
the program's own state decides.
-/
namespace Effect

variable {Op : Type} {Resp : Op → Type} {S α β ε ε' σ τ : Type}

/-- Every complete run returns a value and a trace with `Q`. -/
def Says : Prog Resp α → (α → List (Event Resp) → Prop) → Prop
  | .pure a, Q => Q a []
  | .step o k, Q => ∀ r, Says (k r) fun a tr => Q a (⟨o, r⟩ :: tr)

namespace Says

theorem mono {p : Prog Resp α} {Q Q' : α → List (Event Resp) → Prop} (h : Says p Q)
    (hQ : ∀ a tr, Q a tr → Q' a tr) : Says p Q' := by
  induction p generalizing Q Q' with
  | pure a => exact hQ a [] h
  | step o k ih => exact fun r => ih r (h r) fun a tr => hQ a _

theorem bind {p : Prog Resp α} {f : α → Prog Resp β} {Q : β → List (Event Resp) → Prop}
    (h : Says p fun a tr => Says (f a) fun b tr' => Q b (tr ++ tr')) : Says (p >>= f) Q := by
  induction p generalizing Q with
  | pure a => exact h
  | step o k ih => exact fun r => ih r (h r)

theorem bindP {t : Proc Resp ε σ α} {f : α → Proc Resp ε σ β}
    {Q : Except ε β × σ → List (Event Resp) → Prop} {s : σ}
    (h : Says (t s) fun x tr => match x with
      | (.ok a, s') => Says (f a s') fun y tr' => Q y (tr ++ tr')
      | (.error e, s') => Q (.error e, s') tr) : Says ((t >>= f) s) Q := by
  rw [Proc.bind_apply]
  refine bind (h.mono ?_)
  rintro ⟨r, s'⟩ tr hx
  cases r with
  | ok a => exact hx
  | error e => simpa [Says] using hx

theorem getP {f : σ → Proc Resp ε σ β} {Q : Except ε β × σ → List (Event Resp) → Prop} {s : σ}
    (h : Says (f s s) Q) : Says ((Proc.get >>= f) s) Q := h

theorem modifyP {g : σ → σ} {f : Unit → Proc Resp ε σ β}
    {Q : Except ε β × σ → List (Event Resp) → Prop} {s : σ} (h : Says (f () (g s)) Q) :
    Says ((Proc.modify g >>= f) s) Q := h

theorem lift {p : Prog Resp α} {Q : Except ε α × σ → List (Event Resp) → Prop} {s : σ}
    (h : Says p fun a tr => Q (.ok a, s) tr) : Says ((Proc.lift p : Proc Resp ε σ α) s) Q :=
  bind (h.mono fun _ tr hx => by simpa [Says] using hx)

theorem liftE {p : Prog Resp (Except ε α)} {Q : Except ε α × σ → List (Event Resp) → Prop} {s : σ}
    (h : Says p fun r tr => Q (r, s) tr) : Says ((Proc.liftE p : Proc Resp ε σ α) s) Q :=
  bind (h.mono fun _ tr hx => by simpa [Says] using hx)

theorem attempt {t : Proc Resp ε σ α}
    {Q : Except ε' (Except ε α) × σ → List (Event Resp) → Prop} {s : σ}
    (h : Says (t s) fun x tr => Q (.ok x.1, x.2) tr) :
    Says ((t.attempt : Proc Resp ε' σ (Except ε α)) s) Q :=
  bind (h.mono fun _ tr hx => by simpa [Says] using hx)

theorem mapError {t : Proc Resp ε σ α} {f : ε → ε'}
    {Q : Except ε' α × σ → List (Event Resp) → Prop} {s : σ}
    (h : Says (t s) fun x tr => Q (x.1.mapError f, x.2) tr) : Says (t.mapError f s) Q :=
  bind (h.mono fun _ tr hx => by simpa [Says] using hx)

theorem on {t : Proc Resp ε τ α} {x : τ} {Q : Except ε (α × τ) × σ → List (Event Resp) → Prop}
    {s : σ} (h : Says (t x) fun y tr => Q (y.1.map (·, y.2), s) tr) : Says (t.on x s) Q :=
  bind (h.mono fun _ tr hx => by simpa [Says] using hx)

theorem exec {step : S → (o : Op) → Resp o → S → Prop} {s s' : S} {p : Prog Resp α}
    {tr : List (Event Resp)} {a : α} {Q : α → List (Event Resp) → Prop} (h : Says p Q)
    (hx : Exec step s p tr s' (.pure a)) : Q a tr := by
  induction p generalizing Q s tr with
  | pure b =>
    cases hx
    exact h
  | step o k ih =>
    cases hx with
    | @step _ _ _ _ r _ tr' _ _ hrest =>
      have hQ := ih r (h r) hrest
      exact hQ

theorem finishes {step : S → (o : Op) → Resp o → S → Prop} {s s' : S} {p : Prog Resp α} {a : α}
    {P : α → Prop} (h : Says p fun a _ => P a) (hx : Finishes step s p s' a) : P a := by
  obtain ⟨tr, hx⟩ := hx
  exact h.exec hx

theorem and {p : Prog Resp α} {Q Q' : α → List (Event Resp) → Prop} (h : Says p Q)
    (h' : Says p Q') : Says p fun a tr => Q a tr ∧ Q' a tr := by
  induction p generalizing Q Q' with
  | pure a => exact ⟨h, h'⟩
  | step o k ih => exact fun r => ih r (h r) (h' r)

theorem any (p : Prog Resp α) : Says p fun _ _ => True := by
  induction p with
  | pure a => trivial
  | step o k ih => exact fun r => ih r

/-- Only the values that a program may return matter for what follows it. -/
theorem bind_congr {p : Prog Resp α} {P : α → Prop} {f g : α → Prog Resp β}
    (h : Says p fun a _ => P a) (hfg : ∀ a, P a → f a = g a) : p >>= f = p >>= g := by
  induction p with
  | pure a => exact hfg a h
  | step o k ih =>
    rw [Prog.step_bind, Prog.step_bind]
    exact congrArg (Prog.step o) (funext fun r => ih r (h r))

theorem bindP_congr {t : Proc Resp ε σ α} {s : σ} {P : Except ε α × σ → Prop}
    {f g : α → Proc Resp ε σ β} (h : Says (t s) fun x _ => P x)
    (hfg : ∀ a s', P (.ok a, s') → f a s' = g a s') : (t >>= f) s = (t >>= g) s := by
  rw [Proc.bind_apply, Proc.bind_apply]
  refine h.bind_congr ?_
  rintro ⟨r, s'⟩ hx
  cases r with
  | ok a => exact hfg a s' hx
  | error e => rfl

/-- An outcome holds in every setting whose worlds follow the state. -/
theorem safe {W : Type} {T : Setting Resp S W} (hT : ∀ w o r s', T.step (T.view w) o r s' →
    ∃ w', T.view w' = s' ∧ T.guar w o r w') {p : Prog Resp α} {Q : α → List (Event Resp) → Prop}
    (h : Says p Q) {w : W} : Safe T p (fun a _ => ∃ tr, Q a tr) w := by
  induction p generalizing Q w with
  | pure a => exact ⟨[], h⟩
  | step o k ih =>
    intro w₁ _ r s' hs
    obtain ⟨w', hv, hg⟩ := hT w₁ o r s' hs
    exact ⟨w', hv, hg, (ih r (h r)).mono fun a _ ⟨tr, hQ⟩ => ⟨_, hQ⟩⟩

theorem and_safe {W : Type} {T : Setting Resp S W} {p : Prog Resp α} {P : α → W → Prop}
    {Q : α → List (Event Resp) → Prop} {w : W} (h : Says p Q) (hs : Safe T p P w) :
    Safe T p (fun a w' => P a w' ∧ ∃ tr, Q a tr) w := by
  induction p generalizing w Q with
  | pure a => exact ⟨hs, [], h⟩
  | step o k ih =>
    intro w₁ hw₁ r s' hstep
    obtain ⟨w', hv, hg, hk⟩ := hs w₁ hw₁ r s' hstep
    refine ⟨w', hv, hg, (ih r (h r) hk).mono ?_⟩
    rintro a w'' ⟨hP, tr, hQ⟩
    exact ⟨hP, _, hQ⟩

end Says

/-- Every operation the program may come to has the property. -/
def Prog.Uses (P : Op → Prop) : Prog Resp α → Prop
  | .pure _ => True
  | .step o k => P o ∧ ∀ r, (k r).Uses P

def Uses (P : Op → Prop) (t : Proc Resp ε σ α) : Prop := ∀ s, (t s).Uses P

variable {P : Op → Prop}

namespace Prog.Uses

theorem bind {p : Prog Resp α} {f : α → Prog Resp β} (hp : p.Uses P)
    (hf : ∀ a, (f a).Uses P) : (p >>= f).Uses P := by
  induction p with
  | pure a => exact hf a
  | step o k ih => exact ⟨hp.1, fun r => ih r (hp.2 r)⟩

theorem op {o : Op} (h : P o) : (Prog.op o : Prog Resp (Resp o)).Uses P := ⟨h, fun _ => trivial⟩

theorem mono {P' : Op → Prop} {p : Prog Resp α} (h : p.Uses P) (hP : ∀ o, P o → P' o) :
    p.Uses P' := by
  induction p with
  | pure a => trivial
  | step o k ih => exact ⟨hP o h.1, fun r => ih r (h.2 r)⟩

theorem outcome {p : Prog Resp α} (h : p.Uses P) : Says p fun _ tr => ∀ x ∈ tr, P x.1 := by
  induction p with
  | pure a => simp [Says]
  | step o k ih =>
    exact fun r => (ih r (h.2 r)).mono fun _ _ htr => List.forall_mem_cons.mpr ⟨h.1, htr⟩

theorem exec {step : S → (o : Op) → Resp o → S → Prop} {s s' : S} {p p' : Prog Resp α}
    {tr : List (Event Resp)} (h : p.Uses P) (hx : Exec step s p tr s' p') :
    ∀ x ∈ tr, P x.1 := by
  induction hx with
  | refl => simp
  | step _ _ ih => exact List.forall_mem_cons.mpr ⟨h.1, ih (h.2 _)⟩

end Prog.Uses

namespace Uses

theorem mono {P' : Op → Prop} {t : Proc Resp ε σ α} (ht : Uses P t) (hP : ∀ o, P o → P' o) :
    Uses P' t := fun s => (ht s).mono hP

theorem pure (a : α) : Uses P (Pure.pure a : Proc Resp ε σ α) := fun _ => trivial

theorem throw (e : ε) : Uses P (Proc.throw e : Proc Resp ε σ α) := fun _ => trivial

theorem get : Uses P (Proc.get : Proc Resp ε σ σ) := fun _ => trivial

theorem modify (f : σ → σ) : Uses P (Proc.modify f : Proc Resp ε σ Unit) := fun _ => trivial

theorem bind {t : Proc Resp ε σ α} {f : α → Proc Resp ε σ β} (ht : Uses P t)
    (hf : ∀ a, Uses P (f a)) : Uses P (t >>= f) := by
  intro s
  rw [Proc.bind_apply]
  refine Prog.Uses.bind (ht s) ?_
  rintro ⟨r, s'⟩
  cases r with
  | ok a => exact hf a s'
  | error e => trivial

theorem lift {p : Prog Resp α} (hp : p.Uses P) : Uses P (Proc.lift p : Proc Resp ε σ α) :=
  fun _ => Prog.Uses.bind hp fun _ => trivial

theorem liftE {p : Prog Resp (Except ε α)} (hp : p.Uses P) :
    Uses P (Proc.liftE p : Proc Resp ε σ α) :=
  fun _ => Prog.Uses.bind hp fun _ => trivial

theorem attempt {t : Proc Resp ε σ α} (ht : Uses P t) :
    Uses P (t.attempt : Proc Resp ε' σ (Except ε α)) :=
  fun s => Prog.Uses.bind (ht s) fun _ => trivial

theorem mapError {t : Proc Resp ε σ α} (ht : Uses P t) (f : ε → ε') : Uses P (t.mapError f) :=
  fun s => Prog.Uses.bind (ht s) fun _ => trivial

theorem on {t : Proc Resp ε τ α} (ht : Uses P t) (x : τ) :
    Uses P (t.on x : Proc Resp ε σ (α × τ)) :=
  fun _ => Prog.Uses.bind (ht x) fun _ => trivial

end Uses

/-- The procedure keeps an invariant of its state, whatever the answers. -/
def Maintains (I : σ → Prop) (t : Proc Resp ε σ α) : Prop := ∀ s, I s → Says (t s) fun x _ => I x.2

namespace Maintains

variable {I : σ → Prop}

theorem pure (a : α) : Maintains I (Pure.pure a : Proc Resp ε σ α) := fun _ h => h

theorem throw (e : ε) : Maintains I (Proc.throw e : Proc Resp ε σ α) := fun _ h => h

theorem get : Maintains I (Proc.get : Proc Resp ε σ σ) := fun _ h => h

theorem modify {f : σ → σ} (hf : ∀ s, I s → I (f s)) :
    Maintains I (Proc.modify f : Proc Resp ε σ Unit) := hf

theorem bind {t : Proc Resp ε σ α} {f : α → Proc Resp ε σ β} (ht : Maintains I t)
    (hf : ∀ a, Maintains I (f a)) : Maintains I (t >>= f) := by
  intro s hs
  refine Says.bindP ((ht s hs).mono ?_)
  rintro ⟨r, s'⟩ tr h
  cases r with
  | ok a => exact hf a s' h
  | error e => exact h

theorem lift (p : Prog Resp α) : Maintains I (Proc.lift p : Proc Resp ε σ α) :=
  fun _ h => Says.lift ((Says.any p).mono fun _ _ _ => h)

theorem liftE (p : Prog Resp (Except ε α)) : Maintains I (Proc.liftE p : Proc Resp ε σ α) :=
  fun _ h => Says.liftE ((Says.any p).mono fun _ _ _ => h)

theorem attempt {t : Proc Resp ε σ α} (ht : Maintains I t) :
    Maintains I (t.attempt : Proc Resp ε' σ (Except ε α)) := fun s h => Says.attempt (ht s h)

theorem mapError {t : Proc Resp ε σ α} (ht : Maintains I t) (f : ε → ε') :
    Maintains I (t.mapError f) := fun s h => Says.mapError (ht s h)

theorem on (t : Proc Resp ε τ α) (x : τ) : Maintains I (t.on x : Proc Resp ε σ (α × τ)) :=
  fun _ h => Says.on ((Says.any _).mono fun _ _ _ => h)

end Maintains

/-- The procedure keeps what relates its state to the world. -/
def Preserves {W : Type} (T : Setting Resp S W) (J : σ → W → Prop) (t : Proc Resp ε σ α) : Prop :=
  ∀ s w, J s w → Safe T (t s) (fun x w' => J x.2 w') w

namespace Preserves

variable {W : Type} {T : Setting Resp S W} {J : σ → W → Prop}

theorem pure (a : α) : Preserves T J (Pure.pure a : Proc Resp ε σ α) := fun _ _ h => h

theorem throw (e : ε) : Preserves T J (Proc.throw e : Proc Resp ε σ α) := fun _ _ h => h

theorem get : Preserves T J (Proc.get : Proc Resp ε σ σ) := fun _ _ h => h

theorem modify {f : σ → σ} (hf : ∀ s w, J s w → J (f s) w) :
    Preserves T J (Proc.modify f : Proc Resp ε σ Unit) := hf

theorem bind {t : Proc Resp ε σ α} {f : α → Proc Resp ε σ β} (ht : Preserves T J t)
    (hf : ∀ a, Preserves T J (f a)) : Preserves T J (t >>= f) := by
  intro s w hs
  refine Safe.bindP ((ht s w hs).mono ?_)
  rintro ⟨r, s'⟩ w' h
  cases r with
  | ok a => exact hf a s' w' h
  | error e => exact h

theorem lift {p : Prog Resp α} (hp : ∀ s w, J s w → Safe T p (fun _ w' => J s w') w) :
    Preserves T J (Proc.lift p : Proc Resp ε σ α) := fun s w h => Safe.lift (hp s w h)

theorem liftE {p : Prog Resp (Except ε α)} (hp : ∀ s w, J s w → Safe T p (fun _ w' => J s w') w) :
    Preserves T J (Proc.liftE p : Proc Resp ε σ α) := fun s w h => Safe.liftE (hp s w h)

theorem attempt {t : Proc Resp ε σ α} (ht : Preserves T J t) :
    Preserves T J (t.attempt : Proc Resp ε' σ (Except ε α)) := fun s w h => Safe.attempt (ht s w h)

theorem mapError {t : Proc Resp ε σ α} (ht : Preserves T J t) (f : ε → ε') :
    Preserves T J (t.mapError f) := fun s w h => Safe.mapError (ht s w h)

theorem on {t : Proc Resp ε τ α} {x : τ}
    (ht : ∀ s w, J s w → Safe T (t x) (fun _ w' => J s w') w) :
    Preserves T J (t.on x : Proc Resp ε σ (α × τ)) := fun s w h => Safe.on (ht s w h)

end Preserves

/-- A run that succeeds performs only operations with the property. -/
def Prog.Cleanly (P : Op → Prop) (p : Prog Resp (Except ε α × σ)) : Prop :=
  Says p fun x tr => ∀ a, x.1 = .ok a → ∀ e ∈ tr, P e.1

def Prog.Doomed (p : Prog Resp (Except ε α × σ)) : Prop := Says p fun x _ => ∀ a, x.1 ≠ .ok a

def Cleanly (P : Op → Prop) (t : Proc Resp ε σ α) : Prop := ∀ s, (t s).Cleanly P

def Doomed (t : Proc Resp ε σ α) : Prop := ∀ s, (t s).Doomed

section Program

variable {o : Op} {k : Resp o → Prog Resp (Except ε α × σ)}

theorem Prog.Cleanly.next (h : (Prog.step o k).Cleanly P) (r : Resp o) : (k r).Cleanly P :=
  (h r).mono fun _ _ hx a ha e he => hx a ha e (List.mem_cons_of_mem _ he)

/-- A program that comes to another operation is not going to succeed. -/
theorem Prog.Cleanly.doomed (h : (Prog.step o k).Cleanly P) (ho : ¬ P o) :
    (Prog.step o k).Doomed :=
  fun r => (h r).mono fun _ _ hx a ha => ho (hx a ha ⟨o, r⟩ List.mem_cons_self)

theorem Prog.Doomed.not_exec {p : Prog Resp (Except ε α × σ)} (h : p.Doomed)
    {step : S → (o : Op) → Resp o → S → Prop} {s s' : S} {tr : List (Event Resp)} {a : α} {t : σ} :
    ¬ Exec step s p tr s' (.pure (.ok a, t)) :=
  fun hx => h.exec hx a rfl

end Program

namespace Doomed

theorem throw (e : ε) : Doomed (Proc.throw e : Proc Resp ε σ α) := fun _ => by
  simp [Prog.Doomed, Says]

theorem bind (t : Proc Resp ε σ α) {f : α → Proc Resp ε σ β} (hf : ∀ a, Doomed (f a)) :
    Doomed (t >>= f) := by
  intro s
  refine Says.bindP ((Says.any _).mono ?_)
  rintro ⟨r, s'⟩ tr -
  cases r with
  | ok a => exact hf a s'
  | error e => simp

end Doomed

namespace Cleanly

theorem of_uses {t : Proc Resp ε σ α} (ht : Uses P t) : Cleanly P t :=
  fun s => (ht s).outcome.mono fun _ _ hx _ _ => hx

theorem of_doomed {t : Proc Resp ε σ α} (ht : Doomed t) : Cleanly P t :=
  fun s => (ht s).mono fun _ _ hx a ha => absurd ha (hx a)

theorem bind {t : Proc Resp ε σ α} {f : α → Proc Resp ε σ β} (ht : Cleanly P t)
    (hf : ∀ a, Cleanly P (f a)) : Cleanly P (t >>= f) := by
  intro s
  refine Says.bindP ((ht s).mono ?_)
  rintro ⟨r, s'⟩ tr htr
  cases r with
  | ok a =>
    refine (hf a s').mono fun y tr' htr' b hb e he => ?_
    rcases List.mem_append.mp he with he | he
    · exact htr a rfl e he
    · exact htr' b hb e he
  | error e => simp

/-- Where a failure is not survived, the part that may fail need not be clean. -/
theorem bind_attempt {t : Proc Resp ε σ α} {f : Except ε α → Proc Resp ε' σ β} (ht : Cleanly P t)
    (hok : ∀ a, Cleanly P (f (.ok a))) (herr : ∀ e, Doomed (f (.error e))) :
    Cleanly P (t.attempt >>= f) := by
  intro s
  refine Says.bindP (Says.attempt ((ht s).mono ?_))
  rintro ⟨r, s'⟩ tr htr
  cases r with
  | ok a =>
    refine (hok a s').mono fun y tr' htr' b hb e he => ?_
    rcases List.mem_append.mp he with he | he
    · exact htr a rfl e he
    · exact htr' b hb e he
  | error e => exact (herr e s').mono fun y _ hy b hb => absurd hb (hy b)

end Cleanly
end Effect
