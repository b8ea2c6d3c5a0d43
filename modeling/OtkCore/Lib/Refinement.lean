import OtkCore.Lib.Program

/-!
# Procedures that do what others may do

A procedure refines another one when every complete run of it is a run of the
other on the part of the state that the other has. More operations may fail for
the other one, so the two need not end with the same error.
-/
namespace Effect

variable {Op : Type} {Resp : Op → Type} {S α β ε σ σ' τ τ' : Type}

theorem Finishes.pure_inv {step : S → (o : Op) → Resp o → S → Prop} {s s' : S} {a b : α}
    (h : Finishes step s (.pure a) s' b) : s' = s ∧ b = a := by
  obtain ⟨tr, h⟩ := h
  cases h
  exact ⟨rfl, rfl⟩

theorem Finishes.pure (step : S → (o : Op) → Resp o → S → Prop) (s : S) (a : α) :
    Finishes step s (.pure a) s a := ⟨[], .refl _ _⟩

theorem Finishes.step {step : S → (o : Op) → Resp o → S → Prop} {s s₁ s' : S} {o : Op} {r : Resp o}
    {k : Resp o → Prog Resp α} {a : α} (hs : step s o r s₁) (h : Finishes step s₁ (k r) s' a) :
    Finishes step s (.step o k) s' a := by
  obtain ⟨tr, hx⟩ := h
  exact ⟨_, .step hs hx⟩

theorem Finishes.bind {step : S → (o : Op) → Resp o → S → Prop} {s s₁ s' : S} {p : Prog Resp α}
    {f : α → Prog Resp β} {a : α} {b : β} (hp : Finishes step s p s₁ a)
    (hf : Finishes step s₁ (f a) s' b) : Finishes step s (p >>= f) s' b := by
  obtain ⟨tr, hp⟩ := hp
  generalize hq : Prog.pure a = q at hp
  induction hp with
  | refl =>
    subst hq
    exact hf
  | step hs _ ih =>
    obtain ⟨tr', hx⟩ := ih hf hq
    exact ⟨_, .step hs hx⟩

section Procedures

variable {step : S → (o : Op) → Resp o → S → Prop} {s s₁ s' : S} {t : Proc Resp ε σ α}
  {k : α → Proc Resp ε σ β} {x y z : σ}

theorem Finishes.pureP_inv {r r' : Except ε α}
    (h : Finishes step s (.pure (r', x)) s' (r, y)) : s' = s ∧ r = r' ∧ y = x := by
  obtain ⟨rfl, heq⟩ := h.pure_inv
  obtain ⟨rfl, rfl⟩ := Prod.mk.inj heq
  exact ⟨rfl, rfl, rfl⟩

theorem Finishes.bindP {a : α} {r : Except ε β} (ht : Finishes step s (t x) s₁ (.ok a, y))
    (hk : Finishes step s₁ (k a y) s' (r, z)) : Finishes step s ((t >>= k) x) s' (r, z) :=
  ht.bind hk

theorem Finishes.bindP_error {e : ε} (ht : Finishes step s (t x) s' (.error e, y)) :
    Finishes step s ((t >>= k) x) s' (.error e, y) :=
  ht.bind (.pure _ _ _)

/-- Both procedures have run, or the first one has failed. -/
theorem Finishes.bindP_inv {r : Except ε β} (h : Finishes step s ((t >>= k) x) s' (r, z)) :
    (∃ a y s₁, Finishes step s (t x) s₁ (.ok a, y) ∧ Finishes step s₁ (k a y) s' (r, z)) ∨
      ∃ e, r = .error e ∧ Finishes step s (t x) s' (.error e, z) := by
  obtain ⟨⟨r₁, y⟩, s₁, ht, hk⟩ := h.bind_inv
  cases r₁ with
  | ok a => exact Or.inl ⟨a, y, s₁, ht, hk⟩
  | error e =>
    obtain ⟨rfl, rfl, rfl⟩ := hk.pureP_inv
    exact Or.inr ⟨e, rfl, ht⟩

theorem Finishes.attempt {ε' : Type} {r : Except ε α} (h : Finishes step s (t x) s' (r, y)) :
    Finishes step s ((t.attempt : Proc Resp ε' σ (Except ε α)) x) s' (.ok r, y) :=
  h.bind (.pure _ _ _)

theorem Finishes.attempt_inv {ε' : Type} {r : Except ε' (Except ε α)}
    (h : Finishes step s ((t.attempt : Proc Resp ε' σ (Except ε α)) x) s' (r, y)) :
    ∃ r', r = .ok r' ∧ Finishes step s (t x) s' (r', y) := by
  obtain ⟨⟨r₁, y₁⟩, s₁, ht, hrest⟩ := h.bind_inv
  obtain ⟨rfl, rfl, rfl⟩ := hrest.pureP_inv
  exact ⟨r₁, rfl, ht⟩

theorem Finishes.zoom_inv {view : σ' → σ} {update : σ → σ' → σ'} {r : Except ε α} {x' y' : σ'}
    (h : Finishes step s (t.zoom view update x') s' (r, y')) :
    ∃ y, y' = update y x' ∧ Finishes step s (t (view x')) s' (r, y) := by
  obtain ⟨⟨r₁, y⟩, s₁, ht, hrest⟩ := h.bind_inv
  obtain ⟨rfl, rfl, rfl⟩ := hrest.pureP_inv
  exact ⟨y, rfl, ht⟩

end Procedures

/-- From `x` on, the first procedure does what the second one may do on `view x`,
and after a success `Q` holds. -/
def Refines (step step' : S → (o : Op) → Resp o → S → Prop) (view : σ' → σ) (Q : α → σ' → Prop)
    (t' : Proc Resp ε σ' α) (t : Proc Resp ε σ α) (x : σ') : Prop :=
  ∀ s s' r y, Finishes step s (t' x) s' (r, y) →
    match r with
    | .ok a => Q a y ∧ Finishes step' s (t (view x)) s' (.ok a, view y)
    | .error _ => ∃ e, Finishes step' s (t (view x)) s' (.error e, view y)

namespace Refines

variable {step step' : S → (o : Op) → Resp o → S → Prop} {view : σ' → σ} {part : τ' → τ}
  {Q Q' : α → σ' → Prop} {R : β → σ' → Prop} {x : σ'}

theorem pure {a : α} (h : Q a x) :
    Refines step step' view Q (Pure.pure a : Proc Resp ε σ' α) (Pure.pure a) x := by
  intro s s' r y hx
  obtain ⟨rfl, rfl, rfl⟩ := hx.pureP_inv
  exact ⟨h, .pure _ _ _⟩

theorem throw (e : ε) :
    Refines step step' view Q (Proc.throw e : Proc Resp ε σ' α) (Proc.throw e) x := by
  intro s s' r y hx
  obtain ⟨rfl, rfl, rfl⟩ := hx.pureP_inv
  exact ⟨e, .pure _ _ _⟩

theorem bind {t' : Proc Resp ε σ' α} {t : Proc Resp ε σ α} {k' : α → Proc Resp ε σ' β}
    {k : α → Proc Resp ε σ β} (h : Refines step step' view Q t' t x)
    (hk : ∀ a y, Q a y → Refines step step' view R (k' a) (k a) y) :
    Refines step step' view R (t' >>= k') (t >>= k) x := by
  intro s s' r z hx
  obtain ⟨a, y, s₁, hfirst, hrest⟩ | ⟨e, rfl, hfirst⟩ := hx.bindP_inv
  · obtain ⟨hQ, hplain⟩ := h s s₁ _ y hfirst
    have hlast := hk a y hQ s₁ s' r z hrest
    cases r with
    | ok b => exact ⟨hlast.1, hplain.bindP hlast.2⟩
    | error e =>
      obtain ⟨e', hlast⟩ := hlast
      exact ⟨e', hplain.bindP hlast⟩
  · obtain ⟨e', hplain⟩ := h s s' _ z hfirst
    exact ⟨e', hplain.bindP_error⟩

theorem mono {t' : Proc Resp ε σ' α} {t : Proc Resp ε σ α} (h : Refines step step' view Q t' t x)
    (hQ : ∀ a y, Q a y → Q' a y) : Refines step step' view Q' t' t x := by
  intro s s' r y hx
  have hplain := h s s' r y hx
  cases r with
  | ok a => exact ⟨hQ a y hplain.1, hplain.2⟩
  | error e => exact hplain

/-- Both go on with their own states. -/
theorem bind_get {k' : σ' → Proc Resp ε σ' β} {k : σ → Proc Resp ε σ β}
    (h : Refines step step' view R (k' x) (k (view x)) x) :
    Refines step step' view R (Proc.get >>= k') (Proc.get >>= k) x := h

theorem modify {u' : σ' → σ'} {u : σ → σ} {Q : Unit → σ' → Prop} (hu : view (u' x) = u (view x))
    (hQ : Q () (u' x)) :
    Refines step step' view Q (Proc.modify u' : Proc Resp ε σ' Unit) (Proc.modify u) x := by
  intro s s' r y hx
  obtain ⟨rfl, rfl, rfl⟩ := hx.pureP_inv
  refine ⟨hQ, ?_⟩
  rw [hu]
  exact .pure _ _ _

theorem lift (himp : ∀ s o r s', step s o r s' → step' s o r s') {p : Prog Resp α}
    (hQ : ∀ a, Q a x) :
    Refines step step' view Q (Proc.lift p : Proc Resp ε σ' α) (Proc.lift p) x := by
  intro s s' r y hx
  obtain ⟨a, s₁, hp, hrest⟩ := hx.bind_inv
  obtain ⟨rfl, rfl, rfl⟩ := hrest.pureP_inv
  exact ⟨hQ a, (hp.imp himp).bind (.pure _ _ _)⟩

/-- A procedure of the second kind, run on the part of the state that it has. -/
theorem zoom (himp : ∀ s o r s', step s o r s' → step' s o r s') {update : σ → σ' → σ'}
    {t : Proc Resp ε σ α} (hview : ∀ y, view (update y x) = y)
    (hQ : ∀ s s' a y, Finishes step s (t (view x)) s' (.ok a, y) → Q a (update y x)) :
    Refines step step' view Q (t.zoom view update) t x := by
  intro s s' r z hx
  obtain ⟨y, rfl, ht⟩ := hx.zoom_inv
  rw [hview]
  cases r with
  | ok a => exact ⟨hQ s s' a y ht, ht.imp himp⟩
  | error e => exact ⟨e, ht.imp himp⟩

/-- A procedure that leaves the state alone. -/
theorem liftE (himp : ∀ s o r s', step s o r s' → step' s o r s')
    {p : Prog Resp (Except ε α)} (hQ : ∀ a, Q a x) :
    Refines step step' view Q (Proc.liftE p) (Proc.liftE p) x := by
  intro s s' r y hx
  obtain ⟨r₁, s₁, hp, hrest⟩ := hx.bind_inv
  obtain ⟨rfl, rfl, rfl⟩ := hrest.pureP_inv
  have hplain : Finishes step' s (Proc.liftE p (view y)) s' (r, view y) :=
    (hp.imp himp).bind (.pure _ _ _)
  cases r with
  | ok a => exact ⟨hQ a, hplain⟩
  | error e => exact ⟨e, hplain⟩

theorem mapError {ε' : Type} {t' : Proc Resp ε σ' α} {t : Proc Resp ε σ α}
    (h : Refines step step' view Q t' t x) (f : ε → ε') :
    Refines step step' view Q (t'.mapError f) (t.mapError f) x := by
  intro s s' r z hx
  obtain ⟨⟨r₁, y⟩, s₁, ht, hrest⟩ := hx.bind_inv
  obtain ⟨rfl, rfl, rfl⟩ := hrest.pureP_inv
  have hplain := h s s' r₁ z ht
  cases r₁ with
  | ok a => exact ⟨hplain.1, hplain.2.bind (.pure _ _ _)⟩
  | error e =>
    obtain ⟨e', hplain⟩ := hplain
    exact ⟨f e', hplain.bind (.pure _ _ _)⟩

/-- A procedure on a state of its own, with what follows it. -/
theorem bind_on {P : α → τ' → Prop} {t' : Proc Resp ε τ' α} {t : Proc Resp ε τ α} {z : τ'}
    {k' : α × τ' → Proc Resp ε σ' β} {k : α × τ → Proc Resp ε σ β}
    (h : Refines step step' part P t' t z)
    (hk : ∀ a z₁, P a z₁ → Refines step step' view R (k' (a, z₁)) (k (a, part z₁)) x) :
    Refines step step' view R (t'.on z >>= k') (t.on (part z) >>= k) x := by
  intro s s' r y hx
  have hon : ∀ {s₁ r' z₁}, Finishes step' s (t (part z)) s₁ (r', part z₁) →
      Finishes step' s (t.on (part z) (view x)) s₁ (r'.map (·, part z₁), view x) :=
    fun ht => ht.bind (.pure _ _ _)
  simp only [Proc.bind_apply, Proc.on, Prog.bind_assoc] at hx
  obtain ⟨⟨r₁, z₁⟩, s₁, hfirst, hrest⟩ := hx.bind_inv
  have hplain := h s s₁ r₁ z₁ hfirst
  cases r₁ with
  | ok a =>
    obtain ⟨hP, hplain⟩ := hplain
    have hlast := hk a z₁ hP s₁ s' r y hrest
    cases r with
    | ok b => exact ⟨hlast.1, (hon hplain).bind hlast.2⟩
    | error e =>
      obtain ⟨e', hlast⟩ := hlast
      exact ⟨e', (hon hplain).bind hlast⟩
  | error e =>
    obtain ⟨e', hplain⟩ := hplain
    obtain ⟨rfl, rfl, rfl⟩ := hrest.pureP_inv
    exact ⟨e', (hon hplain).bind (.pure _ _ _)⟩

end Refines

end Effect
