import OtkCore.Lib.Disk

/-!
# Programs that are never stuck

The file system always has an answer, except for a write of nothing and for one
beyond the largest file. A program that avoids those whatever it is answered
can be run to its end from every disk.
-/
namespace FileIO

open Effect

variable {N α β : Type}

def Op.Ready : Op N → Prop
  | .write _ pos bytes => bytes ≠ [] ∧ pos < maxFileLen
  | _ => True

variable [DecidableEq N]

def Plausible (fails : Op N → Prop) (o : Op N) (r : Resp o) : Prop := ∃ d d', Step fails d o r d'

/-- Every operation is ready, and the result satisfies `Q`, whatever the answers
were. -/
def Flows (fails : Op N → Prop) : Prog (Resp (N := N)) α → (α → Prop) → Prop
  | .pure a, Q => Q a
  | .step o k, Q => o.Ready ∧ ∀ r, Plausible fails o r → Flows fails (k r) Q

theorem exists_step (fails : Op N → Prop) (d : Disk N) {o : Op N} (h : o.Ready) :
    ∃ r d', Step fails d o r d' := by
  cases o with
  | now => exact ⟨(0 : ℕ), d, Nat.two_pow_pos 64, rfl⟩
  | notify => exact ⟨(), d, rfl⟩
  | makeDir => exact ⟨.ok (), d, rfl, Or.inl rfl⟩
  | readDir =>
    refine ⟨.ok (d.dir.keys.map .known), d, rfl, Or.inl ⟨_, rfl, ?_, by simp⟩⟩
    simp [knownNames, List.filterMap_map]
  | dirEntry slot =>
    cases slot with
    | known x => exact ⟨.ok (some x), d, rfl, Or.inl rfl⟩
    | fresh present => exact ⟨.ok none, d, rfl, Or.inl rfl⟩
  | stat x => exact ⟨_, d, rfl, Or.inl rfl⟩
  | openRead x => exact ⟨_, d, rfl, Or.inl rfl⟩
  | openWrite x truncate =>
    cases hx : d.find x with
    | some i => exact ⟨.ok i, _, Or.inl (by rw [hx]; exact ⟨rfl, rfl⟩)⟩
    | none => exact ⟨.ok d.next, _, Or.inl (by rw [hx]; exact ⟨rfl, rfl⟩)⟩
  | fileLen i => exact ⟨_, d, rfl, Or.inl rfl⟩
  | seek i => exact ⟨.ok (), d, rfl, Or.inl rfl⟩
  | read i pos len =>
    exact ⟨_, d, rfl, Or.inl ⟨len, le_rfl, rfl, by omega⟩⟩
  | readAll i => exact ⟨_, d, rfl, Or.inl rfl⟩
  | write i pos bytes =>
    obtain ⟨hne, hpos⟩ := h
    have := List.length_pos_of_ne_nil hne
    exact ⟨.ok 1, _, Or.inl ⟨1, by omega, by omega, by omega, rfl, rfl⟩⟩
  | setLen i len => exact ⟨.ok (), _, Or.inl ⟨rfl, rfl⟩⟩
  | sync i => exact ⟨.ok (), d, rfl, Or.inl rfl⟩
  | syncDir => exact ⟨.ok (), d, rfl, Or.inl rfl⟩
  | rename src dst =>
    cases hx : d.find src with
    | some i => exact ⟨.ok (), _, Or.inl (by rw [hx]; exact ⟨rfl, rfl⟩)⟩
    | none => exact ⟨.error .notFound, _, Or.inl (by rw [hx]; exact ⟨rfl, rfl⟩)⟩
  | unlink x =>
    cases hx : d.find x with
    | some i => exact ⟨.ok (), _, Or.inl (by rw [hx]; exact ⟨rfl, rfl⟩)⟩
    | none => exact ⟨.error .notFound, _, Or.inl (by rw [hx]; exact ⟨rfl, rfl⟩)⟩

namespace Flows

variable {fails : Op N → Prop} {ε ε' σ τ : Type}

theorem exec {p : Prog (Resp (N := N)) α} {Q : α → Prop} (h : Flows fails p Q) (d : Disk N) :
    ∃ tr d' a, Exec (Step fails) d p tr d' (.pure a) ∧ Q a := by
  induction p generalizing d with
  | pure a => exact ⟨[], d, a, .refl _ _, h⟩
  | step o k ih =>
    obtain ⟨r, d₁, hs⟩ := exists_step fails d h.1
    obtain ⟨tr, d', a, hx, hQ⟩ := ih r (h.2 r ⟨d, d₁, hs⟩) d₁
    exact ⟨_, d', a, .step hs hx, hQ⟩

theorem finishes {p : Prog (Resp (N := N)) α} {Q : α → Prop} (h : Flows fails p Q) (d : Disk N) :
    ∃ d' a, Finishes (Step fails) d p d' a ∧ Q a := by
  obtain ⟨tr, d', a, hx, hQ⟩ := h.exec d
  exact ⟨d', a, ⟨tr, hx⟩, hQ⟩

theorem mono {p : Prog (Resp (N := N)) α} {Q Q' : α → Prop} (h : Flows fails p Q)
    (hQ : ∀ a, Q a → Q' a) : Flows fails p Q' := by
  induction p with
  | pure a => exact hQ a h
  | step o k ih => exact ⟨h.1, fun r hr => ih r (h.2 r hr)⟩

theorem bind {p : Prog (Resp (N := N)) α} {f : α → Prog (Resp (N := N)) β} {Q : β → Prop}
    (h : Flows fails p fun a => Flows fails (f a) Q) : Flows fails (p >>= f) Q := by
  induction p with
  | pure a => exact h
  | step o k ih => exact ⟨h.1, fun r hr => ih r (h.2 r hr)⟩

theorem bindP {t : Proc (Resp (N := N)) ε σ α} {f : α → Proc (Resp (N := N)) ε σ β}
    {Q : Except ε β × σ → Prop} {s : σ}
    (h : Flows fails (t s) fun x => match x with
      | (.ok a, s') => Flows fails (f a s') Q
      | (.error e, s') => Q (.error e, s')) : Flows fails ((t >>= f) s) Q := by
  rw [Proc.bind_apply]
  refine bind (h.mono ?_)
  rintro ⟨r, s'⟩ hx
  cases r with
  | ok a => exact hx
  | error e => exact hx

theorem getP {f : σ → Proc (Resp (N := N)) ε σ β} {Q : Except ε β × σ → Prop} {s : σ}
    (h : Flows fails (f s s) Q) : Flows fails ((Proc.get >>= f) s) Q := h

theorem modifyP {g : σ → σ} {f : Unit → Proc (Resp (N := N)) ε σ β} {Q : Except ε β × σ → Prop}
    {s : σ} (h : Flows fails (f () (g s)) Q) : Flows fails ((Proc.modify g >>= f) s) Q := h

theorem lift {p : Prog (Resp (N := N)) α} {Q : Except ε α × σ → Prop} {s : σ}
    (h : Flows fails p fun a => Q (.ok a, s)) :
    Flows fails ((Proc.lift p : Proc (Resp (N := N)) ε σ α) s) Q :=
  bind h

theorem liftE {p : Prog (Resp (N := N)) (Except ε α)} {Q : Except ε α × σ → Prop} {s : σ}
    (h : Flows fails p fun r => Q (r, s)) :
    Flows fails ((Proc.liftE p : Proc (Resp (N := N)) ε σ α) s) Q :=
  bind h

theorem attempt {t : Proc (Resp (N := N)) ε σ α} {Q : Except ε' (Except ε α) × σ → Prop} {s : σ}
    (h : Flows fails (t s) fun x => Q (.ok x.1, x.2)) :
    Flows fails ((t.attempt : Proc (Resp (N := N)) ε' σ (Except ε α)) s) Q :=
  bind h

theorem mapError {t : Proc (Resp (N := N)) ε σ α} {f : ε → ε'} {Q : Except ε' α × σ → Prop} {s : σ}
    (h : Flows fails (t s) fun x => Q (x.1.mapError f, x.2)) : Flows fails (t.mapError f s) Q :=
  bind h

theorem on {t : Proc (Resp (N := N)) ε τ α} {x : τ} {Q : Except ε (α × τ) × σ → Prop} {s : σ}
    (h : Flows fails (t x) fun y => Q (y.1.map (·, y.2), s)) : Flows fails (t.on x s) Q :=
  bind h

theorem op {o : Op N} {k : Resp o → Prog (Resp (N := N)) α} {Q : α → Prop} (ho : o.Ready)
    (h : ∀ r, Plausible fails o r → Flows fails (k r) Q) : Flows fails (.step o k) Q :=
  ⟨ho, h⟩

theorem readExactAux (fuel n : ℕ) (acc : List UInt8) (f : File)
    {Q : Except IoErrorKind (List UInt8) × File → Prop} (h : ∀ r p, Q (r, ⟨f.ino, p⟩)) :
    Flows fails (File.readExactAux N fuel n acc f) Q := by
  induction fuel generalizing n acc f with
  | zero => exact h _ _
  | succ fuel ih =>
    rw [File.readExactAux]
    split_ifs
    · exact h _ _
    · refine op trivial fun r _ => ?_
      cases r with
      | error k => exact h _ _
      | ok bytes =>
        change Flows fails ((if bytes = [] then Proc.throw .unexpectedEof
          else File.readExactAux N fuel (n - bytes.length) (acc ++ bytes) :
            FileProc N (List UInt8)) ⟨f.ino, f.pos + bytes.length⟩) Q
        split_ifs
        · exact h _ _
        · exact ih _ _ _ h

theorem writeAll {bytes : List UInt8} {f : File} (hmax : f.pos + bytes.length ≤ maxFileLen)
    {Q : Except IoErrorKind Unit × File → Prop}
    (hok : Q (.ok (), ⟨f.ino, f.pos + bytes.length⟩)) (herr : ∀ k p, Q (.error k, ⟨f.ino, p⟩)) :
    Flows fails (File.writeAll N bytes f) Q := by
  suffices ∀ fuel rest f, rest.length ≤ fuel → f.pos + rest.length ≤ maxFileLen →
      Q (.ok (), ⟨f.ino, f.pos + rest.length⟩) → (∀ k p, Q (.error k, ⟨f.ino, p⟩)) →
      Flows fails (File.writeAllAux N fuel rest f) Q from
    this bytes.length bytes f le_rfl hmax hok herr
  intro fuel
  induction fuel with
  | zero =>
    intro rest f hle _ hok _
    obtain rfl : rest = [] := List.length_eq_zero_iff.mp (by omega)
    simpa [File.writeAllAux, Flows] using hok
  | succ fuel ih =>
    intro rest f hle hmax hok herr
    rw [File.writeAllAux]
    split_ifs with hnil
    · subst hnil
      simpa [Flows] using hok
    · have hpos := List.length_pos_of_ne_nil hnil
      refine op ⟨hnil, by omega⟩ fun r hr => ?_
      obtain ⟨d, d', ⟨k, hk, hkl, -, rfl, -⟩ | ⟨-, rfl | rfl, -⟩⟩ := hr
      · change Flows fails ((if k = 0 then Proc.throw .writeZero
          else File.writeAllAux N fuel (rest.drop k) : FileProc N Unit) ⟨f.ino, f.pos + k⟩) Q
        rw [if_neg (by omega)]
        refine ih _ _ (by simp; omega) (by simp; omega) ?_ herr
        rw [List.length_drop, Nat.add_assoc, Nat.add_sub_cancel' hkl]
        exact hok
      · exact herr _ _
      · exact herr _ _

end Flows

def Free {ε σ : Type} (fails : Op N → Prop) (t : Proc (Resp (N := N)) ε σ α) : Prop :=
  ∀ s, Flows fails (t s) fun _ => True

namespace Free

variable {fails : Op N → Prop} {ε ε' σ τ : Type}

theorem pure (a : α) : Free fails (Pure.pure a : Proc (Resp (N := N)) ε σ α) := fun _ => trivial

theorem throw (e : ε) : Free fails (Proc.throw e : Proc (Resp (N := N)) ε σ α) := fun _ => trivial

theorem get : Free fails (Proc.get : Proc (Resp (N := N)) ε σ σ) := fun _ => trivial

theorem modify (g : σ → σ) : Free fails (Proc.modify g : Proc (Resp (N := N)) ε σ Unit) :=
  fun _ => trivial

theorem bind {t : Proc (Resp (N := N)) ε σ α} {f : α → Proc (Resp (N := N)) ε σ β}
    (h : Free fails t) (h' : ∀ a, Free fails (f a)) : Free fails (t >>= f) := by
  intro s
  refine Flows.bindP ((h s).mono ?_)
  rintro ⟨r, s'⟩ -
  cases r with
  | ok a => exact h' a s'
  | error e => trivial

theorem attempt {t : Proc (Resp (N := N)) ε σ α} (h : Free fails t) :
    Free fails (t.attempt : Proc (Resp (N := N)) ε' σ (Except ε α)) :=
  fun s => Flows.attempt (h s)

theorem mapError {t : Proc (Resp (N := N)) ε σ α} (h : Free fails t) (f : ε → ε') :
    Free fails (t.mapError f) :=
  fun s => Flows.mapError (h s)

theorem on {t : Proc (Resp (N := N)) ε τ α} {x : τ} (h : Flows fails (t x) fun _ => True) :
    Free fails (t.on x : Proc (Resp (N := N)) ε σ (α × τ)) :=
  fun _ => Flows.on h

theorem lift {o : Op N} (h : o.Ready) :
    Free fails (Proc.lift (Prog.op o) : Proc (Resp (N := N)) ε σ (Resp o)) :=
  fun _ => Flows.lift (Flows.op h fun _ _ => trivial)

theorem seek (pos : ℕ) : Free fails (File.seek N pos) :=
  fun _ => Flows.op trivial fun r _ => by cases r <;> trivial

theorem streamPosition : Free fails (File.streamPosition N) :=
  fun _ => Flows.op trivial fun r _ => by cases r <;> trivial

theorem len : Free fails (File.len N) :=
  fun _ => Flows.op trivial fun r _ => by cases r <;> trivial

theorem setLen (n : ℕ) : Free fails (File.setLen N n) :=
  fun _ => Flows.op trivial fun r _ => by cases r <;> trivial

theorem readExact (n : ℕ) : Free fails (File.readExact N n) :=
  fun f => Flows.readExactAux n n [] f fun _ _ => trivial

end Free
end FileIO
