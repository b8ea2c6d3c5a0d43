import OtkCore.Lib.Disk

/-!
# Simulated runs

A file system that answers by computation: it takes every byte it is given,
returns all it is asked for, and reports an error exactly where a list of flags
says so. What it computes is a run of the step relation.
-/
namespace FileIO

open Effect

variable {N α : Type}

/-- The error an operation reports when it fails. -/
def failure : (o : Op N) → Option (Resp o)
  | .now | .notify => none
  | .readDir | .dirEntry _ | .stat _ | .openRead _ | .openWrite _ _ | .fileLen _ | .write _ _ _
  | .read _ _ _ | .readAll _ | .makeDir | .seek _ | .setLen _ _ | .sync _ | .syncDir | .rename _ _
  | .unlink _ => some (.error .other)

variable [DecidableEq N]

/-- The answer of an operation that succeeds as well as it can. -/
def answer (clock : ℕ) (d : Disk N) : (o : Op N) → Option (Resp o × Disk N)
  | .now => if clock < 2 ^ 64 then some (clock, d) else none
  | .notify => some ((), d)
  | .makeDir => some (.ok (), d)
  | .readDir => some (.ok (d.dir.keys.map .known), d)
  | .dirEntry (.known x) => some (.ok (some x), d)
  | .dirEntry (.fresh _) => some (.ok none, d)
  | .stat x => some (match d.find x with
    | some i => .ok (d.data i).length
    | none => .error .notFound, d)
  | .openRead x => some (match d.find x with
    | some i => .ok i
    | none => .error .notFound, d)
  | .openWrite x truncate => match d.find x with
    | some i => some (.ok i, if truncate then d.setData i [] else d)
    | none => some (.ok d.next, d.create x)
  | .fileLen i => some (.ok (d.data i).length, d)
  | .seek _ => some (.ok (), d)
  | .read i pos len => some (.ok (((d.data i).drop pos).take len), d)
  | .readAll i => some (.ok (d.data i), d)
  | .write i pos bytes =>
    if 0 < bytes.length ∧ pos + bytes.length ≤ maxFileLen then
      some (.ok bytes.length, d.setData i (patch (d.data i) pos bytes))
    else none
  | .setLen i len => some (.ok (), d.setData i (resize (d.data i) len))
  | .sync _ => some (.ok (), d)
  | .syncDir => some (.ok (), d)
  | .rename src dst => match d.find src with
    | some i => some (.ok (), d.rename src dst i)
    | none => some (.error .notFound, d)
  | .unlink x => match d.find x with
    | some _ => some (.ok (), d.unlink x)
    | none => some (.error .notFound, d)

/-- Run a program; the flags say which operations fail, later ones do not. -/
def simulate (clock : ℕ) : Prog (Resp (N := N)) α → List Bool → Disk N → Option (Disk N × α)
  | .pure a, _, d => some (d, a)
  | .step o k, flags, d =>
    if flags.headD false then
      match failure o with
      | some r => simulate clock (k r) flags.tail d
      | none => none
    else
      match answer clock d o with
      | some (r, d') => simulate clock (k r) flags.tail d'
      | none => none

theorem step_of_answer {fails : Op N → Prop} {clock : ℕ} {d d' : Disk N} {o : Op N} {r : Resp o}
    (h : answer clock d o = some (r, d')) : Step fails d o r d' := by
  cases o with
  | now =>
    simp only [answer] at h
    split_ifs at h with hclock
    obtain ⟨rfl, rfl⟩ := Prod.mk.inj (Option.some.inj h)
    exact ⟨hclock, rfl⟩
  | notify | makeDir | syncDir =>
    obtain ⟨rfl, rfl⟩ := Prod.mk.inj (Option.some.inj h)
    simp [Step]
  | readDir =>
    obtain ⟨rfl, rfl⟩ := Prod.mk.inj (Option.some.inj h)
    refine ⟨rfl, Or.inl ⟨_, rfl, ?_, by simp⟩⟩
    simp [knownNames, List.filterMap_map]
  | dirEntry slot =>
    cases slot with
    | known x =>
      obtain ⟨rfl, rfl⟩ := Prod.mk.inj (Option.some.inj h)
      exact ⟨rfl, Or.inl rfl⟩
    | fresh present =>
      obtain ⟨rfl, rfl⟩ := Prod.mk.inj (Option.some.inj h)
      exact ⟨rfl, Or.inl rfl⟩
  | stat x | openRead x | fileLen x | seek x | readAll x | sync x =>
    obtain ⟨rfl, rfl⟩ := Prod.mk.inj (Option.some.inj h)
    exact ⟨rfl, Or.inl rfl⟩
  | openWrite x truncate =>
    refine Or.inl ?_
    cases hfind : d.find x with
    | some i =>
      simp only [answer, hfind] at h
      obtain ⟨rfl, rfl⟩ := Prod.mk.inj (Option.some.inj h)
      exact ⟨rfl, rfl⟩
    | none =>
      simp only [answer, hfind] at h
      obtain ⟨rfl, rfl⟩ := Prod.mk.inj (Option.some.inj h)
      exact ⟨rfl, rfl⟩
  | read i pos len =>
    obtain ⟨rfl, rfl⟩ := Prod.mk.inj (Option.some.inj h)
    exact ⟨rfl, Or.inl ⟨len, le_rfl, rfl, by omega⟩⟩
  | write i pos bytes =>
    simp only [answer] at h
    split_ifs at h with hroom
    obtain ⟨rfl, rfl⟩ := Prod.mk.inj (Option.some.inj h)
    refine Or.inl ⟨bytes.length, hroom.1, le_rfl, hroom.2, rfl, ?_⟩
    rw [List.take_length]
  | setLen i len =>
    obtain ⟨rfl, rfl⟩ := Prod.mk.inj (Option.some.inj h)
    exact Or.inl ⟨rfl, rfl⟩
  | rename src dst | unlink src =>
    refine Or.inl ?_
    cases hfind : d.find src with
    | some i =>
      simp only [answer, hfind] at h
      obtain ⟨rfl, rfl⟩ := Prod.mk.inj (Option.some.inj h)
      exact ⟨rfl, rfl⟩
    | none =>
      simp only [answer, hfind] at h
      obtain ⟨rfl, rfl⟩ := Prod.mk.inj (Option.some.inj h)
      exact ⟨rfl, rfl⟩

theorem step_of_failure {fails : Op N → Prop} (d : Disk N) {o : Op N} (ho : fails o) {r : Resp o}
    (h : failure o = some r) : Step fails d o r d := by
  cases o with
  | now | notify => simp [failure] at h
  | dirEntry slot =>
    obtain rfl := Option.some.inj h
    cases slot <;> exact ⟨rfl, Or.inr (Or.inr ⟨ho, rfl⟩)⟩
  | openWrite x truncate | setLen x len | rename x y | unlink x =>
    obtain rfl := Option.some.inj h
    exact Or.inr ⟨ho, rfl, rfl⟩
  | write i pos bytes =>
    obtain rfl := Option.some.inj h
    exact Or.inr ⟨ho, Or.inr rfl, rfl⟩
  | makeDir | readDir | syncDir | stat x | openRead x | fileLen x | seek x | read x pos len
  | readAll x | sync x =>
    obtain rfl := Option.some.inj h
    exact ⟨rfl, Or.inr ⟨ho, rfl⟩⟩

theorem finishes_of_simulate {fails : Op N → Prop} {clock : ℕ} {p : Prog (Resp (N := N)) α}
    {flags : List Bool} (hflags : true ∈ flags → ∀ o, fails o) {d d' : Disk N} {a : α}
    (h : simulate clock p flags d = some (d', a)) : Finishes (Step fails) d p d' a := by
  induction p generalizing flags d with
  | pure b =>
    obtain ⟨rfl, rfl⟩ := Prod.mk.inj (Option.some.inj h)
    exact ⟨[], .refl _ _⟩
  | step o k ih =>
    have htail : true ∈ flags.tail → ∀ o, fails o := fun ht => hflags (List.mem_of_mem_tail ht)
    rw [simulate] at h
    split_ifs at h with hhead
    · have hmem : true ∈ flags := by
        cases flags with
        | nil => simp at hhead
        | cons flag flags => exact hhead ▸ List.mem_cons_self
      split at h
      · rename_i r hr
        obtain ⟨tr, hx⟩ := ih r htail h
        exact ⟨_, .step (step_of_failure d (hflags hmem o) hr) hx⟩
      · cases h
    · split at h
      · rename_i r d₁ hr
        obtain ⟨tr, hx⟩ := ih r htail h
        exact ⟨_, .step (step_of_answer hr) hx⟩
      · cases h

def value? : Prog (Resp (N := N)) α → Option α
  | .pure a => some a
  | .step _ _ => none

omit [DecidableEq N] in
theorem eq_pure_of_value? {p : Prog (Resp (N := N)) α} {a : α} (h : value? p = some a) :
    p = .pure a := by
  cases p with
  | pure b => exact congrArg Prog.pure (Option.some.inj h)
  | step o k => cases h

/-- The first `n` operations of a program; of those that may fail the flags say
which do. -/
def simulateSteps (may : Op N → Bool) (clock : ℕ) : ℕ → Prog (Resp (N := N)) α → List Bool →
    Disk N → Option (Disk N × List (Event (Resp (N := N))) × Prog (Resp (N := N)) α)
  | 0, p, _, d => some (d, [], p)
  | _ + 1, .pure a, _, d => some (d, [], .pure a)
  | n + 1, .step o k, flags, d =>
    if may o && flags.headD false then
      match failure o with
      | some r => (simulateSteps may clock n (k r) flags.tail d).map fun x =>
          (x.1, ⟨o, r⟩ :: x.2.1, x.2.2)
      | none => none
    else
      match answer clock d o with
      | some (r, d') => (simulateSteps may clock n (k r) (if may o then flags.tail else flags)
          d').map fun x => (x.1, ⟨o, r⟩ :: x.2.1, x.2.2)
      | none => none

theorem exec_of_simulateSteps {may : Op N → Bool} {clock n : ℕ} {p rest : Prog (Resp (N := N)) α}
    {flags : List Bool} {d d' : Disk N} {tr : List (Event (Resp (N := N)))}
    (h : simulateSteps may clock n p flags d = some (d', tr, rest)) :
    Exec (Step fun o => may o = true) d p tr d' rest := by
  induction n generalizing p flags d tr with
  | zero =>
    cases h
    exact .refl _ _
  | succ n ih =>
    cases p with
    | pure a =>
      cases h
      exact .refl _ _
    | step o k =>
      rw [simulateSteps] at h
      split_ifs at h with hfail hmay
      · split at h
        · rename_i r hr
          obtain ⟨⟨d₁, tr₁, rest₁⟩, hsim, heq⟩ := Option.map_eq_some_iff.mp h
          cases heq
          exact .step (step_of_failure d (Bool.and_eq_true_iff.mp hfail).1 hr) (ih hsim)
        · cases h
      all_goals
        split at h
        · rename_i r d₁ hr
          obtain ⟨⟨d₂, tr₁, rest₁⟩, hsim, heq⟩ := Option.map_eq_some_iff.mp h
          cases heq
          exact .step (step_of_answer hr) (ih hsim)
        · cases h

/-- What a program leaves and returns within `n` operations. -/
def simulateMay (may : Op N → Bool) (clock n : ℕ) (p : Prog (Resp (N := N)) α) (flags : List Bool)
    (d : Disk N) : Option (Disk N × α) :=
  (simulateSteps may clock n p flags d).bind fun x => (value? x.2.2).map (x.1, ·)

theorem finishes_of_simulateMay {may : Op N → Bool} {clock n : ℕ} {p : Prog (Resp (N := N)) α}
    {flags : List Bool} {d d' : Disk N} {a : α}
    (h : simulateMay may clock n p flags d = some (d', a)) :
    Finishes (Step fun o => may o = true) d p d' a := by
  obtain ⟨⟨d₁, tr, rest⟩, hsim, hdone⟩ := Option.bind_eq_some_iff.mp h
  obtain ⟨a₁, hvalue, heq⟩ := Option.map_eq_some_iff.mp hdone
  obtain ⟨rfl, rfl⟩ := Prod.mk.inj heq
  obtain rfl : rest = .pure a₁ := eq_pure_of_value? hvalue
  exact ⟨tr, exec_of_simulateSteps hsim⟩

end FileIO
