import OtkCore.Lib.Progress
import OtkCore.Lib.Refinement
import OtkCore.Lib.Stopped

/-!
# Handles that queue their writes

An asynchronous handle takes a piece of what it is to write, lets a worker write
it, and reports what became of it only with the next write; every other call
waits for the worker and keeps its error. The worker writes at once here. Where
no write fails, a program on such handles does what it would do on plain ones
(`Mirrors`).
-/
namespace FileIO

open Effect

variable {N : Type}

/-- An open file with the error of a write that nobody has been told of. -/
structure QueuedFile where
  file : File
  failed : Option IoErrorKind
  deriving DecidableEq, Repr

abbrev QueuedProc (N α : Type) : Type := Proc (Resp (N := N)) IoErrorKind QueuedFile α

namespace QueuedFile

def clean (f : File) : QueuedFile := ⟨f, none⟩

/-- Most bytes that are handed to the worker at once. -/
def maxBufSize : ℕ := 2 * 1024 * 1024

variable (N)

/-- One `poll_write`. The worker's error is kept, and the next call returns it
and writes nothing. -/
def pollWrite (bytes : List UInt8) : QueuedProc N ℕ := do
  let h ← Proc.get
  match h.failed with
  | some k => do
    Proc.modify fun h => { h with failed := none }
    Proc.throw k
  | none => do
    let chunk := bytes.take maxBufSize
    let (r, file) ← (Proc.attempt (File.writeAll N chunk) : FileProc N _).on h.file
    match r with
    | .ok () => Proc.modify fun h => { h with file := file }
    | .error k => Proc.modify fun _ => ⟨file, some k⟩
    pure chunk.length

/-- `write_all`: repeated calls until all bytes are taken. -/
def writeAllAux : ℕ → List UInt8 → QueuedProc N Unit
  | 0, _ => pure ()
  | fuel + 1, bytes =>
    if bytes = [] then pure ()
    else do
      let n ← pollWrite N bytes
      writeAllAux fuel (bytes.drop n)

def writeAll (bytes : List UInt8) : QueuedProc N Unit :=
  writeAllAux N bytes.length bytes

end QueuedFile

variable {α α' β β' γ γ' ε ε' σ σ' τ τ' : Type}

/-- The first program does what the second one does, and ends with `f` of what
the second one ends with, as long as no write fails. It may hand over what it
writes in smaller pieces. -/
inductive Mirrors (f : β → α) : Prog (Resp (N := N)) α → Prog (Resp (N := N)) β → Prop
  | pure (b : β) : Mirrors f (.pure (f b)) (.pure b)
  | step (o : Op N) {k : Resp o → Prog Resp α} {k' : Resp o → Prog Resp β} :
      (∀ r, Mirrors f (k r) (k' r)) → Mirrors f (.step o k) (.step o k')
  | write {ino pos : ℕ} {chunk bytes : List UInt8}
      {k : Resp (N := N) (.write ino pos chunk) → Prog Resp α}
      {k' : Resp (N := N) (.write ino pos bytes) → Prog Resp β} :
      chunk ≠ [] → chunk <+: bytes →
      (∀ n, 0 < n → n ≤ chunk.length → Mirrors f (k (.ok n)) (k' (.ok n))) →
      Mirrors f (.step (.write ino pos chunk) k) (.step (.write ino pos bytes) k')

namespace Mirrors

theorem map (f : β → α) (p : Prog (Resp (N := N)) β) :
    Mirrors f (p >>= fun b => .pure (f b)) p := by
  induction p with
  | pure b => exact .pure b
  | step o k ih => exact .step o ih

theorem refl (p : Prog (Resp (N := N)) α) : Mirrors id p p := by
  induction p with
  | pure b => exact .pure b
  | step o k ih => exact .step o ih

theorem bind {f : β → α} {g : γ → γ'} {q : Prog (Resp (N := N)) α} {p : Prog (Resp (N := N)) β}
    (h : Mirrors f q p) {k : α → Prog (Resp (N := N)) γ'} {k' : β → Prog (Resp (N := N)) γ}
    (hk : ∀ b, Mirrors g (k (f b)) (k' b)) : Mirrors g (q >>= k) (p >>= k') := by
  induction h with
  | pure b => exact hk b
  | step o _ ih => exact .step o ih
  | write hne hpre _ ih => exact .write hne hpre ih

theorem done (f : σ → σ') (x : Except ε α × σ) :
    Mirrors (N := N) (fun x : Except ε α × σ => (x.1, f x.2)) (.pure (x.1, f x.2)) (.pure x) :=
  .pure x

end Mirrors

/-- The same of procedures: the state of the first one is `f` of the state of the
second one. -/
def MirrorsP (f : σ → σ') (t' : Proc (Resp (N := N)) ε σ' α) (t : Proc (Resp (N := N)) ε σ α) :
    Prop :=
  ∀ s, Mirrors (fun x => (x.1, f x.2)) (t' (f s)) (t s)

namespace MirrorsP

variable {f : σ → σ'} {g : τ → τ'}

theorem pure (a : α) : MirrorsP f (pure a : Proc (Resp (N := N)) ε σ' α) (Pure.pure a) :=
  fun s => .done f (.ok a, s)

theorem throw (e : ε) :
    MirrorsP f (Proc.throw e : Proc (Resp (N := N)) ε σ' α) (Proc.throw e) :=
  fun s => .done f (.error e, s)

theorem bind {t' : Proc (Resp (N := N)) ε σ' α} {t : Proc (Resp (N := N)) ε σ α}
    {k' : α → Proc (Resp (N := N)) ε σ' β} {k : α → Proc (Resp (N := N)) ε σ β}
    (h : MirrorsP f t' t) (hk : ∀ a, MirrorsP f (k' a) (k a)) :
    MirrorsP f (t' >>= k') (t >>= k) := by
  intro s
  rw [Proc.bind_apply, Proc.bind_apply]
  refine (h s).bind ?_
  rintro ⟨r, s₁⟩
  cases r with
  | ok a => exact hk a s₁
  | error e => exact .done f (.error e, s₁)

theorem bind_get {k' : σ' → Proc (Resp (N := N)) ε σ' β} {k : σ → Proc (Resp (N := N)) ε σ β}
    (hk : ∀ s, MirrorsP f (k' (f s)) (k s)) : MirrorsP f (Proc.get >>= k') (Proc.get >>= k) :=
  fun s => hk s s

theorem modify {u' : σ' → σ'} {u : σ → σ} (h : ∀ s, u' (f s) = f (u s)) :
    MirrorsP f (Proc.modify u' : Proc (Resp (N := N)) ε σ' Unit) (Proc.modify u) := by
  intro s
  rw [Proc.modify_apply, Proc.modify_apply, h]
  exact .done f (.ok (), u s)

theorem lift (p : Prog (Resp (N := N)) α) :
    MirrorsP f (Proc.lift p : Proc (Resp (N := N)) ε σ' α) (Proc.lift p) :=
  fun s => (Mirrors.refl p).bind fun a => .done f (.ok a, s)

theorem liftE (p : Prog (Resp (N := N)) (Except ε α)) :
    MirrorsP f (Proc.liftE p) (Proc.liftE p) :=
  fun s => (Mirrors.refl p).bind fun r => .done f (r, s)

theorem attempt {t' : Proc (Resp (N := N)) ε σ' α} {t : Proc (Resp (N := N)) ε σ α}
    (h : MirrorsP f t' t) :
    MirrorsP f (t'.attempt : Proc (Resp (N := N)) ε' σ' (Except ε α)) t.attempt :=
  fun s => (h s).bind fun x => .done f (.ok x.1, x.2)

theorem mapError {t' : Proc (Resp (N := N)) ε σ' α} {t : Proc (Resp (N := N)) ε σ α}
    (h : MirrorsP f t' t) (e : ε → ε') : MirrorsP f (t'.mapError e) (t.mapError e) :=
  fun s => (h s).bind fun x => .done f (x.1.mapError e, x.2)

theorem on (t : Proc (Resp (N := N)) ε τ α) (x : τ) : MirrorsP f (t.on x) (t.on x) :=
  fun s => (Mirrors.refl (t x)).bind fun y => .done f (y.1.map (·, y.2), s)

theorem bind_on {t' : Proc (Resp (N := N)) ε τ' α} {t : Proc (Resp (N := N)) ε τ α}
    {k' : α × τ' → Proc (Resp (N := N)) ε σ' β} {k : α × τ → Proc (Resp (N := N)) ε σ β}
    (h : MirrorsP g t' t) (x : τ) (hk : ∀ a y, MirrorsP f (k' (a, g y)) (k (a, y))) :
    MirrorsP f (t'.on (g x) >>= k') (t.on x >>= k) := by
  intro s
  simp only [Proc.bind_apply, Proc.on, Prog.bind_assoc]
  refine (h x).bind ?_
  rintro ⟨r, y⟩
  cases r with
  | ok a => exact hk a y s
  | error e => exact .done f (.error e, s)

theorem zoom {view : σ' → τ} {update : τ → σ' → σ'} {t : Proc (Resp (N := N)) ε τ α}
    {f : τ → σ'} (hview : ∀ x, view (f x) = x) (hupdate : ∀ x y, update y (f x) = f y) :
    MirrorsP f (t.zoom view update) t := by
  intro x
  have hsame : (fun y : Except ε α × τ => (.pure (y.1, update y.2 (f x)) :
      Prog (Resp (N := N)) (Except ε α × σ'))) = fun y => .pure (y.1, f y.2) := by
    funext y
    rw [hupdate]
  rw [Proc.zoom, hview]
  exact hsame ▸ Mirrors.map _ (t x)

end MirrorsP

theorem mirrors_chunk {f : β → α} {k : Except IoErrorKind Unit × File → Prog (Resp (N := N)) α}
    {k' : Except IoErrorKind Unit × File → Prog (Resp (N := N)) β} {ino : ℕ} {more : List UInt8}
    (hk : ∀ fuel pos, more.length ≤ fuel → Mirrors f (k (.ok (), ⟨ino, pos⟩))
      (File.writeAllAux N fuel more ⟨ino, pos⟩ >>= k')) :
    ∀ fuel fuel' chunk pos, chunk.length ≤ fuel → chunk.length + more.length ≤ fuel' →
      Mirrors f (File.writeAllAux N fuel chunk ⟨ino, pos⟩ >>= k)
        (File.writeAllAux N fuel' (chunk ++ more) ⟨ino, pos⟩ >>= k') := by
  intro fuel
  induction fuel with
  | zero =>
    intro fuel' chunk pos hfuel hfuel'
    obtain rfl := List.length_eq_zero_iff.mp (Nat.le_zero.mp hfuel)
    exact hk fuel' pos (by simpa using hfuel')
  | succ fuel ih =>
    intro fuel' chunk pos hfuel hfuel'
    by_cases hnil : chunk = []
    · subst hnil
      exact hk fuel' pos (by simpa using hfuel')
    have hpos := List.length_pos_of_ne_nil hnil
    obtain ⟨fuel', rfl⟩ := Nat.exists_eq_add_one_of_ne_zero (show fuel' ≠ 0 by omega)
    rw [File.writeAllAux, if_neg hnil, File.writeAllAux, if_neg (by simp [hnil])]
    refine .write hnil (List.prefix_append _ _) fun n hn hle => ?_
    have hlen : (chunk.drop n).length = chunk.length - n := List.length_drop
    have hrest := ih fuel' (chunk.drop n) (pos + n) (by omega) (by omega)
    rw [← List.drop_append_of_le_length hle] at hrest
    change Mirrors f ((if n = 0 then Proc.throw .writeZero
      else File.writeAllAux N fuel (chunk.drop n) : FileProc N Unit) ⟨ino, pos + n⟩ >>= k)
      ((if n = 0 then Proc.throw .writeZero
        else File.writeAllAux N fuel' ((chunk ++ more).drop n) : FileProc N Unit)
          ⟨ino, pos + n⟩ >>= k')
    rw [if_neg (by omega), if_neg (by omega)]
    exact hrest

theorem pollWrite_clean (bytes : List UInt8) (f : File)
    (k : ℕ → QueuedProc N α) :
    (QueuedFile.pollWrite N bytes >>= k) (.clean f) =
      File.writeAll N (bytes.take QueuedFile.maxBufSize) f >>= fun x =>
        k (bytes.take QueuedFile.maxBufSize).length (match x.1 with
          | .ok () => .clean x.2
          | .error e => ⟨x.2, some e⟩) := by
  have hpoll : QueuedFile.pollWrite N bytes (.clean f) =
      File.writeAll N (bytes.take QueuedFile.maxBufSize) f >>= fun x =>
        .pure (.ok (bytes.take QueuedFile.maxBufSize).length, match x.1 with
          | .ok () => .clean x.2
          | .error e => ⟨x.2, some e⟩) := by
    unfold QueuedFile.pollWrite
    simp only [Proc.bind_apply, Proc.get_apply, Prog.pure_bind, QueuedFile.clean, Proc.on,
      Proc.attempt, Prog.bind_assoc]
    congr 1
    funext x
    obtain ⟨r, file⟩ := x
    cases r with
    | ok _ => rfl
    | error e => rfl
  rw [Proc.bind_apply, hpoll, Prog.bind_assoc]
  rfl

/-- One piece at least is taken from what there is to write. -/
theorem split_chunk {bytes : List UInt8} (hne : bytes ≠ []) :
    bytes.take QueuedFile.maxBufSize ++
        bytes.drop (bytes.take QueuedFile.maxBufSize).length = bytes ∧
      0 < (bytes.take QueuedFile.maxBufSize).length := by
  have hpos := List.length_pos_of_ne_nil hne
  have hmax : 0 < QueuedFile.maxBufSize := by decide
  rw [List.length_take]
  refine ⟨?_, by omega⟩
  rcases Nat.le_total QueuedFile.maxBufSize bytes.length with hle | hle
  · rw [Nat.min_eq_left hle, List.take_append_drop]
  · rw [Nat.min_eq_right hle, List.take_of_length_le hle, List.drop_length, List.append_nil]

theorem mirrors_writeAllAux : ∀ fuel fuel' bytes ino pos, bytes.length ≤ fuel →
    bytes.length ≤ fuel' →
    Mirrors (fun x => (x.1, QueuedFile.clean x.2))
      (QueuedFile.writeAllAux N fuel bytes (.clean ⟨ino, pos⟩))
      (File.writeAllAux N fuel' bytes ⟨ino, pos⟩) := by
  intro fuel
  induction fuel with
  | zero =>
    intro fuel' bytes ino pos hfuel hfuel'
    obtain rfl := List.length_eq_zero_iff.mp (Nat.le_zero.mp hfuel)
    cases fuel' with
    | zero => exact .done QueuedFile.clean (.ok (), ⟨ino, pos⟩)
    | succ fuel' => exact .done QueuedFile.clean (.ok (), ⟨ino, pos⟩)
  | succ fuel ih =>
    intro fuel' bytes ino pos hfuel hfuel'
    by_cases hnil : bytes = []
    · subst hnil
      cases fuel' with
      | zero => exact .done QueuedFile.clean (.ok (), ⟨ino, pos⟩)
      | succ fuel' => exact .done QueuedFile.clean (.ok (), ⟨ino, pos⟩)
    obtain ⟨hsplit, hsome⟩ := split_chunk hnil
    generalize hchunk : bytes.take QueuedFile.maxBufSize = chunk at hsplit hsome
    have hlen := congrArg List.length hsplit
    rw [List.length_append] at hlen
    have hplain : File.writeAllAux N fuel' bytes ⟨ino, pos⟩ =
        (File.writeAllAux N fuel' (chunk ++ bytes.drop chunk.length) ⟨ino, pos⟩ >>= Prog.pure) := by
      rw [hsplit, Prog.bind_pure_right]
    rw [QueuedFile.writeAllAux, if_neg hnil, pollWrite_clean, hchunk, hplain]
    refine mirrors_chunk (fun fuel₁ pos₁ hfuel₁ => ?_) _ _ _ _ le_rfl (by omega)
    rw [Prog.bind_pure_right]
    exact ih fuel₁ _ ino pos₁ (by omega) hfuel₁

/-- Writing through a queue is writing, as long as no write fails. -/
theorem mirrors_writeAll (bytes : List UInt8) :
    MirrorsP QueuedFile.clean (QueuedFile.writeAll N bytes) (File.writeAll N bytes) :=
  fun f => mirrors_writeAllAux _ _ bytes f.ino f.pos le_rfl le_rfl

theorem pollWrite_failed (bytes : List UInt8) (f : File) (e : IoErrorKind)
    (k : ℕ → QueuedProc N α) :
    (QueuedFile.pollWrite N bytes >>= k) ⟨f, some e⟩ = .pure (.error e, .clean f) := rfl

/-- The error of an earlier write comes back, and nothing is written. -/
theorem writeAll_failed {bytes : List UInt8} (hne : bytes ≠ []) (f : File) (e : IoErrorKind) :
    QueuedFile.writeAll N bytes ⟨f, some e⟩ = .pure (.error e, .clean f) := by
  obtain ⟨fuel, hfuel⟩ := Nat.exists_eq_add_one_of_ne_zero
    (Nat.pos_iff_ne_zero.mp (List.length_pos_of_ne_nil hne))
  rw [QueuedFile.writeAll, hfuel, QueuedFile.writeAllAux, if_neg hne]
  exact pollWrite_failed bytes f e _

theorem writeAllAux_succ {bytes : List UInt8} (hne : bytes ≠ []) (fuel ino pos : ℕ) :
    File.writeAllAux N (fuel + 1) bytes ⟨ino, pos⟩ = .step (.write ino pos bytes) fun r =>
      match (r : Except IoErrorKind ℕ) with
      | .ok n => (if n = 0 then Proc.throw .writeZero
          else File.writeAllAux N fuel (bytes.drop n) : FileProc N Unit) ⟨ino, pos + n⟩
      | .error k => .pure (.error k, ⟨ino, pos⟩) := by
  rw [File.writeAllAux, if_neg hne]
  have hstep : ∀ t : ℕ → FileProc N Unit, (File.writeSome N bytes >>= t) ⟨ino, pos⟩ =
      .step (.write ino pos bytes) fun r => match (r : Except IoErrorKind ℕ) with
        | .ok n => t n ⟨ino, pos + n⟩
        | .error k => .pure (.error k, ⟨ino, pos⟩) := by
    intro t
    refine congrArg (Prog.step _) (funext fun r => ?_)
    cases r with
    | ok n => rfl
    | error k => rfl
  exact hstep _

theorem writeAllAux_nil (fuel : ℕ) (h : QueuedFile) :
    QueuedFile.writeAllAux N fuel [] h = .pure (.ok (), h) := by
  cases fuel with
  | zero => rfl
  | succ fuel => rfl

section Reported

variable [DecidableEq N] {fails fails' : Op N → Prop} {d d' : Disk N}
  (hwrite : ∀ i p b, fails' (.write i p b))

include hwrite

/-- A piece, where any write of the whole may fail. -/
theorem finishes_chunk {ino : ℕ} (more : List UInt8) {r : Except IoErrorKind Unit} {f : File} :
    ∀ fuel chunk pos {d : Disk N}, chunk.length ≤ fuel →
    Finishes (Step fails) d (File.writeAllAux N fuel chunk ⟨ino, pos⟩) d' (r, f) →
    f.ino = ino ∧ pos ≤ f.pos ∧
    (r = .ok () ∧ f.pos = pos + chunk.length ∧ (∀ {d₁ x}, (∀ fuel', more.length ≤ fuel' →
        Finishes (Step fails') d' (File.writeAllAux N fuel' more f) d₁ x) →
      ∀ fuel', chunk.length + more.length ≤ fuel' →
        Finishes (Step fails') d (File.writeAllAux N fuel' (chunk ++ more) ⟨ino, pos⟩) d₁ x) ∨
    ∃ k p b, r = .error k ∧ fails (.write ino p b) ∧ b ≠ [] ∧ p + b.length = pos + chunk.length ∧
      ∀ fuel', chunk.length + more.length ≤ fuel' →
        Finishes (Step fails') d (File.writeAllAux N fuel' (chunk ++ more) ⟨ino, pos⟩) d'
          (.error k, f)) := by
  intro fuel
  induction fuel with
  | zero =>
    intro chunk pos d hfuel hx
    obtain rfl := List.length_eq_zero_iff.mp (Nat.le_zero.mp hfuel)
    obtain ⟨rfl, rfl, rfl⟩ := hx.pureP_inv
    exact ⟨rfl, le_rfl, Or.inl ⟨rfl, rfl, fun h fuel' hf => h fuel' (by simpa using hf)⟩⟩
  | succ fuel ih =>
    intro chunk pos d hfuel hx
    by_cases hnil : chunk = []
    · subst hnil
      rw [File.writeAllAux, if_pos rfl] at hx
      obtain ⟨rfl, rfl, rfl⟩ := hx.pureP_inv
      exact ⟨rfl, le_rfl, Or.inl ⟨rfl, rfl, fun h fuel' hf => h fuel' (by simpa using hf)⟩⟩
    have hpos := List.length_pos_of_ne_nil hnil
    have hboth : chunk ++ more ≠ [] := by simp [hnil]
    rw [writeAllAux_succ hnil] at hx
    obtain ⟨tr, hx⟩ := hx
    cases hx with
    | step hs hrest =>
    obtain ⟨n, hn, hle, hmax, rfl, rfl⟩ | ⟨hf, hr, rfl⟩ := hs
    · dsimp only at hrest
      rw [if_neg (show n ≠ 0 by omega)] at hrest
      have hlen : (chunk.drop n).length = chunk.length - n := List.length_drop
      have hdrop : (chunk ++ more).drop n = chunk.drop n ++ more :=
        List.drop_append_of_le_length hle
      -- The write of the whole takes what the write of the piece has taken.
      have hlift : ∀ {d₁ x}, (∀ fuel', (chunk.drop n).length + more.length ≤ fuel' →
          Finishes (Step fails') (d.setData ino (patch (d.data ino) pos (chunk.take n)))
            (File.writeAllAux N fuel' (chunk.drop n ++ more) ⟨ino, pos + n⟩) d₁ x) →
          ∀ fuel', chunk.length + more.length ≤ fuel' →
            Finishes (Step fails') d (File.writeAllAux N fuel' (chunk ++ more) ⟨ino, pos⟩) d₁ x := by
        intro d₁ x h fuel' hfuel'
        obtain ⟨fuel', rfl⟩ := Nat.exists_eq_add_one_of_ne_zero (show fuel' ≠ 0 by omega)
        have hx' := h fuel' (by omega)
        rw [← hdrop] at hx'
        rw [writeAllAux_succ hboth]
        refine .step (r := .ok n) (Or.inl ⟨n, hn, ?_, hmax, rfl, rfl⟩) ?_
        · rw [List.length_append]
          omega
        · rw [List.take_append_of_le_length hle]
          dsimp only
          rw [if_neg (show n ≠ 0 by omega)]
          exact hx'
      obtain ⟨hino, hge, hcase⟩ := ih (chunk.drop n) (pos + n) (by omega) ⟨_, hrest⟩
      refine ⟨hino, by omega, ?_⟩
      rcases hcase with ⟨rfl, hend, hgo⟩ | ⟨k, p, b, rfl, hfail, hb, hend, hgo⟩
      · exact Or.inl ⟨rfl, by omega, fun h => hlift (hgo h)⟩
      · exact Or.inr ⟨k, p, b, rfl, hfail, hb, by omega, hlift hgo⟩
    · -- Nothing is taken: the write of the whole reports the same.
      rcases hr with rfl | rfl
      · dsimp only at hrest
        rw [if_pos rfl] at hrest
        obtain ⟨rfl, rfl, rfl⟩ := Finishes.pureP_inv ⟨_, hrest⟩
        refine ⟨rfl, le_rfl, Or.inr ⟨.writeZero, pos, chunk, rfl, hf, hnil, rfl,
          fun fuel' hfuel' => ?_⟩⟩
        obtain ⟨fuel', rfl⟩ := Nat.exists_eq_add_one_of_ne_zero (show fuel' ≠ 0 by omega)
        rw [writeAllAux_succ hboth]
        exact .step (r := .ok 0) (Or.inr ⟨hwrite _ _ _, Or.inl rfl, rfl⟩) (.pure _ _ _)
      · obtain ⟨rfl, rfl, rfl⟩ := Finishes.pureP_inv ⟨_, hrest⟩
        refine ⟨rfl, le_rfl, Or.inr ⟨.other, pos, chunk, rfl, hf, hnil, rfl,
          fun fuel' hfuel' => ?_⟩⟩
        obtain ⟨fuel', rfl⟩ := Nat.exists_eq_add_one_of_ne_zero (show fuel' ≠ 0 by omega)
        rw [writeAllAux_succ hboth]
        exact .step (r := .error .other) (Or.inr ⟨hwrite _ _ _, Or.inr rfl, rfl⟩)
          (.pure _ _ _)

omit hwrite in
theorem finishes_nil (fuel : ℕ) (d : Disk N) (f : File) :
    Finishes (Step fails') d (File.writeAllAux N fuel [] f) d (.ok (), f) := by
  cases fuel with
  | zero => exact .pure _ _ _
  | succ fuel => exact .pure _ _ _

/-- Writing through the queue ends as writing at once, unless it is the write of
the last bytes that fails: then the handle keeps its error. -/
theorem finishes_writeAllAux {ino : ℕ} {r : Except IoErrorKind Unit} {h : QueuedFile} :
    ∀ fuel bytes pos {d : Disk N}, bytes.length ≤ fuel →
    Finishes (Step fails) d (QueuedFile.writeAllAux N fuel bytes (.clean ⟨ino, pos⟩)) d' (r, h) →
    h.file.ino = ino ∧ pos ≤ h.file.pos ∧
    (h.failed = none ∧ (r = .ok () → h.file.pos = pos + bytes.length) ∧
      (∀ fuel', bytes.length ≤ fuel' →
        Finishes (Step fails') d (File.writeAllAux N fuel' bytes ⟨ino, pos⟩) d' (r, h.file)) ∨
    r = .ok () ∧ ∃ k p b, h.failed = some k ∧ fails (.write ino p b) ∧ b ≠ [] ∧
      p + b.length = pos + bytes.length ∧ ∀ fuel', bytes.length ≤ fuel' →
        Finishes (Step fails') d (File.writeAllAux N fuel' bytes ⟨ino, pos⟩) d'
          (.error k, h.file)) := by
  intro fuel
  induction fuel with
  | zero =>
    intro bytes pos d hfuel hx
    obtain rfl := List.length_eq_zero_iff.mp (Nat.le_zero.mp hfuel)
    obtain ⟨rfl, rfl, rfl⟩ := hx.pureP_inv
    exact ⟨rfl, le_rfl, Or.inl ⟨rfl, fun _ => rfl, fun fuel' _ => finishes_nil fuel' _ _⟩⟩
  | succ fuel ih =>
    intro bytes pos d hfuel hx
    by_cases hnil : bytes = []
    · subst hnil
      obtain ⟨rfl, rfl, rfl⟩ := hx.pureP_inv
      exact ⟨rfl, le_rfl, Or.inl ⟨rfl, fun _ => rfl, fun fuel' _ => finishes_nil fuel' _ _⟩⟩
    rw [QueuedFile.writeAllAux, if_neg hnil, pollWrite_clean] at hx
    obtain ⟨hsplit, hsome⟩ := split_chunk hnil
    generalize bytes.take QueuedFile.maxBufSize = chunk at hx hsplit hsome
    have hlen := congrArg List.length hsplit
    rw [List.length_append] at hlen
    obtain ⟨⟨r₁, f₁⟩, d₁, hchunk, hrest⟩ := hx.bind_inv
    obtain ⟨hino, hge, hcase⟩ := finishes_chunk hwrite (bytes.drop chunk.length) _ chunk pos
      le_rfl hchunk
    obtain ⟨ino₁, pos₁⟩ := f₁
    obtain rfl : ino₁ = ino := hino
    dsimp only at hge hcase
    rcases hcase with ⟨rfl, rfl, hgo⟩ | ⟨k, p, b, rfl, hfail, hb, hend, hgo⟩
    · obtain ⟨hino', hge', hcase'⟩ := ih (bytes.drop chunk.length) (pos + chunk.length) (by omega)
        hrest
      refine ⟨hino', by omega, ?_⟩
      rcases hcase' with ⟨hclean, hpos, hlast⟩ | ⟨rfl, k, p, b, hkept, hfail, hb, hend, hlast⟩
      · refine Or.inl ⟨hclean, fun hr => ?_, fun fuel' hfuel' => ?_⟩
        · have := hpos hr
          omega
        · have hplain := hgo hlast fuel' (by omega)
          rwa [hsplit] at hplain
      · refine Or.inr ⟨rfl, k, p, b, hkept, hfail, hb, by omega, fun fuel' hfuel' => ?_⟩
        have hplain := hgo hlast fuel' (by omega)
        rwa [hsplit] at hplain
    · have hplain : ∀ fuel', bytes.length ≤ fuel' → Finishes (Step fails') d
          (File.writeAllAux N fuel' bytes ⟨ino₁, pos⟩) d₁ (.error k, ⟨ino₁, pos₁⟩) := by
        intro fuel' hfuel'
        have := hgo fuel' (by omega)
        rwa [hsplit] at this
      by_cases hmore : bytes.drop chunk.length = []
      · rw [hmore, writeAllAux_nil] at hrest
        obtain ⟨rfl, rfl, rfl⟩ := hrest.pureP_inv
        rw [hmore, List.length_nil] at hlen
        exact ⟨rfl, hge, Or.inr ⟨rfl, k, p, b, rfl, hfail, hb, by omega, hplain⟩⟩
      · have hpos := List.length_pos_of_ne_nil hmore
        obtain ⟨fuel, rfl⟩ := Nat.exists_eq_add_one_of_ne_zero (show fuel ≠ 0 by omega)
        rw [QueuedFile.writeAllAux, if_neg hmore, pollWrite_failed] at hrest
        obtain ⟨rfl, rfl, rfl⟩ := hrest.pureP_inv
        exact ⟨rfl, hge, Or.inl ⟨rfl, nofun, hplain⟩⟩

theorem finishes_writeAll {bytes : List UInt8} {f : File} {d : Disk N}
    {r : Except IoErrorKind Unit} {h : QueuedFile}
    (hx : Finishes (Step fails) d (QueuedFile.writeAll N bytes (.clean f)) d' (r, h)) :
    h.file.ino = f.ino ∧ f.pos ≤ h.file.pos ∧
    (h.failed = none ∧ (r = .ok () → h.file.pos = f.pos + bytes.length) ∧
      Finishes (Step fails') d (File.writeAll N bytes f) d' (r, h.file) ∨
    r = .ok () ∧ ∃ k p b, h.failed = some k ∧ fails (.write f.ino p b) ∧ b ≠ [] ∧
      p + b.length = f.pos + bytes.length ∧
        Finishes (Step fails') d (File.writeAll N bytes f) d' (.error k, h.file)) := by
  obtain ⟨hino, hge, hcase⟩ := finishes_writeAllAux hwrite _ bytes f.pos le_rfl hx
  refine ⟨hino, hge, ?_⟩
  rcases hcase with ⟨hclean, hpos, hplain⟩ | ⟨hr, k, p, b, hkept, hfail, hb, hend, hplain⟩
  · exact Or.inl ⟨hclean, hpos, hplain _ le_rfl⟩
  · exact Or.inr ⟨hr, k, p, b, hkept, hfail, hb, hend, hplain _ le_rfl⟩

/-- Where the write of the last bytes cannot fail, nothing is kept back. -/
theorem refines_writeAll {bytes : List UInt8} {f : File} (hlast : ∀ p b,
      fails (.write f.ino p b) → b ≠ [] → p + b.length ≠ f.pos + bytes.length) :
    Refines (Step fails) (Step fails') QueuedFile.file (fun _ _ => True)
      (QueuedFile.writeAll N bytes) (File.writeAll N bytes) (.clean f) := by
  intro d d' r h hx
  obtain ⟨-, -, ⟨-, -, hplain⟩ | ⟨-, k, p, b, -, hfail, hb, hend, -⟩⟩ := finishes_writeAll hwrite hx
  · cases r with
    | ok _ => exact ⟨trivial, hplain⟩
    | error k => exact ⟨k, hplain⟩
  · exact absurd hend (hlast p b hfail hb)

end Reported

section Runs

variable [DecidableEq N]

/-- The same event, up to what a write was handed behind the bytes it took. -/
inductive SameEvent : Event (Resp (N := N)) → Event (Resp (N := N)) → Prop
  | refl (e : Event (Resp (N := N))) : SameEvent e e
  | write (ino pos n : ℕ) (chunk bytes : List UInt8) :
      SameEvent ⟨.write ino pos chunk, .ok n⟩ ⟨.write ino pos bytes, .ok n⟩

omit [DecidableEq N] in
theorem reached_congr {tr tr' : Trace N} (h : List.Forall₂ SameEvent tr tr') :
    reached tr = reached tr' := by
  induction h with
  | nil => rfl
  | cons he _ ih =>
    cases he with
    | refl => exact congrArg (max _) ih
    | write ino pos n chunk bytes => exact congrArg (max (pos + n)) ih

omit [DecidableEq N] in
theorem truncates_congr {tr tr' : Trace N} (h : List.Forall₂ SameEvent tr tr') :
    Truncates tr ↔ Truncates tr' := by
  induction h with
  | nil => rfl
  | @cons e e' tr tr' he _ ih =>
    rw [← List.singleton_append, truncates_append, ← List.singleton_append (l := tr'),
      truncates_append, ih]
    cases he with
    | refl => rfl
    | write ino pos n chunk bytes => simp [Truncates]

variable {fails : Op N → Prop}

theorem step_of_chunk (hw : ∀ o, fails o → o.isWrite = false) {d d' : Disk N} {ino pos : ℕ}
    {chunk bytes : List UInt8} (hpre : chunk <+: bytes) {r : Resp (N := N) (.write ino pos chunk)}
    (hs : Step fails d (.write ino pos chunk) r d') :
    ∃ n, r = .ok n ∧ 0 < n ∧ n ≤ chunk.length ∧ Step fails d (.write ino pos bytes) (.ok n) d' := by
  obtain ⟨n, hn, hle, hmax, rfl, rfl⟩ | ⟨hf, -⟩ := hs
  · refine ⟨n, rfl, hn, hle, Or.inl ⟨n, hn, Nat.le_trans hle hpre.length_le, hmax, rfl, ?_⟩⟩
    obtain ⟨more, rfl⟩ := hpre
    rw [List.take_append_of_le_length hle]
  · exact absurd (hw _ hf) (by simp [Op.isWrite])

namespace Mirrors

variable {f : β → α} {q q' : Prog (Resp (N := N)) α} {p : Prog (Resp (N := N)) β}

theorem exec (hw : ∀ o, fails o → o.isWrite = false) {d d' : Disk N}
    {tr : List (Event (Resp (N := N)))} (hx : Exec (Step fails) d q tr d' q') (h : Mirrors f q p) :
    ∃ tr' p', Exec (Step fails) d p tr' d' p' ∧ Mirrors f q' p' ∧
      List.Forall₂ SameEvent tr tr' := by
  induction hx generalizing p with
  | refl d q => exact ⟨[], p, .refl _ _, h, .nil⟩
  | step hs _ ih =>
    cases h with
    | step o hk =>
      obtain ⟨tr', p', hx', hp', hsame⟩ := ih (hk _)
      exact ⟨_, p', .step hs hx', hp', .cons (.refl _) hsame⟩
    | write _ hpre hk =>
      obtain ⟨n, rfl, hn, hle, hs'⟩ := step_of_chunk hw hpre hs
      obtain ⟨tr', p', hx', hp', hsame⟩ := ih (hk n hn hle)
      exact ⟨_, p', .step hs' hx', hp', .cons (.write _ _ _ _ _) hsame⟩

theorem finishes (hw : ∀ o, fails o → o.isWrite = false) {d d' : Disk N} {a : α}
    (h : Mirrors f q p) (hx : Finishes (Step fails) d q d' a) :
    ∃ b, a = f b ∧ Finishes (Step fails) d p d' b := by
  obtain ⟨tr, hx⟩ := hx
  obtain ⟨tr', p', hx', hp', -⟩ := exec hw hx h
  cases hp' with
  | pure b => exact ⟨b, rfl, tr', hx'⟩

/-- Where the second program is never stuck, the first one is not either. -/
theorem flows (hw : ∀ o, fails o → o.isWrite = false) (h : Mirrors f q p) {Q : β → Prop}
    (hp : Flows fails p Q) : Flows fails q fun a => ∃ b, a = f b ∧ Q b := by
  induction h with
  | pure b => exact ⟨b, rfl, hp⟩
  | step o _ ih => exact ⟨hp.1, fun r hr => ih r (hp.2 r hr)⟩
  | write hne hpre _ ih =>
    refine ⟨⟨hne, hp.1.2⟩, ?_⟩
    rintro r ⟨d, d', hs⟩
    obtain ⟨n, rfl, hn, hle, hs'⟩ := step_of_chunk hw hpre hs
    exact ih n hn hle (hp.2 _ ⟨d, d', hs'⟩)

end Mirrors

end Runs

end FileIO
