import OtkCore.Lib.Quiet

/-!
# Files that others write to

Rules for programs that only read, while others act between any two of their
operations. What is read from a file that grows is what a parser finds in the
file as it is at the last of its reads.
-/
namespace Effect

/-- What others and the program itself do at each step holds between the first
world and the last one. -/
theorem Safe.along {O S W α : Type} {Resp : O → Type} {T : Setting Resp S W} {R : W → W → Prop}
    (hrefl : ∀ w, R w w) (htrans : ∀ {a b c}, R a b → R b c → R a c)
    (hrely : ∀ {a b}, T.rely a b → R a b) (hguar : ∀ {a o r b}, T.guar a o r b → R a b)
    {p : Prog Resp α} {Q : α → W → Prop} {w : W} (h : Safe T p Q w) :
    Safe T p (fun a w' => R w w' ∧ Q a w') w := by
  induction p generalizing w with
  | pure a => exact ⟨hrefl w, h⟩
  | step o k ih =>
    intro w₁ hw₁ r s' hs
    obtain ⟨w', hv, hg, hk⟩ := h w₁ hw₁ r s' hs
    refine ⟨w', hv, hg, (ih r hk).mono fun a w₂ hQ => ⟨?_, hQ.2⟩⟩
    exact htrans (hrely hw₁) (htrans (hguar hg) hQ.1)

end Effect

namespace FileIO

open Effect

variable {N W α : Type} [DecidableEq N]

def Op.Plain : Op N → Prop
  | .readDir | .dirEntry _ => False
  | _ => True

/-- Others act between two operations, in steps that compose, and an operation that
leaves the disk alone keeps the guarantee. -/
structure Shared (T : Setting (Resp (N := N)) (Disk N) W) (fails : Op N → Prop) : Prop where
  step : T.step = Step fails
  refl : ∀ w, T.rely w w
  trans : ∀ {a b c}, T.rely a b → T.rely b c → T.rely a c
  stay : ∀ w o r, o.Plain → T.guar w o r w

variable {T : Setting (Resp (N := N)) (Disk N) W} {fails : Op N → Prop} {w : W}

/-- The rule for a plain operation that leaves the disk as it is. -/
theorem Shared.op (hT : Shared T fails) {o : Op N} (ho : o.Plain)
    {k : Resp o → Prog (Resp (N := N)) α} {Q : α → W → Prop}
    (h : ∀ w₁, T.rely w w₁ → ∀ r d', Step fails (T.view w₁) o r d' →
      d' = T.view w₁ ∧ Safe T (k r) Q w₁) :
    Safe T (.step o k) Q w := by
  intro w₁ hw₁ r d' hs
  rw [hT.step] at hs
  obtain ⟨rfl, hk⟩ := h w₁ hw₁ r d' hs
  exact ⟨w₁, rfl, hT.stay w₁ o r ho, hk⟩

/-- What others do before a program that is still to perform an operation is part of
what they do before that operation. -/
theorem Shared.rely_step (hT : Shared T fails) {o : Op N} {k : Resp o → Prog (Resp (N := N)) α}
    {Q : α → W → Prop} (h : Safe T (.step o k) Q w) {w₁ : W} (hw : T.rely w w₁) :
    Safe T (.step o k) Q w₁ :=
  fun w₂ hw₂ => h w₂ (hT.trans hw hw₂)

/-- A program can be entered later if its outcome can be stated later. -/
theorem Shared.later (hT : Shared T fails) {p : Prog (Resp (N := N)) α} {Q : α → W → Prop}
    (hQ : ∀ a w w₁, T.rely w w₁ → Q a w → Q a w₁) (h : Safe T p Q w) {w₁ : W}
    (hw : T.rely w w₁) : Safe T p Q w₁ := by
  cases p with
  | pure a => exact hQ a w w₁ hw h
  | step o k => exact hT.rely_step h hw

theorem Shared.seek (hT : Shared T fails) {f : File} {pos : ℕ}
    {Q : Except IoErrorKind Unit × File → W → Prop}
    (hok : ∀ w₁, T.rely w w₁ → Q (.ok (), ⟨f.ino, pos⟩) w₁)
    (herr : ∀ w₁, T.rely w w₁ → (∃ o, fails o) → Q (.error .other, f) w₁) :
    Safe T (File.seek N pos f) Q w := by
  refine hT.op (by trivial) fun w₁ hw₁ r d' hs => ?_
  obtain ⟨rfl, rfl | ⟨hf, rfl⟩⟩ := hs
  · exact ⟨rfl, hok w₁ hw₁⟩
  · exact ⟨rfl, herr w₁ hw₁ ⟨_, hf⟩⟩

theorem Shared.streamPosition (hT : Shared T fails) {f : File}
    {Q : Except IoErrorKind ℕ × File → W → Prop}
    (hok : ∀ w₁, T.rely w w₁ → Q (.ok f.pos, f) w₁)
    (herr : ∀ w₁, T.rely w w₁ → (∃ o, fails o) → Q (.error .other, f) w₁) :
    Safe T (File.streamPosition N f) Q w := by
  refine hT.op (by trivial) fun w₁ hw₁ r d' hs => ?_
  obtain ⟨rfl, rfl | ⟨hf, rfl⟩⟩ := hs
  · exact ⟨rfl, hok w₁ hw₁⟩
  · exact ⟨rfl, herr w₁ hw₁ ⟨_, hf⟩⟩

theorem Shared.stat (hT : Shared T fails) {x : N} {Q : Except IoErrorKind ℕ → W → Prop}
    (hok : ∀ w₁, T.rely w w₁ → ∀ i, (T.view w₁).find x = some i →
      Q (.ok ((T.view w₁).data i).length) w₁)
    (hnone : ∀ w₁, T.rely w w₁ → (T.view w₁).find x = none → Q (.error .notFound) w₁)
    (herr : ∀ w₁, T.rely w w₁ → (∃ o, fails o) → Q (.error .other) w₁) :
    Safe T (Prog.op (Op.stat x)) Q w := by
  refine hT.op (by trivial) fun w₁ hw₁ r d' hs => ?_
  obtain ⟨rfl, hr | ⟨hf, rfl⟩⟩ := hs
  · refine ⟨rfl, ?_⟩
    cases hfind : (T.view w₁).find x with
    | some i =>
      rw [hfind] at hr
      exact hr ▸ hok w₁ hw₁ i hfind
    | none =>
      rw [hfind] at hr
      exact hr ▸ hnone w₁ hw₁ hfind
  · exact ⟨rfl, herr w₁ hw₁ ⟨_, hf⟩⟩

theorem Shared.openRead (hT : Shared T fails) {x : N} {Q : Except IoErrorKind ℕ → W → Prop}
    (hok : ∀ w₁, T.rely w w₁ → ∀ i, (T.view w₁).find x = some i → Q (.ok i) w₁)
    (hnone : ∀ w₁, T.rely w w₁ → (T.view w₁).find x = none → Q (.error .notFound) w₁)
    (herr : ∀ w₁, T.rely w w₁ → (∃ o, fails o) → Q (.error .other) w₁) :
    Safe T (Prog.op (Op.openRead x)) Q w := by
  refine hT.op (by trivial) fun w₁ hw₁ r d' hs => ?_
  obtain ⟨rfl, hr | ⟨hf, rfl⟩⟩ := hs
  · refine ⟨rfl, ?_⟩
    cases hfind : (T.view w₁).find x with
    | some i =>
      rw [hfind] at hr
      exact hr ▸ hok w₁ hw₁ i hfind
    | none =>
      rw [hfind] at hr
      exact hr ▸ hnone w₁ hw₁ hfind
  · exact ⟨rfl, herr w₁ hw₁ ⟨_, hf⟩⟩

/-- From `w` on, the file only grows. -/
def Grows (T : Setting (Resp (N := N)) (Disk N) W) (ino : ℕ) (w : W) : Prop :=
  ∀ w₁ w₂, T.rely w w₁ → T.rely w₁ w₂ → (T.view w₁).data ino <+: (T.view w₂).data ino

omit [DecidableEq N] in
theorem Grows.later {ino : ℕ} (h : Grows T ino w)
    (htrans : ∀ {a b c}, T.rely a b → T.rely b c → T.rely a c) {w₁ : W} (hw : T.rely w w₁) :
    Grows T ino w₁ :=
  fun _ w₃ h₂ h₃ => h _ w₃ (htrans hw h₂) h₃

theorem take_drop_of_prefix {old new : List UInt8} (h : old <+: new) {pos n : ℕ}
    (hn : n ≤ (old.drop pos).length) : (new.drop pos).take n = (old.drop pos).take n := by
  obtain ⟨more, rfl⟩ := h
  rw [List.length_drop] at hn
  by_cases hpos : pos ≤ old.length
  · rw [List.drop_append_of_le_length hpos, List.take_append_of_le_length]
    rwa [List.length_drop]
  · obtain rfl : n = 0 := by omega
    rfl

theorem Shared.readExactAux (hT : Shared T fails) (ino : ℕ)
    {Q : Except IoErrorKind (List UInt8) × File → W → Prop} {w : W} (hgrow : Grows T ino w)
    (hfail : ∀ w₁, T.rely w w₁ → (∃ o, fails o) → ∀ p, Q (.error .other, ⟨ino, p⟩) w₁)
    (fuel n pos : ℕ) (acc : List UInt8) (hn : n ≤ fuel)
    (hok : ∀ w₁, T.rely w w₁ → n ≤ (((T.view w₁).data ino).drop pos).length →
      Q (.ok (acc ++ (((T.view w₁).data ino).drop pos).take n), ⟨ino, pos + n⟩) w₁)
    (heof : ∀ w₁, T.rely w w₁ → (((T.view w₁).data ino).drop pos).length < n →
      ∀ p, Q (.error .unexpectedEof, ⟨ino, p⟩) w₁) :
    Safe T (File.readExactAux N fuel n acc ⟨ino, pos⟩) Q w := by
  induction fuel generalizing n pos acc w with
  | zero =>
    obtain rfl : n = 0 := by omega
    simpa [File.readExactAux, Safe] using hok w (hT.refl w) (by simp)
  | succ fuel ih =>
    rw [File.readExactAux]
    split_ifs with h0
    · subst h0
      simpa [Safe] using hok w (hT.refl w) (by simp)
    · refine hT.op (by trivial) fun w₁ hw₁ r d' hs => ?_
      obtain ⟨rfl, ⟨k, hk, rfl, hpos⟩ | ⟨hf, rfl⟩⟩ := hs
      · refine ⟨rfl, ?_⟩
        generalize hb : (((T.view w₁).data ino).drop pos).take k = piece
        have hplen : piece.length = min k (((T.view w₁).data ino).length - pos) := by simp [← hb]
        change Safe T ((if piece = [] then Proc.throw .unexpectedEof
          else File.readExactAux N fuel (n - piece.length) (acc ++ piece) :
            FileProc N (List UInt8)) ⟨ino, pos + piece.length⟩) Q w₁
        split_ifs with hnil
        · refine heof w₁ hw₁ ?_ _
          dsimp only at hpos
          simp only [hnil, List.length_nil, List.length_drop] at hplen ⊢
          omega
        · have hpos' : 0 < piece.length := List.length_pos_of_ne_nil hnil
          -- The piece is still there at every later read.
          have hpiece : ∀ w₂, T.rely w₁ w₂ →
              (((T.view w₂).data ino).drop pos).take n =
                piece ++ (((T.view w₂).data ino).drop (pos + piece.length)).take
                  (n - piece.length) := by
            intro w₂ hw₂
            have hstill : (((T.view w₂).data ino).drop pos).take piece.length =
                (((T.view w₁).data ino).drop pos).take piece.length :=
              take_drop_of_prefix (hgrow w₁ w₂ hw₁ hw₂) (by rw [List.length_drop]; omega)
            have hown : (((T.view w₁).data ino).drop pos).take piece.length = piece := by
              rw [← hb]
              exact (List.prefix_iff_eq_take.mp (List.take_prefix k _)).symm
            calc (((T.view w₂).data ino).drop pos).take n
                = (((T.view w₂).data ino).drop pos).take
                    (piece.length + (n - piece.length)) := by
                  rw [Nat.add_sub_cancel' (by omega)]
              _ = _ := by rw [List.take_add, hstill, hown, List.drop_drop]
          refine ih (hgrow.later hT.trans hw₁) (fun w₂ hw₂ => hfail w₂ (hT.trans hw₁ hw₂)) _ _ _
            (by omega) (fun w₂ hw₂ hle => ?_) fun w₂ hw₂ hlt => heof w₂ (hT.trans hw₁ hw₂) ?_
          · have hlen := (hgrow w₁ w₂ hw₁ hw₂).length_le
            have hq := hok w₂ (hT.trans hw₁ hw₂) (by
              rw [List.length_drop] at hle ⊢
              omega)
            rw [hpiece w₂ hw₂] at hq
            rwa [List.append_assoc, Nat.add_assoc, Nat.add_sub_cancel' (by omega)]
          · have hlen := (hgrow w₁ w₂ hw₁ hw₂).length_le
            rw [List.length_drop] at hlt ⊢
            omega
      · exact ⟨rfl, hfail w₁ hw₁ ⟨_, hf⟩ _⟩

theorem Shared.readExact (hT : Shared T fails) {ino n pos : ℕ}
    {Q : Except IoErrorKind (List UInt8) × File → W → Prop} (hgrow : Grows T ino w)
    (hfail : ∀ w₁, T.rely w w₁ → (∃ o, fails o) → ∀ p, Q (.error .other, ⟨ino, p⟩) w₁)
    (hok : ∀ w₁, T.rely w w₁ → n ≤ (((T.view w₁).data ino).drop pos).length →
      Q (.ok ((((T.view w₁).data ino).drop pos).take n), ⟨ino, pos + n⟩) w₁)
    (heof : ∀ w₁, T.rely w w₁ → (((T.view w₁).data ino).drop pos).length < n →
      ∀ p, Q (.error .unexpectedEof, ⟨ino, p⟩) w₁) :
    Safe T (File.readExact N n ⟨ino, pos⟩) Q w :=
  hT.readExactAux ino hgrow hfail n n pos [] le_rfl hok heof

/-- Reading from a growing file agrees with parsing what is there at the end. -/
theorem Shared.read {ε : Type} (hT : Shared T fails) (ino : ℕ) (inject : IoErrorKind → ε)
    {Q : Except ε α × File → W → Prop} {w : W} (hgrow : Grows T ino w)
    (hfail : ∀ w₁, T.rely w w₁ → (∃ o, fails o) → ∀ p, Q (.error (inject .other), ⟨ino, p⟩) w₁)
    (p : Parser ε α) (pos : ℕ)
    (hok : ∀ w₁, T.rely w w₁ → ∀ r m, p.parse (((T.view w₁).data ino).drop pos) = some (r, m) →
      Q (r, ⟨ino, pos + m⟩) w₁)
    (heof : ∀ w₁, T.rely w w₁ → p.parse (((T.view w₁).data ino).drop pos) = none →
      ∀ q, Q (.error (inject .unexpectedEof), ⟨ino, q⟩) w₁) :
    Safe T (p.read N inject ⟨ino, pos⟩) Q w := by
  induction p generalizing pos w with
  | done r => exact hok w (hT.refl w) r 0 rfl
  | need n k ih =>
    refine Safe.bindP (Safe.mapError ?_)
    refine hT.readExact hgrow (fun w₁ hw₁ hf q => hfail w₁ hw₁ hf q) (fun w₁ hw₁ hle => ?_)
      fun w₁ hw₁ hlt q => heof w₁ hw₁ ?_ q
    · -- What the first request found is what it would find later.
      have hparse : ∀ w₂, T.rely w₁ w₂ →
          (Parser.need n k).parse (((T.view w₂).data ino).drop pos) =
            ((k ((((T.view w₁).data ino).drop pos).take n)).parse
              (((T.view w₂).data ino).drop (pos + n))).map fun (r, m) => (r, n + m) := by
        intro w₂ hw₂
        have hprefix := hgrow w₁ w₂ hw₁ hw₂
        have hge : ¬ (((T.view w₂).data ino).drop pos).length < n := by
          have hlen := hprefix.length_le
          rw [List.length_drop] at hle ⊢
          omega
        rw [Parser.parse, if_neg hge, take_drop_of_prefix hprefix hle, List.drop_drop]
      refine ih _ (hgrow.later hT.trans hw₁) (fun w₂ hw₂ => hfail w₂ (hT.trans hw₁ hw₂)) _
        (fun w₂ hw₂ r m hm => ?_) fun w₂ hw₂ hm => heof w₂ (hT.trans hw₁ hw₂) ?_
      · rw [Nat.add_assoc]
        refine hok w₂ (hT.trans hw₁ hw₂) r (n + m) ?_
        rw [hparse w₂ hw₂, hm]
        rfl
      · rw [hparse w₂ hw₂, hm]
        rfl
    · rw [Parser.parse, if_pos hlt]

end FileIO
