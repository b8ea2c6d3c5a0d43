import OtkCore.Lib.Parser

/-!
# Files that nobody else changes

Rules for programs that run alone on a disk: nothing happens between two of
their operations. On a file that stays as it is, reading agrees with parsing.
-/
namespace FileIO

open Effect

variable {N W : Type} [DecidableEq N]

/-- Nothing happens between two operations, and an operation that leaves the
disk alone keeps the guarantee. -/
structure Quiet (T : Setting (Resp (N := N)) (Disk N) W) (fails : Op N → Prop) : Prop where
  step : T.step = Step fails
  alone : ∀ w w₁, T.rely w w₁ → w₁ = w
  stay : ∀ w o r, T.guar w o r w

variable {T : Setting (Resp (N := N)) (Disk N) W} {fails : Op N → Prop} {α : Type}

theorem Quiet.op (hT : Quiet T fails) {o : Op N} {k : Resp o → Prog (Resp (N := N)) α}
    {Q : α → W → Prop} {w : W}
    (h : ∀ r d', Step fails (T.view w) o r d' →
      ∃ w', T.view w' = d' ∧ T.guar w o r w' ∧ Safe T (k r) Q w') :
    Safe T (.step o k) Q w := by
  intro w₁ hw₁ r d' hs
  obtain rfl := hT.alone _ _ hw₁
  rw [hT.step] at hs
  exact h r d' hs

theorem Quiet.opStay (hT : Quiet T fails) {o : Op N} {k : Resp o → Prog (Resp (N := N)) α}
    {Q : α → W → Prop} {w : W}
    (h : ∀ r d', Step fails (T.view w) o r d' → d' = T.view w ∧ Safe T (k r) Q w) :
    Safe T (.step o k) Q w := by
  refine hT.op fun r d' hs => ?_
  obtain ⟨rfl, hk⟩ := h r d' hs
  exact ⟨w, rfl, hT.stay w o r, hk⟩

section Handles

variable {w : W}

theorem Quiet.seek (hT : Quiet T fails) {f : File} {pos : ℕ}
    {Q : Except IoErrorKind Unit × File → W → Prop} (hok : Q (.ok (), ⟨f.ino, pos⟩) w)
    (herr : fails (.seek f.ino) → Q (.error .other, f) w) : Safe T (File.seek N pos f) Q w := by
  refine hT.opStay fun r d' hs => ?_
  obtain ⟨rfl, rfl | ⟨hf, rfl⟩⟩ := hs
  · exact ⟨rfl, hok⟩
  · exact ⟨rfl, herr hf⟩

theorem Quiet.sync (hT : Quiet T fails) {f : File} {Q : Except IoErrorKind Unit × File → W → Prop}
    (hok : Q (.ok (), f) w) (herr : fails (.sync f.ino) → Q (.error .other, f) w) :
    Safe T (File.sync N f) Q w := by
  refine hT.opStay fun r d' hs => ?_
  obtain ⟨rfl, rfl | ⟨hf, rfl⟩⟩ := hs
  · exact ⟨rfl, hok⟩
  · exact ⟨rfl, herr hf⟩

theorem Quiet.len (hT : Quiet T fails) {f : File} {Q : Except IoErrorKind ℕ × File → W → Prop}
    (hok : Q (.ok ((T.view w).data f.ino).length, f) w)
    (herr : fails (.fileLen f.ino) → Q (.error .other, f) w) : Safe T (File.len N f) Q w := by
  refine hT.opStay fun r d' hs => ?_
  obtain ⟨rfl, rfl | ⟨hf, rfl⟩⟩ := hs
  · exact ⟨rfl, hok⟩
  · exact ⟨rfl, herr hf⟩

theorem Quiet.stat (hT : Quiet T fails) {x : N} {Q : Except IoErrorKind ℕ → W → Prop}
    (hok : ∀ i, (T.view w).find x = some i → Q (.ok ((T.view w).data i).length) w)
    (hnone : (T.view w).find x = none → Q (.error .notFound) w)
    (herr : fails (.stat x) → Q (.error .other) w) : Safe T (Prog.op (Op.stat x)) Q w := by
  refine hT.opStay fun r d' hs => ?_
  obtain ⟨rfl, hr | ⟨hf, rfl⟩⟩ := hs
  · refine ⟨rfl, ?_⟩
    cases hfind : (T.view w).find x with
    | some i =>
      rw [hfind] at hr
      exact hr ▸ hok i hfind
    | none =>
      rw [hfind] at hr
      exact hr ▸ hnone hfind
  · exact ⟨rfl, herr hf⟩

theorem Quiet.openRead (hT : Quiet T fails) {x : N} {Q : Except IoErrorKind ℕ → W → Prop}
    (hok : ∀ i, (T.view w).find x = some i → Q (.ok i) w)
    (hnone : (T.view w).find x = none → Q (.error .notFound) w)
    (herr : fails (.openRead x) → Q (.error .other) w) :
    Safe T (Prog.op (Op.openRead x)) Q w := by
  refine hT.opStay fun r d' hs => ?_
  obtain ⟨rfl, hr | ⟨hf, rfl⟩⟩ := hs
  · refine ⟨rfl, ?_⟩
    cases hfind : (T.view w).find x with
    | some i =>
      rw [hfind] at hr
      exact hr ▸ hok i hfind
    | none =>
      rw [hfind] at hr
      exact hr ▸ hnone hfind
  · exact ⟨rfl, herr hf⟩

end Handles

theorem take_eq_piece_append {bytes : List UInt8} {k n : ℕ} (h : k ≤ n) :
    bytes.take n = bytes.take k ++
      (bytes.drop (bytes.take k).length).take (n - (bytes.take k).length) := by
  have hlen : (bytes.take k).length ≤ n := by simp; omega
  have hpiece : bytes.take (bytes.take k).length = bytes.take k :=
    (List.prefix_iff_eq_take.mp (List.take_prefix k bytes)).symm
  calc bytes.take n = bytes.take ((bytes.take k).length + (n - (bytes.take k).length)) := by
        rw [Nat.add_sub_cancel' hlen]
    _ = _ := by rw [List.take_add, hpiece]

theorem Quiet.readExactAux (hT : Quiet T fails) {w : W} (ino : ℕ)
    {Q : Except IoErrorKind (List UInt8) × File → W → Prop}
    (hfail : (∃ p n, fails (.read ino p n)) → ∀ p, Q (.error .other, ⟨ino, p⟩) w)
    (fuel n pos : ℕ) (acc : List UInt8) (hn : n ≤ fuel)
    (hok : n ≤ (((T.view w).data ino).drop pos).length →
      Q (.ok (acc ++ (((T.view w).data ino).drop pos).take n), ⟨ino, pos + n⟩) w)
    (heof : (((T.view w).data ino).drop pos).length < n →
      ∀ p, Q (.error .unexpectedEof, ⟨ino, p⟩) w) :
    Safe T (File.readExactAux N fuel n acc ⟨ino, pos⟩) Q w := by
  induction fuel generalizing n pos acc with
  | zero =>
    obtain rfl : n = 0 := by omega
    simpa [File.readExactAux, Safe] using hok (by simp)
  | succ fuel ih =>
    rw [File.readExactAux]
    split_ifs with h0
    · subst h0
      simpa [Safe] using hok (by simp)
    · refine hT.opStay fun r d' hs => ?_
      obtain ⟨rfl, ⟨k, hk, rfl, hpos⟩ | ⟨hf, rfl⟩⟩ := hs
      · refine ⟨rfl, ?_⟩
        have hpiece := @take_eq_piece_append (((T.view w).data ino).drop pos) k n hk
        generalize hb : (((T.view w).data ino).drop pos).take k = piece at hpiece
        have hplen : piece.length = min k (((T.view w).data ino).length - pos) := by simp [← hb]
        change Safe T ((if piece = [] then Proc.throw .unexpectedEof
          else File.readExactAux N fuel (n - piece.length) (acc ++ piece) :
            FileProc N (List UInt8)) ⟨ino, pos + piece.length⟩) Q w
        split_ifs with hnil
        · refine heof ?_ _
          dsimp only at hpos
          simp only [hnil, List.length_nil, List.length_drop] at hplen ⊢
          omega
        · have hpos' : 0 < piece.length := List.length_pos_of_ne_nil hnil
          rw [List.drop_drop] at hpiece
          refine ih _ _ _ (by omega) (fun hle => ?_) fun hlt => heof ?_
          · simp only [List.length_drop] at hle
            have hq := hok (by simp; omega)
            rw [hpiece] at hq
            rwa [List.append_assoc, Nat.add_assoc, Nat.add_sub_cancel' (by omega)]
          · simp only [List.length_drop] at hlt ⊢
            omega
      · exact ⟨rfl, hfail ⟨_, _, hf⟩ _⟩

/-- Writing all of `bytes` at `pos`, given what holds after each number of bytes
written and that one write moves on from there. -/
theorem Quiet.writeAll (hT : Quiet T fails) {ino pos : ℕ} {bytes : List UInt8}
    {P : ℕ → W → Prop} {Q : Except IoErrorKind Unit × File → W → Prop}
    (hstep : ∀ j k w, P j w → 0 < k → j + k ≤ bytes.length → pos + j + k ≤ maxFileLen →
      ∃ w', T.view w' = (T.view w).setData ino
          (patch ((T.view w).data ino) (pos + j) ((bytes.drop j).take k)) ∧
        T.guar w (.write ino (pos + j) (bytes.drop j)) (.ok k) w' ∧ P (j + k) w')
    (hok : ∀ w, P bytes.length w → Q (.ok (), ⟨ino, pos + bytes.length⟩) w)
    (hfail : ∀ j w, P j w → j < bytes.length → fails (.write ino (pos + j) (bytes.drop j)) →
      ∀ k, Q (.error k, ⟨ino, pos + j⟩) w)
    {w : W} (h : P 0 w) : Safe T (File.writeAll N bytes ⟨ino, pos⟩) Q w := by
  suffices ∀ fuel j w, P j w → j ≤ bytes.length → bytes.length - j ≤ fuel →
      Safe T (File.writeAllAux N fuel (bytes.drop j) ⟨ino, pos + j⟩) Q w by
    simpa [File.writeAll] using this bytes.length 0 w h (Nat.zero_le _) (by omega)
  intro fuel
  induction fuel with
  | zero =>
    intro j w hj hle hfuel
    obtain rfl : j = bytes.length := by omega
    exact hok w hj
  | succ fuel ih =>
    intro j w hj hle hfuel
    rw [File.writeAllAux]
    split_ifs with hnil
    · obtain rfl : j = bytes.length := by
        have := List.drop_eq_nil_iff.mp hnil
        omega
      exact hok w hj
    · have hlt : j < bytes.length := by
        rw [List.drop_eq_nil_iff] at hnil
        omega
      refine hT.op fun r d' hs => ?_
      obtain ⟨k, hk, hkl, hmax, rfl, rfl⟩ | ⟨hf, rfl | rfl, rfl⟩ := hs
      · rw [List.length_drop] at hkl
        obtain ⟨w', hv, hg, hP⟩ := hstep j k w hj hk (by omega) hmax
        refine ⟨w', hv, hg, ?_⟩
        change Safe T ((if k = 0 then Proc.throw .writeZero
          else File.writeAllAux N fuel ((bytes.drop j).drop k) : FileProc N Unit)
            ⟨ino, pos + j + k⟩) Q w'
        rw [if_neg (by omega), List.drop_drop, Nat.add_assoc]
        exact ih (j + k) w' hP (by omega) (by omega)
      · exact ⟨w, rfl, hT.stay _ _ _, hfail j w hj hlt hf _⟩
      · exact ⟨w, rfl, hT.stay _ _ _, hfail j w hj hlt hf _⟩

/-- On a file that stays as it is, reading agrees with parsing. -/
theorem Quiet.read {ε : Type} (hT : Quiet T fails) {w : W} (ino : ℕ) (inject : IoErrorKind → ε)
    {Q : Except ε α × File → W → Prop}
    (hfail : (∃ p n, fails (.read ino p n)) → ∀ p, Q (.error (inject .other), ⟨ino, p⟩) w)
    (p : Parser ε α) (pos : ℕ)
    (hok : ∀ r m, p.parse (((T.view w).data ino).drop pos) = some (r, m) →
      Q (r, ⟨ino, pos + m⟩) w)
    (heof : p.parse (((T.view w).data ino).drop pos) = none →
      ∀ q, Q (.error (inject .unexpectedEof), ⟨ino, q⟩) w) :
    Safe T (p.read N inject ⟨ino, pos⟩) Q w := by
  induction p generalizing pos with
  | done r => exact hok r 0 rfl
  | need n k ih =>
    refine Safe.bindP (Safe.mapError ?_)
    refine hT.readExactAux ino (fun hf q => hfail hf q) n n pos [] le_rfl (fun hle => ?_)
      fun hlt q => heof ?_ q
    · have hge : ¬ (((T.view w).data ino).drop pos).length < n := by omega
      refine ih _ _ (fun r m hm => ?_) fun hm => heof ?_
      · rw [Nat.add_assoc]
        refine hok r (n + m) ?_
        rw [List.nil_append, ← List.drop_drop] at hm
        rw [Parser.parse, if_neg hge, hm]
        rfl
      · rw [List.nil_append, ← List.drop_drop] at hm
        rw [Parser.parse, if_neg hge, hm]
        rfl
    · rw [Parser.parse, if_pos hlt]

def bare (fails : Op N → Prop) : Setting (Resp (N := N)) (Disk N) (Disk N) where
  step := Step fails
  view d := d
  rely d d₁ := d₁ = d
  guar _ _ _ _ := True

@[simp] theorem view_bare (d : Disk N) : (bare fails).view d = d := rfl

theorem quiet_bare : Quiet (bare fails) fails := ⟨rfl, fun _ _ h => h, fun _ _ _ => trivial⟩

theorem safe_bare {o : Op N} {k : Resp o → Prog (Resp (N := N)) α} {Q : α → Disk N → Prop}
    {d : Disk N} (h : ∀ r d', Step fails d o r d' → Safe (bare fails) (k r) Q d') :
    Safe (bare fails) (.step o k) Q d :=
  quiet_bare.op fun r d' hs => ⟨d', rfl, trivial, h r d' hs⟩

theorem finishes_bare {p : Prog (Resp (N := N)) α} {d d' : Disk N} {a : α}
    (hx : Finishes (Step fails) d p d' a) {Q : α → Disk N → Prop}
    (h : Safe (bare fails) p Q d) : Q a d' := by
  obtain ⟨w, rfl, hQ⟩ := h.finishes (fun _ => rfl) hx rfl
  exact hQ

/-- The disk after the first `j` bytes of `bytes` have been written. -/
def written (d : Disk N) (ino pos : ℕ) (bytes : List UInt8) : ℕ → Disk N
  | 0 => d
  | j + 1 => d.setData ino (patch (d.data ino) pos (bytes.take (j + 1)))

omit [DecidableEq N] in
theorem written_succ (d : Disk N) (ino pos : ℕ) (bytes : List UInt8) {j k : ℕ} (hk : 0 < k)
    (hle : j + k ≤ bytes.length) :
    (written d ino pos bytes j).setData ino
      (patch ((written d ino pos bytes j).data ino) (pos + j) ((bytes.drop j).take k)) =
        written d ino pos bytes (j + k) := by
  obtain ⟨n, hn⟩ : ∃ n, j + k = n + 1 := ⟨j + k - 1, by omega⟩
  cases j with
  | zero => simp [written, show k = n + 1 by omega]
  | succ j =>
    have hlen : (bytes.take (j + 1)).length = j + 1 := by
      rw [List.length_take]
      omega
    have hdata : (written d ino pos bytes (j + 1)).data ino =
        patch (d.data ino) pos (bytes.take (j + 1)) := by
      simp [written]
    have hbytes : bytes.take (j + 1) ++ (bytes.drop (j + 1)).take k = bytes.take (n + 1) := by
      rw [← hn]
      exact List.take_add.symm
    have hpatch := patch_patch (d.data ino) pos (bytes.take (j + 1)) ((bytes.drop (j + 1)).take k)
    rw [hlen, hbytes] at hpatch
    rw [hdata, hpatch, hn]
    simp [written, Disk.setData]

omit [DecidableEq N] in
theorem written_length (d : Disk N) (ino pos : ℕ) {bytes : List UInt8} (hne : bytes ≠ []) :
    written d ino pos bytes bytes.length = d.setData ino (patch (d.data ino) pos bytes) := by
  cases bytes with
  | nil => exact absurd rfl hne
  | cons b bs =>
    rw [List.length_cons, written]
    simp

/-- What `write_all` leaves: all bytes, or after an error the first ones. -/
theorem safe_writeAll {ino pos : ℕ} {bytes : List UInt8} {d : Disk N}
    {Q : Except IoErrorKind Unit × File → Disk N → Prop}
    (hok : pos + bytes.length ≤ maxFileLen ∨ bytes = [] →
      Q (.ok (), ⟨ino, pos + bytes.length⟩) (written d ino pos bytes bytes.length))
    (hfail : ∀ j k, (∃ o, fails o) → Q (.error k, ⟨ino, pos + j⟩) (written d ino pos bytes j)) :
    Safe (bare fails) (File.writeAll N bytes ⟨ino, pos⟩) Q d := by
  refine quiet_bare.writeAll (P := fun j w => w = written d ino pos bytes j ∧
    (pos + j ≤ maxFileLen ∨ j = 0)) ?_ ?_ ?_ ⟨rfl, Or.inr rfl⟩
  · rintro j k w ⟨rfl, -⟩ hk hle hmax
    exact ⟨_, rfl, trivial, written_succ d ino pos bytes hk hle, Or.inl (by omega)⟩
  · rintro w ⟨rfl, hmax⟩
    exact hok (hmax.imp_right List.length_eq_zero_iff.mp)
  · rintro j w ⟨rfl, -⟩ - hf k
    exact hfail j k ⟨_, hf⟩

end FileIO
