import OtkCore.Lib.Progress

/-!
# Incremental parsers

A parser asks for a number of bytes, looks at them and goes on. `parse` is its
meaning on a byte string; `read` performs it on an open file with one
`read_exact` for every request.
-/
namespace FileIO

open Effect

inductive Parser (ε α : Type) : Type
  | done (r : Except ε α)
  | need (n : ℕ) (k : List UInt8 → Parser ε α)

namespace Parser

variable {ε α β : Type}

protected def bind : Parser ε α → (α → Parser ε β) → Parser ε β
  | .done (.ok a), f => f a
  | .done (.error e), _ => .done (.error e)
  | .need n k, f => .need n fun bytes => (k bytes).bind f

instance : Monad (Parser ε) where
  pure a := .done (.ok a)
  bind := Parser.bind

def take (n : ℕ) : Parser ε (List UInt8) := .need n fun bytes => .done (.ok bytes)

def fail (e : ε) : Parser ε α := .done (.error e)

/-- The result on a byte string with the number of bytes used, or `none` if the
string ends first. -/
def parse : Parser ε α → List UInt8 → Option (Except ε α × ℕ)
  | .done r, _ => some (r, 0)
  | .need n k, bytes =>
    if bytes.length < n then none
    else ((k (bytes.take n)).parse (bytes.drop n)).map fun (r, m) => (r, n + m)

@[simp] theorem parse_pure (a : α) (bytes : List UInt8) :
    (pure a : Parser ε α).parse bytes = some (.ok a, 0) := rfl

@[simp] theorem parse_fail (e : ε) (bytes : List UInt8) :
    (fail e : Parser ε α).parse bytes = some (.error e, 0) := rfl

theorem pure_bind (a : α) (f : α → Parser ε β) : (pure a >>= f) = f a := rfl

theorem fail_bind (e : ε) (f : α → Parser ε β) : (fail e >>= f) = fail e := rfl

theorem parse_take_bind {n : ℕ} {bytes : List UInt8} (h : n ≤ bytes.length)
    (f : List UInt8 → Parser ε α) :
    (take n >>= f).parse bytes =
      ((f (bytes.take n)).parse (bytes.drop n)).map fun (r, m) => (r, n + m) := by
  have hlt : ¬ bytes.length < n := by omega
  change (Parser.need n fun bytes => (Parser.done (.ok bytes)).bind f).parse bytes = _
  simp only [parse, hlt, if_false, Parser.bind]

theorem parse_take_bind_none {n : ℕ} {bytes : List UInt8} (h : bytes.length < n)
    (f : List UInt8 → Parser ε α) : (take n >>= f).parse bytes = none := by
  change (Parser.need n fun bytes => (Parser.done (.ok bytes)).bind f).parse bytes = _
  simp only [parse, h, if_true]

theorem parse_consumed_le {p : Parser ε α} {bytes : List UInt8} {r : Except ε α} {m : ℕ}
    (h : p.parse bytes = some (r, m)) : m ≤ bytes.length := by
  induction p generalizing bytes m with
  | done r' =>
    simp only [parse, Option.some.injEq, Prod.mk.injEq] at h
    omega
  | need n k ih =>
    rw [parse] at h
    split_ifs at h with hlt
    obtain ⟨⟨r', m'⟩, hk, heq⟩ := Option.map_eq_some_iff.mp h
    obtain ⟨rfl, rfl⟩ : r' = r ∧ n + m' = m := by simpa using heq
    have hm := ih _ hk
    simp only [List.length_drop] at hm
    omega

theorem parse_append {p : Parser ε α} {bytes : List UInt8} {r : Except ε α} {m : ℕ}
    (h : p.parse bytes = some (r, m)) (more : List UInt8) :
    p.parse (bytes ++ more) = some (r, m) := by
  induction p generalizing bytes m with
  | done r' => exact h
  | need n k ih =>
    rw [parse] at h ⊢
    split_ifs at h with hlt
    have hge : n ≤ bytes.length := by omega
    have hlt' : ¬ (bytes ++ more).length < n := by simp; omega
    obtain ⟨⟨r', m'⟩, hk, heq⟩ := Option.map_eq_some_iff.mp h
    obtain ⟨rfl, rfl⟩ : r' = r ∧ n + m' = m := by simpa using heq
    rw [if_neg hlt', List.take_append_of_le_length hge, List.drop_append_of_le_length hge,
      ih _ hk]
    rfl

theorem parse_take {p : Parser ε α} {bytes : List UInt8} {r : Except ε α} {m n : ℕ}
    (h : p.parse bytes = some (r, m)) (hn : m ≤ n) : p.parse (bytes.take n) = some (r, m) := by
  induction p generalizing bytes m n with
  | done r' => exact h
  | need k f ih =>
    rw [parse] at h ⊢
    split_ifs at h with hlt
    obtain ⟨⟨r', m'⟩, hf, heq⟩ := Option.map_eq_some_iff.mp h
    obtain ⟨rfl, rfl⟩ : r' = r ∧ k + m' = m := by simpa using heq
    have hlen : ¬ (bytes.take n).length < k := by
      rw [List.length_take]
      omega
    have hrest := ih _ hf (n := n - k) (by omega)
    rw [if_neg hlen, List.take_take, Nat.min_eq_left (by omega), List.drop_take, hrest]
    rfl

/-- The numbers of bytes asked for on a byte string, one after another. -/
def requests : Parser ε α → List UInt8 → List ℕ
  | .done _, _ => []
  | .need n k, bytes =>
    n :: if bytes.length < n then [] else (k (bytes.take n)).requests (bytes.drop n)

/-- The result on a byte string satisfies `Q`, and no request is for more than
`cap` bytes. -/
def Within (cap : ℕ) (p : Parser ε α) (bytes : List UInt8) (Q : Option (Except ε α × ℕ) → Prop) :
    Prop :=
  Q (p.parse bytes) ∧ ∀ n ∈ p.requests bytes, n ≤ cap

theorem Within.pure {cap : ℕ} {a : α} {bytes : List UInt8} {Q : Option (Except ε α × ℕ) → Prop}
    (h : Q (some (.ok a, 0))) : Within cap (Pure.pure a) bytes Q :=
  ⟨h, List.forall_mem_nil _⟩

theorem Within.fail {cap : ℕ} {e : ε} {bytes : List UInt8} {Q : Option (Except ε α × ℕ) → Prop}
    (h : Q (some (.error e, 0))) : Within cap (Parser.fail e) bytes Q :=
  ⟨h, List.forall_mem_nil _⟩

theorem requests_take_bind (n : ℕ) (f : List UInt8 → Parser ε α) (bytes : List UInt8) :
    (Parser.take n >>= f).requests bytes =
      n :: if bytes.length < n then [] else (f (bytes.take n)).requests (bytes.drop n) := rfl

theorem Within.take {cap n : ℕ} (hn : n ≤ cap) {f : List UInt8 → Parser ε α} {bytes : List UInt8}
    {Q : Option (Except ε α × ℕ) → Prop} (hend : bytes.length < n → Q none)
    (h : n ≤ bytes.length → Within cap (f (bytes.take n)) (bytes.drop n) fun o =>
      Q (o.map fun x => (x.1, n + x.2))) :
    Within cap (Parser.take n >>= f) bytes Q := by
  rw [Within, requests_take_bind]
  by_cases hlt : bytes.length < n
  · rw [parse_take_bind_none hlt, if_pos hlt]
    exact ⟨hend hlt, List.forall_mem_singleton.mpr hn⟩
  · obtain ⟨hQ, hrequests⟩ := h (by omega)
    rw [parse_take_bind (by omega), if_neg hlt]
    exact ⟨hQ, List.forall_mem_cons.mpr ⟨hn, hrequests⟩⟩

/-- On a byte string the second parser does what the first one does, with its
errors renamed. -/
def Renames {ε' : Type} (g : ε → ε') (p : Parser ε α) (q : Parser ε' α) (bytes : List UInt8) :
    Prop :=
  q.parse bytes = (p.parse bytes).map (fun x => (x.1.mapError g, x.2)) ∧
    q.requests bytes = p.requests bytes

section Renames

variable {ε' : Type} {g : ε → ε'} {bytes : List UInt8}

theorem Renames.pure (a : α) :
    Renames g (Pure.pure a : Parser ε α) (Pure.pure a) bytes := ⟨rfl, rfl⟩

theorem Renames.fail (e : ε) : Renames g (Parser.fail e : Parser ε α) (Parser.fail (g e)) bytes :=
  ⟨rfl, rfl⟩

theorem Renames.take {n : ℕ} {f : List UInt8 → Parser ε α} {f' : List UInt8 → Parser ε' α}
    (h : n ≤ bytes.length → Renames g (f (bytes.take n)) (f' (bytes.take n)) (bytes.drop n)) :
    Renames g (Parser.take n >>= f) (Parser.take n >>= f') bytes := by
  rw [Renames, requests_take_bind, requests_take_bind]
  by_cases hlt : bytes.length < n
  · rw [parse_take_bind_none hlt, parse_take_bind_none hlt, if_pos hlt, if_pos hlt]
    exact ⟨rfl, rfl⟩
  · obtain ⟨hparse, hrequests⟩ := h (by omega)
    rw [parse_take_bind (by omega), parse_take_bind (by omega), hparse, if_neg hlt, if_neg hlt,
      hrequests, Option.map_map, Option.map_map]
    exact ⟨rfl, rfl⟩

end Renames

variable {N : Type}

def read (N : Type) (inject : IoErrorKind → ε) : Parser ε α → Proc (Resp (N := N)) ε File α
  | .done r => Proc.liftE (.pure r)
  | .need n k => do
    let bytes ← (File.readExact N n).mapError inject
    (k bytes).read N inject

end Parser

theorem Parser.free_read {N ε α : Type} [DecidableEq N] {fails : Op N → Prop}
    (p : Parser ε α) (inject : IoErrorKind → ε) : Free fails (p.read N inject) := by
  induction p with
  | done r => exact fun _ => trivial
  | need n k ih => exact ((Free.readExact n).mapError inject).bind ih

end FileIO
