import OtkCore.SegmentLog.Log
import OtkCore.Lib.Outcome
import OtkCore.Lib.Simulation

/-!
# What retention deletes

Retention deletes closed segments from the front, one after another, and stops
at the first one that the policy keeps or that cannot be deleted. What a policy
keeps is stated for the list of closed segments as a whole; the loops, which
look at one segment at a time, agree with it.
-/
namespace OtkCore.SegmentLog

open Effect FileIO

def bytesOf (segs : List ClosedSegment) : ℕ := (segs.map ClosedSegment.byteSize).sum

/-- The longest suffix that fits into `maxBytes` together with the active segment. -/
def largestFitting (maxBytes active : ℕ) (segs : List ClosedSegment) : List ClosedSegment :=
  (segs.tails.find? fun s => bytesOf s + active ≤ maxBytes).getD []

/-- The segments behind the longest prefix of segments from before the cutoff. -/
def youngFrom (now maxAgeSecs : ℕ) (segs : List ClosedSegment) : List ClosedSegment :=
  segs.dropWhile fun s => s.lastAppendedAtNs < now - satMul maxAgeSecs 1000000000

def shorter (xs ys : List ClosedSegment) : List ClosedSegment :=
  if xs.length ≤ ys.length then xs else ys

/-- What a retention policy keeps of the closed segments. -/
def retained (now active : ℕ) (segs : List ClosedSegment) : RetentionPolicy → List ClosedSegment
  | .indefinite => segs
  | .timeBased maxAgeSecs => youngFrom now maxAgeSecs segs
  | .sizeBased maxBytes => largestFitting maxBytes active segs
  | .hybrid maxAgeSecs maxBytes =>
    shorter (youngFrom now maxAgeSecs segs) (largestFitting maxBytes active segs)

section Fitting

variable {maxBytes active : ℕ} {front : ClosedSegment} {segs kept : List ClosedSegment}

@[simp] theorem bytesOf_cons (front : ClosedSegment) (segs : List ClosedSegment) :
    bytesOf (front :: segs) = front.byteSize + bytesOf segs := by
  simp [bytesOf]

theorem bytesOf_suffix (h : kept <:+ segs) : bytesOf kept ≤ bytesOf segs := by
  obtain ⟨dropped, rfl⟩ := h
  simp [bytesOf]

theorem largestFitting_nil : largestFitting maxBytes active [] = [] := by
  by_cases h : active ≤ maxBytes <;> simp [largestFitting, bytesOf, h]

theorem largestFitting_self (h : bytesOf segs + active ≤ maxBytes) :
    largestFitting maxBytes active segs = segs := by
  cases segs with
  | nil => exact largestFitting_nil
  | cons front segs =>
    rw [largestFitting, List.tails, List.find?_cons_of_pos (by simpa using h)]
    rfl

theorem largestFitting_cons (h : ¬ bytesOf (front :: segs) + active ≤ maxBytes) :
    largestFitting maxBytes active (front :: segs) = largestFitting maxBytes active segs := by
  rw [largestFitting, List.tails, List.find?_cons_of_neg (by simpa using h)]
  rfl

theorem largestFitting_suffix : largestFitting maxBytes active segs <:+ segs := by
  induction segs with
  | nil =>
    rw [largestFitting_nil]
  | cons front segs ih =>
    by_cases h : bytesOf (front :: segs) + active ≤ maxBytes
    · rw [largestFitting_self h]
    · rw [largestFitting_cons h]
      exact ih.trans (List.suffix_cons front segs)

theorem largestFitting_longest (hkept : kept <:+ segs) (h : bytesOf kept + active ≤ maxBytes) :
    bytesOf (largestFitting maxBytes active segs) + active ≤ maxBytes ∧
      kept.length ≤ (largestFitting maxBytes active segs).length := by
  induction segs with
  | nil =>
    obtain rfl := List.suffix_nil.mp hkept
    rw [largestFitting_nil]
    exact ⟨h, le_rfl⟩
  | cons front segs ih =>
    by_cases hall : bytesOf (front :: segs) + active ≤ maxBytes
    · rw [largestFitting_self hall]
      exact ⟨hall, hkept.length_le⟩
    · rw [largestFitting_cons hall]
      rcases List.suffix_cons_iff.mp hkept with rfl | hsuffix
      · exact absurd h hall
      · exact ih hsuffix

/-- What fits of a suffix, compared with what fits of the whole list. -/
theorem largestFitting_of_suffix (hkept : kept <:+ segs) :
    largestFitting maxBytes active kept = shorter kept (largestFitting maxBytes active segs) := by
  induction segs with
  | nil =>
    obtain rfl := List.suffix_nil.mp hkept
    simp [largestFitting_nil, shorter]
  | cons front segs ih =>
    rcases List.suffix_cons_iff.mp hkept with rfl | hsuffix
    · unfold shorter
      split_ifs with hle
      · exact largestFitting_suffix.eq_of_length_le hle
      · rfl
    · by_cases hall : bytesOf (front :: segs) + active ≤ maxBytes
      · have hbytes := bytesOf_suffix hkept
        rw [largestFitting_self hall, largestFitting_self (by omega), shorter,
          if_pos hkept.length_le]
      · rw [largestFitting_cons hall]
        exact ih hsuffix

end Fitting

theorem youngFrom_suffix (now maxAgeSecs : ℕ) (segs : List ClosedSegment) :
    youngFrom now maxAgeSecs segs <:+ segs :=
  List.dropWhile_suffix _

/-- The name that an operation has found or made absent. -/
def removed : (o : Op FileName) → Resp o → Option FileName
  | .unlink x, .ok () => some x
  | .unlink x, .error .notFound => some x
  | _, _ => none

/-- The names that the operations of a run have found or made absent. -/
def gone (tr : List (Event (Resp (N := FileName)))) : List FileName :=
  tr.filterMap fun ev => removed ev.1 ev.2

def Deleting : Op FileName → Prop
  | .now | .unlink _ | .syncDir => True
  | _ => False

theorem gone_nil : gone [] = [] := rfl

theorem gone_cons (o : Op FileName) (r : Resp o) (tr : List (Event (Resp (N := FileName)))) :
    gone (⟨o, r⟩ :: tr) = (removed o r).toList ++ gone tr := by
  rw [gone, List.filterMap_cons]
  cases removed o r <;> rfl

theorem gone_append (tr tr' : List (Event (Resp (N := FileName)))) :
    gone (tr ++ tr') = gone tr ++ gone tr' :=
  List.filterMap_append

/-- A run of deletions removes the names it has found or made absent, and no other. -/
theorem find_of_exec {α : Type} {fails : Op FileName → Prop} {d d' : Disk FileName}
    {p p' : Prog (Resp (N := FileName)) α} {tr : List (Event (Resp (N := FileName)))}
    (hx : Exec (Step fails) d p tr d' p') (ho : ∀ x ∈ tr, Deleting x.1) (y : FileName) :
    d'.find y = if y ∈ gone tr then none else d.find y := by
  induction hx with
  | refl => simp [gone]
  | @step d d₁ _ o r _ tr _ hs _ ih =>
    rw [List.forall_mem_cons] at ho
    rw [ih ho.2, gone_cons]
    cases o with
    | now =>
      obtain rfl := hs.2
      rfl
    | syncDir =>
      obtain rfl := hs.1
      rfl
    | unlink x =>
      rcases hs with hs | ⟨-, rfl, rfl⟩
      · cases hfind : d.find x with
        | none =>
          rw [hfind] at hs
          obtain ⟨rfl, rfl⟩ := hs
          by_cases hy : y = x
          · simp [removed, hy, hfind]
          · simp [removed, hy]
        | some i =>
          rw [hfind] at hs
          obtain ⟨rfl, rfl⟩ := hs
          by_cases hy : y = x
          · simp [removed, hy]
          · simp [removed, hy]
      · rfl
    | _ => exact ho.1.elim

/-- The run has deleted segments from the front of the list down to `target`, or has
come to one on the way there that it could not delete. -/
structure Evicts (l : Log) (target : List ClosedSegment) (x : Except StorageError Unit × Log)
    (tr : List (Event (Resp (N := FileName)))) : Prop where
  dropped : ∃ dropped, l.closed = dropped ++ x.2.closed ∧
    ∀ b, .seg b ∈ gone tr ↔ .seg b ∈ dropped.map ClosedSegment.path
  rest : x.2 = { l with closed := x.2.closed }
  done : x.1 = .ok () → x.2.closed = target
  failed : ∀ e, x.1 = .error e → ∃ front segs k, x.2.closed = front :: segs ∧ target <:+ segs ∧
    e = .io k ∧ k ≠ .notFound ∧ ⟨.unlink front.path, .error k⟩ ∈ tr

section Loops

variable {l : Log} {front : ClosedSegment} {segs target : List ClosedSegment}

theorem Evicts.refl (l : Log) : Evicts l l.closed (.ok (), l) [] where
  dropped := ⟨[], rfl, by simp [gone]⟩
  rest := rfl
  done _ := rfl
  failed _ he := by cases he

theorem Evicts.trans {l' : Log} {middle : List ClosedSegment}
    {tr tr' : List (Event (Resp (N := FileName)))} {x : Except StorageError Unit × Log}
    (h : Evicts l middle (.ok (), l') tr) (h' : Evicts l' target x tr') :
    Evicts l target x (tr ++ tr') where
  dropped := by
    obtain ⟨dropped, hl, hgone⟩ := h.dropped
    obtain ⟨dropped', hl', hgone'⟩ := h'.dropped
    refine ⟨dropped ++ dropped', ?_, fun b => ?_⟩
    · rw [hl, hl', List.append_assoc]
    · rw [gone_append, List.mem_append, hgone, hgone', List.map_append, List.mem_append]
  rest := by
    have hl : l' = { l with closed := l'.closed } := h.rest
    rw [h'.rest, hl]
  done := h'.done
  failed e he := by
    obtain ⟨front, segs, k, hclosed, hsuffix, hek, hk, hmem⟩ := h'.failed e he
    exact ⟨front, segs, k, hclosed, hsuffix, hek, hk, List.mem_append_right tr hmem⟩

theorem says_evictFront (hl : l.closed = front :: segs)
    {Q : Except StorageError Unit × Log → List (Event (Resp (N := FileName))) → Prop}
    (hok : ∀ tr, Evicts l segs (.ok (), { l with closed := segs }) tr →
      Q (.ok (), { l with closed := segs }) tr)
    (herr : ∀ k, k ≠ .notFound → Q (.error (.io k), l) [⟨.unlink front.path, .error k⟩]) :
    Says (evictFront front l) Q := by
  have hgone : ∀ (r : Resp (.unlink front.path : Op FileName)) (ri rd),
      (r = .ok () ∨ r = .error .notFound) →
      Evicts l segs (.ok (), { l with closed := segs })
        [⟨.unlink front.path, r⟩, ⟨.unlink (.idx front.baseOffset), ri⟩, ⟨.syncDir, rd⟩] := by
    intro r ri rd hr
    refine ⟨⟨[front], hl, fun b => ?_⟩, rfl, fun _ => rfl, fun e he => by cases he⟩
    have hidx : .seg b ∉ gone [⟨.unlink (.idx front.baseOffset), ri⟩, ⟨.syncDir, rd⟩] := by
      rw [gone_cons, gone_cons, gone_nil]
      rcases ri with k | ⟨⟩
      · cases k <;> simp [removed]
      · simp [removed]
    have hseg : gone [⟨.unlink front.path, r⟩] = [front.path] := by
      rcases hr with rfl | rfl <;> rfl
    rw [← List.singleton_append, gone_append, hseg, List.mem_append, or_iff_left hidx]
    simp
  intro r
  rcases r with k | ⟨⟩
  · by_cases hk : k = .notFound
    · subst hk
      intro ri rd
      change Q (.ok (), { l with closed := l.closed.tail }) _
      rw [hl]
      exact hok _ (hgone _ ri rd (Or.inr rfl))
    · cases k with
      | notFound => exact absurd rfl hk
      | _ => exact herr _ hk
  · intro ri rd
    change Q (.ok (), { l with closed := l.closed.tail }) _
    rw [hl]
    exact hok _ (hgone _ ri rd (Or.inl rfl))

theorem says_evictFront_then (hl : l.closed = front :: segs) (htarget : target <:+ segs)
    {t : Io Log Unit} (ht : ∀ l', l'.closed = segs → Says (t l') (Evicts l' target)) :
    Says ((do evictFront front; t : Io Log Unit) l) (Evicts l target) := by
  refine Says.bindP (says_evictFront hl (fun tr htr => ?_) fun k hk => ?_)
  · exact (ht _ rfl).mono fun x tr' hx => htr.trans hx
  · refine ⟨⟨[], rfl, fun b => ?_⟩, rfl, fun h => (by cases h), fun e he => ?_⟩
    · rw [gone_cons, gone_nil]
      cases k with
      | notFound => exact absurd rfl hk
      | _ => simp [removed]
    · obtain rfl : .io k = e := by simpa using he
      exact ⟨front, segs, k, hl, htarget, rfl, hk, List.mem_singleton.mpr rfl⟩

theorem says_evictOlder (cutoff : ℕ) (hl : l.closed = segs) :
    Says (evictOlder cutoff segs l)
      (Evicts l (segs.dropWhile fun s => s.lastAppendedAtNs < cutoff)) := by
  induction segs generalizing l with
  | nil =>
    have hnone := Evicts.refl l
    rw [hl] at hnone
    exact hnone
  | cons front segs ih =>
    rw [evictOlder]
    split_ifs with hold
    · rw [List.dropWhile_cons_of_pos (by simpa using hold)]
      exact says_evictFront_then hl (List.dropWhile_suffix _) fun l' hl' => ih hl'
    · rw [List.dropWhile_cons_of_neg (by simpa using hold), ← hl]
      exact Evicts.refl l

theorem says_evictLarger (maxBytes active : ℕ) (hl : l.closed = segs) :
    Says (evictLarger maxBytes (bytesOf segs + active) segs l)
      (Evicts l (largestFitting maxBytes active segs)) := by
  induction segs generalizing l with
  | nil =>
    have hnone := Evicts.refl l
    rw [hl] at hnone
    rw [largestFitting_nil]
    exact hnone
  | cons front segs ih =>
    rw [evictLarger]
    split_ifs with hlarge
    · rw [largestFitting_cons (by omega)]
      refine says_evictFront_then hl largestFitting_suffix fun l' hl' => ?_
      have hrest : bytesOf (front :: segs) + active - front.byteSize = bytesOf segs + active := by
        rw [bytesOf_cons]
        omega
      rw [hrest]
      exact ih hl'
    · rw [largestFitting_self (by omega), ← hl]
      exact Evicts.refl l

end Loops

def Log.activeBytes (l : Log) : ℕ := (l.active.map ActiveSegment.byteSize).getD 0

section Policies

variable {l : Log} {target : List ClosedSegment}

theorem Evicts.now {x : Except StorageError Unit × Log}
    {tr : List (Event (Resp (N := FileName)))} (h : Evicts l target x tr) (t : ℕ) :
    Evicts l target x (⟨.now, t⟩ :: tr) where
  dropped := h.dropped
  rest := h.rest
  done := h.done
  failed e he := by
    obtain ⟨front, segs, k, hclosed, hsuffix, hek, hk, hmem⟩ := h.failed e he
    exact ⟨front, segs, k, hclosed, hsuffix, hek, hk, List.mem_cons_of_mem _ hmem⟩

/-- A failure on the way to more than is wanted is one on the way to what is wanted. -/
theorem Evicts.error {middle : List ClosedSegment} {e : StorageError} {l' : Log}
    {tr : List (Event (Resp (N := FileName)))} (h : Evicts l middle (.error e, l') tr)
    (htarget : target <:+ middle) : Evicts l target (.error e, l') tr where
  dropped := h.dropped
  rest := h.rest
  done he := by cases he
  failed e he := by
    obtain ⟨front, segs, k, hclosed, hsuffix, hek, hk, hmem⟩ := h.failed e he
    exact ⟨front, segs, k, hclosed, htarget.trans hsuffix, hek, hk, hmem⟩

theorem says_retainByAge (maxAgeSecs : ℕ) (l : Log) :
    Says (retainByAge maxAgeSecs l) fun x tr => ∃ now, ⟨.now, now⟩ ∈ tr ∧
      Evicts l (youngFrom now maxAgeSecs l.closed) x tr := by
  intro now
  exact (says_evictOlder _ rfl).mono fun x tr hx => ⟨now, List.mem_cons_self, hx.now now⟩

theorem says_retainBySize (maxBytes : ℕ) (hsum : bytesOf l.closed + l.activeBytes < 2 ^ 64) :
    Says (retainBySize maxBytes l)
      (Evicts l (largestFitting maxBytes l.activeBytes l.closed)) := by
  have htotal : ((l.closed.map ClosedSegment.byteSize).sum +
      (l.active.map ActiveSegment.byteSize).getD 0) % 2 ^ 64 = bytesOf l.closed + l.activeBytes :=
    Nat.mod_eq_of_lt hsum
  have hloop := says_evictLarger (l := l) maxBytes l.activeBytes rfl
  rw [← htotal] at hloop
  exact Says.getP hloop

theorem says_enforceRetention (hsum : bytesOf l.closed + l.activeBytes < 2 ^ 64) :
    Says (enforceRetention l) fun x tr => ∀ now, (∀ t, ⟨.now, t⟩ ∈ tr → t = now) →
      Evicts l (retained now l.activeBytes l.closed l.config.retention) x tr := by
  refine Says.getP ?_
  cases l.config.retention with
  | indefinite => exact fun _ _ => Evicts.refl l
  | timeBased maxAgeSecs =>
    refine (says_retainByAge maxAgeSecs l).mono ?_
    rintro x tr ⟨now, hmem, hx⟩ now' hnow
    obtain rfl := hnow now hmem
    exact hx
  | sizeBased maxBytes => exact (says_retainBySize maxBytes hsum).mono fun x tr hx _ _ => hx
  | hybrid maxAgeSecs maxBytes =>
    refine Says.bindP ((says_retainByAge maxAgeSecs l).mono ?_)
    rintro ⟨r, l'⟩ tr ⟨now, hmem, hx⟩
    have hyoung := youngFrom_suffix now maxAgeSecs l.closed
    have hshort : largestFitting maxBytes l.activeBytes (youngFrom now maxAgeSecs l.closed) =
        shorter (youngFrom now maxAgeSecs l.closed)
          (largestFitting maxBytes l.activeBytes l.closed) := largestFitting_of_suffix hyoung
    cases r with
    | error e =>
      intro now' hnow
      obtain rfl := hnow now hmem
      rw [retained, ← hshort]
      exact hx.error largestFitting_suffix
    | ok u =>
      have hrest : l' = { l with closed := l'.closed } := hx.rest
      have hclosed : l'.closed = youngFrom now maxAgeSecs l.closed := hx.done rfl
      have hactive : l'.activeBytes = l.activeBytes := by
        rw [hrest]
        rfl
      have hbytes := bytesOf_suffix hyoung
      refine (says_retainBySize maxBytes (l := l') (by rw [hclosed, hactive]; omega)).mono
        fun x tr' hx' now' hnow => ?_
      obtain rfl := hnow now (List.mem_append_left _ hmem)
      rw [hclosed, hactive, hshort] at hx'
      exact hx.trans hx'

theorem uses_enforceRetention : Uses Deleting enforceRetention := by
  have hunlink : ∀ front, Uses Deleting (evictFront front) := fun front => by
    refine Uses.bind ?_ fun _ => .modify _
    refine Uses.bind (.lift (.op trivial)) fun r => ?_
    have hrest : Uses Deleting (do
        let _ ← Proc.lift (Prog.op (Op.unlink (.idx front.baseOffset)))
        let _ ← Proc.lift (Prog.op Op.syncDir) : Io Log Unit) :=
      .bind (.lift (.op trivial)) fun _ => .bind (.lift (.op trivial)) fun _ => .pure _
    rcases r with k | ⟨⟩
    · cases k with
      | notFound => exact hrest
      | _ => exact .throw _
    · exact hrest
  have hage : ∀ n, Uses Deleting (retainByAge n) := fun n => by
    refine Uses.bind (.lift (.op trivial)) fun now => Uses.bind .get fun l => ?_
    induction l.closed with
    | nil => exact .pure _
    | cons front segs ih =>
      rw [evictOlder]
      split_ifs
      · exact .bind (hunlink front) fun _ => ih
      · exact .pure _
  have hsize : ∀ n, Uses Deleting (retainBySize n) := fun n => by
    refine Uses.bind .get fun l => ?_
    dsimp only
    generalize ((l.closed.map ClosedSegment.byteSize).sum +
      (l.active.map ActiveSegment.byteSize).getD 0) % 2 ^ 64 = total
    induction l.closed generalizing total with
    | nil => exact .pure _
    | cons front segs ih =>
      rw [evictLarger]
      split_ifs
      · exact .bind (hunlink front) fun _ => ih _
      · exact .pure _
  refine Uses.bind .get fun l => ?_
  cases l.config.retention with
  | indefinite => exact .pure _
  | timeBased n => exact hage n
  | sizeBased n => exact hsize n
  | hybrid n m => exact .bind (hage n) fun _ => hsize m

end Policies

section Evictions

variable {fails : Op FileName → Prop} {d d' : Disk FileName} {l l' : Log}
  {tr : List (Event (Resp (N := FileName)))} {r : Except StorageError Unit} {now : ℕ}

/-- What retention leaves, whichever operations fail: a suffix of the closed segments,
the segment files without those of the segments in front of it. It is what the policy
keeps, or retention has stopped before that at a segment it could not delete. -/
theorem enforceRetention_evicts (hsum : bytesOf l.closed + l.activeBytes < 2 ^ 64)
    (hnow : ∀ t, ⟨.now, t⟩ ∈ tr → t = now)
    (hx : Exec (Step fails) d (enforceRetention l) tr d' (.pure (r, l'))) :
    (r = .ok () → l'.closed = retained now l.activeBytes l.closed l.config.retention) ∧
      l' = { l with closed := l'.closed } ∧
      (∃ dropped, l.closed = dropped ++ l'.closed ∧ ∀ b, d'.find (.seg b) =
        if .seg b ∈ dropped.map ClosedSegment.path then none else d.find (.seg b)) ∧
      ∀ e, r = .error e → ∃ front segs k, l'.closed = front :: segs ∧
        retained now l.activeBytes l.closed l.config.retention <:+ segs ∧
        e = .io k ∧ k ≠ .notFound ∧ ⟨.unlink front.path, .error k⟩ ∈ tr := by
  have hevicts := (says_enforceRetention hsum).exec hx now hnow
  refine ⟨hevicts.done, hevicts.rest, ?_, hevicts.failed⟩
  obtain ⟨dropped, hclosed, hgone⟩ := hevicts.dropped
  refine ⟨dropped, hclosed, fun b => ?_⟩
  rw [find_of_exec hx ((uses_enforceRetention l).exec hx), if_congr (hgone b) rfl rfl]

end Evictions

/-- Two closed segments of eight bytes where ten are allowed. -/
def twoEights : Log :=
  ⟨{ retention := .sizeBased 10 },
    [⟨0, 0, 1, 8, .seg 0, [24]⟩, ⟨1, 1, 2, 8, .seg 1, [24]⟩], none, 2, false⟩

def twoFiles : Disk FileName := (Disk.empty.create (.seg 0)).create (.seg 1)

theorem exec_twoEights : Exec (Step fun _ => False) twoFiles (enforceRetention twoEights)
    [⟨.unlink (.seg 0), .ok ()⟩, ⟨.unlink (.idx 0), .error .notFound⟩, ⟨.syncDir, .ok ()⟩]
    (twoFiles.unlink (.seg 0)) (.pure (.ok (), { twoEights with
      closed := [⟨1, 1, 2, 8, .seg 1, [24]⟩] })) := by
  have hseg : Step (fun _ => False) twoFiles (.unlink (.seg 0)) (.ok ())
      (twoFiles.unlink (.seg 0)) := Or.inl ⟨rfl, rfl⟩
  have hidx : Step (fun _ => False) (twoFiles.unlink (.seg 0)) (.unlink (.idx 0))
      (.error .notFound) (twoFiles.unlink (.seg 0)) := Or.inl ⟨rfl, rfl⟩
  have hdir : Step (fun _ => False) (twoFiles.unlink (.seg 0)) .syncDir (.ok ())
      (twoFiles.unlink (.seg 0)) := ⟨rfl, Or.inl rfl⟩
  exact .step hseg (.step hidx (.step hdir (.refl _ _)))

theorem enforceRetention_evicts_sample :
    [(⟨1, 1, 2, 8, .seg 1, [24]⟩ : ClosedSegment)] =
        retained 0 0 twoEights.closed (.sizeBased 10) ∧
      ∃ dropped, twoEights.closed = dropped ++ [⟨1, 1, 2, 8, .seg 1, [24]⟩] ∧
        ∀ b, (twoFiles.unlink (.seg 0)).find (.seg b) =
          if .seg b ∈ dropped.map ClosedSegment.path then none else twoFiles.find (.seg b) :=
  have h := enforceRetention_evicts (by decide) (by simp) exec_twoEights
  ⟨h.1 rfl, h.2.2.1⟩

end OtkCore.SegmentLog
