import OtkCore.SegmentLog.Held
import OtkCore.SegmentLog.Delivery

/-!
# The end of the offset space

`open` checks that every segment ends within `u64`, and `append` that every
record gets an offset below the largest one. The other sums and differences are
not checked; whether they stay in `u64` follows from where the segments of the
directory end.
-/
namespace OtkCore.SegmentLog

open Effect FileIO Bytes
open Checked (Representable Room)

variable {c : Codec} {fails : Op FileName → Prop} {d d' d₀ : Disk FileName}

/-- A directory: each name has a file of its own, every byte of it can be
addressed, and the segments are named after `u64` offsets. -/
structure Addressable (d : Disk FileName) : Prop where
  linked : Linked d
  small : ∀ x i, d.find x = some i → (d.data i).length ≤ maxFileLen
  bases : ∀ base, (d.find (.seg base)).isSome = true → base < 2 ^ 64

/-- The segment's records and the offset behind them are in `u64`. -/
def Part.Fits (p : Part) : Prop := p.base + p.count < 2 ^ 64

def OpenState.log (config : SegmentLogConfig) (st : OpenState) : Log :=
  ⟨config, st.closed, st.active, st.nextOffset, false⟩

/-- After some segments, with those of `bases` still to come. -/
structure Loading (c : Codec) (config : SegmentLogConfig) (d₀ d : Disk FileName)
    (bases : List ℕ) (st : OpenState) : Prop where
  held : Held c d (st.log config)
  representable : Representable (st.log config)
  closed : ∀ cs ∈ st.closed, ∀ b ∈ bases, cs.baseOffset < b
  active : ∀ a, st.active = some a → ∀ b ∈ bases, a.baseOffset < b
  intact : Intact d₀ d bases

variable {config : SegmentLogConfig} {base : ℕ} {bases : List ℕ} {st : OpenState}

namespace Loading

theorem skip (h : Loading c config d₀ d (base :: bases) st) : Loading c config d₀ d bases st :=
  ⟨h.held, h.representable, fun cs hcs b hb => h.closed cs hcs b (List.mem_cons_of_mem _ hb),
    fun a ha b hb => h.active a ha b (List.mem_cons_of_mem _ hb),
    fun b hb => h.intact b (List.mem_cons_of_mem _ hb)⟩

theorem addClosed (h : Loading c config d₀ d (base :: bases) st) (hlt : ∀ b ∈ bases, base < b)
    {cs : ClosedSegment} (hbase : cs.baseOffset = base) (hpath : cs.path = .seg base)
    (hne : cs.positions ≠ []) (hlast : base + cs.positions.length = cs.lastOffset + 1)
    (hend : base + cs.positions.length < 2 ^ 64) :
    Loading c config d₀ d bases { st with
      closed := st.closed ++ [cs], nextOffset := base + cs.positions.length } := by
  have hpos := List.length_pos_of_ne_nil hne
  have hclosed : ∀ seg ∈ st.closed, seg.baseOffset < base :=
    fun seg hseg => h.closed seg hseg base List.mem_cons_self
  have hactive : ∀ a, st.active = some a → a.baseOffset < base :=
    fun a ha => h.active a ha base List.mem_cons_self
  refine ⟨⟨h.held.linked, fun seg hseg => ?_, h.held.active, fun a ha => ?_, fun seg hseg a ha => ?_⟩,
    ⟨hend, h.representable.active, fun seg hseg => ?_⟩, fun seg hseg b hb => ?_, h.skip.active,
    h.skip.intact⟩
  · rcases List.mem_append.mp hseg with hold | hnew
    · refine ⟨(h.held.closed seg hold).1, ?_⟩
      exact (hclosed seg hold).trans_le (Nat.le_add_right _ _)
    · obtain rfl := List.mem_singleton.mp hnew
      refine ⟨hbase ▸ hpath, ?_⟩
      change seg.baseOffset < base + seg.positions.length
      omega
  · have hlow := hactive a ha
    change a.baseOffset ≤ base + cs.positions.length ∧ (_ → a.baseOffset < base + cs.positions.length)
    exact ⟨by omega, fun _ => by omega⟩
  · have hlow := hactive a ha
    rcases List.mem_append.mp hseg with hold | hnew
    · exact h.held.apart seg hold a ha
    · obtain rfl := List.mem_singleton.mp hnew
      omega
  · rcases List.mem_append.mp hseg with hold | hnew
    · exact h.representable.closed seg hold
    · obtain rfl := List.mem_singleton.mp hnew
      omega
  · rcases List.mem_append.mp hseg with hold | hnew
    · exact h.skip.closed seg hold b hb
    · obtain rfl := List.mem_singleton.mp hnew
      exact hbase ▸ hlt b hb

theorem addActive (h : Loading c config d₀ d (base :: bases) st) (hlt : ∀ b ∈ bases, base < b)
    (hlinked : Linked d') (hintact : Intact d₀ d' bases) {a : ActiveSegment}
    (hbase : a.baseOffset = base) (howns : Owns c d' a)
    (hend : base + a.positions.length < 2 ^ 64) :
    Loading c config d₀ d' bases { st with
      nextOffset := base + a.positions.length, active := some a } := by
  have hclosed : ∀ seg ∈ st.closed, seg.baseOffset < base :=
    fun seg hseg => h.closed seg hseg base List.mem_cons_self
  refine ⟨⟨hlinked, fun seg hseg => ⟨(h.held.closed seg hseg).1, ?_⟩, fun b hb => ?_,
    fun b hb => ?_, fun seg hseg b hb => ?_⟩, ⟨hend, fun b hb => ?_, h.representable.closed⟩,
    h.skip.closed, fun b hb => ?_, hintact⟩
  · exact (hclosed seg hseg).trans_le (Nat.le_add_right _ _)
  all_goals obtain rfl := Option.some.inj hb
  · exact howns
  · change a.baseOffset ≤ base + a.positions.length ∧ (_ → a.baseOffset < base + a.positions.length)
    refine ⟨by omega, fun hne => ?_⟩
    have hpos := List.length_pos_of_ne_nil hne
    omega
  · exact hbase ▸ (hclosed seg hseg).ne
  · exact hbase ▸ hend
  · exact hbase ▸ hlt

end Loading

/-- Why `open` fails: it rejects a file, an operation fails, or an indexed segment
is cut short and all segments up to it fit. -/
def Refuses (c : Codec) (fails : Op FileName → Prop) (d : Disk FileName) (bases : List ℕ)
    (err : StorageError) : Prop :=
  Rejects fails err ∨
    ∃ b ∈ bases, CutShort c d b ∧ ∀ b' ∈ bases, b' ≤ b → (partOf c d b').Fits

theorem Refuses.cons {err : StorageError} (h : Refuses c fails d bases err)
    (hfits : (partOf c d base).Fits) : Refuses c fails d (base :: bases) err := by
  refine h.imp_right fun ⟨b, hb, hcut, hall⟩ => ⟨b, List.mem_cons_of_mem _ hb, hcut, ?_⟩
  intro b' hb' hle
  rcases List.mem_cons.mp hb' with rfl | hrest
  · exact hfits
  · exact hall b' hrest hle

theorem CutShort.intact {d₀ d : Disk FileName} (h : CutShort c d base)
    (hin : Intact d₀ d (base :: bases)) : CutShort c d₀ base := by
  obtain ⟨i, j, hi, hj, hcut⟩ := h
  obtain ⟨hseg, hsegData⟩ := hin base List.mem_cons_self (.seg base) (by simp)
  obtain ⟨hidx, hidxData⟩ := hin base List.mem_cons_self (.idx base) (by simp)
  rw [hseg] at hi
  rw [hidx] at hj
  exact ⟨i, j, hi, hj, by rwa [← hsegData i hi, ← hidxData j hj]⟩

theorem Loading.safe_openSegments (h₀ : Addressable d₀) (dir : String)
    (hsorted : bases.Pairwise (· < ·)) (hsegs : ∀ b ∈ bases, (d₀.find (.seg b)).isSome = true)
    (h : Loading c config d₀ d bases st) :
    Safe (bare fails) (openSegments c dir bases st) (fun x d' =>
      (∀ err, x.1 = .error err → Refuses c fails d₀ bases err) ∧
      ∀ u, x.1 = .ok u → Loading c config d₀ d' [] x.2 ∧ ∀ b ∈ bases, (partOf c d₀ b).Fits) d := by
  induction bases generalizing d st with
  | nil => exact ⟨by simp, fun _ _ => ⟨h, by simp⟩⟩
  | cons base rest ih =>
    obtain ⟨hlt, hsorted⟩ := List.pairwise_cons.mp hsorted
    have hsome := hsegs base List.mem_cons_self
    obtain ⟨i, hi⟩ := Option.isSome_iff_exists.mp hsome
    obtain ⟨hseg, hsegData⟩ := h.intact base List.mem_cons_self (.seg base) (by simp)
    have hpart := h.intact.partOf (c := c) List.mem_cons_self
    have hnot : base ∉ rest := fun hmem => (hlt base hmem).false
    -- What follows once this segment has been loaded.
    have hrest : (partOf c d₀ base).Fits → ∀ {st d}, Loading c config d₀ d rest st →
        Safe (bare fails) (openSegments c dir rest st) (fun x d' =>
          (∀ err, x.1 = .error err → Refuses c fails d₀ (base :: rest) err) ∧
          ∀ u, x.1 = .ok u → Loading c config d₀ d' [] x.2 ∧
            ∀ b ∈ base :: rest, (partOf c d₀ b).Fits) d := by
      intro hfits st d hloading
      refine (ih hsorted (fun b hb => hsegs b (List.mem_cons_of_mem _ hb)) hloading).mono ?_
      rintro x d' ⟨herr, hok⟩
      refine ⟨fun err he => (herr err he).cons hfits, fun u hu => ⟨(hok u hu).1, ?_⟩⟩
      exact List.forall_mem_cons.mpr ⟨hfits, (hok u hu).2⟩
    rw [hi] at hseg
    have hsmall : (d.data i).length ≤ maxFileLen := hsegData i hi ▸ h₀.small _ _ hi
    rw [openSegments]
    refine Safe.bindP (Safe.bindP (Safe.lift (quiet_bare.stat (fun j hj => ?_)
      (fun hnone => ?_) fun hf => ?_)))
    · have hj : d.find (.idx base) = some j := hj
      have hcount : (partOf c d₀ base).count = (d.data j).length / 8 := by
        rw [← hpart]
        simp [partOf, hj]
      refine Safe.bindP (safe_openClosed_any hseg hj dir (fun hzero => ?_)
        (fun cs hbase hpath hne hlen hlast hend => ?_) fun err hwhy => ?_)
      · have hfits : (partOf c d₀ base).Fits := by
          rw [Part.Fits, hcount, hzero]
          exact h₀.bases base hsome
        exact hrest hfits h.skip
      · have hfits : (partOf c d₀ base).Fits := by
          rw [Part.Fits, hcount, ← hlen]
          exact hend
        exact hrest hfits (h.addClosed hlt hbase hpath hne hlast hend)
      · refine ⟨fun err' he => ?_, by simp⟩
        obtain rfl := Except.error.inj he
        refine hwhy.imp_right ?_
        rintro ⟨hcut, hend⟩
        refine ⟨base, List.mem_cons_self, hcut.intact h.intact, fun b hb hle => ?_⟩
        rcases List.mem_cons.mp hb with rfl | hb
        · rw [Part.Fits, hcount]
          exact hend
        · exact absurd (hlt b hb) (not_lt.mpr hle)
    · have hnone : d.find (.idx base) = none := hnone
      have hcount : (partOf c d₀ base).count =
          recovered c (d.data i) ((d.data i).length + 1) base headerLen := by
        rw [← hpart]
        simp [partOf, hnone, hseg]
      have hpath : ∀ a, st.active = some a → ∃ b, a.path = .seg b ∧ b < base :=
        fun a ha => ⟨_, (h.held.active a ha).path, h.active a ha base List.mem_cons_self⟩
      refine Safe.bindP (h.held.linked.safe (safe_openActive_any hseg (fun a ha => ?_)
        (fun a d₁ d₂ hd₁ hd₂ hbase _ howns hlen hend hlinked => ?_) fun err st' d' hwhy _ => ?_))
      · obtain ⟨b, hb, hlow⟩ := hpath a ha
        exact ⟨b, hb, hlow.ne⟩
      · have hfits : (partOf c d₀ base).Fits := by
          rw [Part.Fits, hcount, ← hlen]
          exact hend
        have hin₁ : Intact d₀ d₁ rest := by
          obtain rfl | ⟨prev, hprev, rfl⟩ := hd₁
          · exact h.skip.intact
          · obtain ⟨b, hb, hlow⟩ := hpath prev hprev
            rw [hb]
            exact h.skip.intact.unlink fun hmem => (hlow.trans (hlt b hmem)).false
        exact hrest hfits (h.addActive hlt hlinked (hin₁.changes h₀.linked.unshared hi hnot hd₂) hbase
          (howns hsmall) hend)
      · refine ⟨fun err' he => ?_, by simp⟩
        obtain rfl := Except.error.inj he
        exact .inl (hwhy hsmall)
    · refine ⟨fun err' he => ?_, by simp⟩
      obtain rfl := Except.error.inj he
      exact .inl (.of_fails hf _)

theorem safe_openDir_loading (h : Addressable d) (config : SegmentLogConfig) :
    Safe (bare fails) (openDir c config) (fun r d' =>
      (∀ err, r = .error err → Rejects fails err ∨ ∃ p ∈ parts c d, CutShort c d p.base ∧
        ∀ q ∈ parts c d, q.base ≤ p.base → q.Fits) ∧
      ∀ l, r = .ok l → Held c d' l ∧ Representable l ∧ ∀ p ∈ parts c d, p.Fits) d := by
  generalize hbases : (d.dir.keys.filterMap FileName.segBase?).mergeSort (· ≤ ·) = bases
  have hparts : parts c d = bases.map (partOf c d) := by rw [parts, hbases]
  have hmem : ∀ b ∈ bases, (d.find (.seg b)).isSome = true := by
    intro b hb
    rw [← hbases] at hb
    exact (mem_segBases d b).mp ((List.mergeSort_perm _ _).mem_iff.mp hb)
  have hsorted : bases.Pairwise (· < ·) := by
    have hpw := sorted_parts c d
    rw [hparts, List.pairwise_map] at hpw
    exact hpw
  have hzero : 0 < 2 ^ 64 := Nat.two_pow_pos 64
  have hnone : Loading c config d d bases ⟨[], none, 0⟩ :=
    ⟨⟨h.linked, by simp [OpenState.log], by simp [OpenState.log], by simp [OpenState.log],
      by simp [OpenState.log]⟩, ⟨hzero, by simp [OpenState.log], by simp [OpenState.log]⟩, by simp,
      by simp, fun _ _ _ _ => ⟨rfl, fun _ _ => rfl⟩⟩
  refine safe_openDir_of (fun err d' hf => ⟨fun err' he => ?_, by simp⟩) ?_
  · obtain ⟨o, ho⟩ := hf
    exact .inl (.of_fails ho _)
  rw [hbases]
  refine (hnone.safe_openSegments h config.dir hsorted hmem).mono ?_
  rintro ⟨r, st⟩ d' ⟨herr, hok⟩
  refine ⟨fun err he => ⟨fun err' he' => ?_, by simp⟩, fun u hu n hn => ⟨by simp, fun l hl => ?_⟩⟩
  · obtain rfl := Except.error.inj he'
    refine (herr err he).imp_right ?_
    rintro ⟨b, hb, hcut, hall⟩
    refine ⟨partOf c d b, hparts ▸ List.mem_map_of_mem hb, hcut, fun q hq hle => ?_⟩
    rw [hparts] at hq
    obtain ⟨b', hb', rfl⟩ := List.mem_map.mp hq
    exact hall b' hb' hle
  · obtain rfl := Except.ok.inj hl
    obtain ⟨hload, hfits⟩ := hok u hu
    have hall : ∀ p ∈ parts c d, p.Fits := by
      rw [hparts]
      exact List.forall_mem_map.mpr hfits
    rcases hn with rfl | ⟨hlt, hclosed, hactive⟩
    · exact ⟨hload.held, hload.representable, hall⟩
    · -- A log without segments goes on where the watermark says.
      dsimp only at hclosed hactive
      rw [hclosed, hactive]
      exact ⟨Parted.held ⟨rfl, by simp⟩ hload.held.linked, ⟨hlt, by simp, by simp⟩, hall⟩

/-- What a log, its directory and some subscriptions can come to: every append
finds room for its offsets, and no round counts beyond the largest one. -/
inductive Ran (c : Codec) (fails : Op FileName → Prop) (config : SegmentLogConfig)
    (d₀ : Disk FileName) : Disk FileName → Log → List Subscription → Prop
  | opened {d : Disk FileName} {l : Log}
      (h : Finishes (Step fails) d₀ (openDir c config) d (.ok l)) : Ran c fails config d₀ d l []
  | appended {d d' : Disk FileName} {l l' : Log} {subs : List Subscription} {producerId : String}
      {events : List OtkEvent} {r : Except StorageError ℕ} (prior : Ran c fails config d₀ d l subs)
      (room : Room c l producerId events)
      (h : Finishes (Step fails) d (append c producerId events l) d' (r, l')) :
      Ran c fails config d₀ d' l' subs
  | read {d d' : Disk FileName} {l l' : Log} {subs : List Subscription} {start : ℕ}
      {stop : Option ℕ} {r : Except StorageError (List LogEntry)}
      (prior : Ran c fails config d₀ d l subs)
      (h : Finishes (Step fails) d (readRange c start stop l) d' (r, l')) :
      Ran c fails config d₀ d' l' subs
  | subscribed {d : Disk FileName} {l : Log} {subs : List Subscription} {start : ℕ}
      {s : Subscription} (prior : Ran c fails config d₀ d l subs) (hstart : start < 2 ^ 64)
      (h : l.subscribe start = .ok s) : Ran c fails config d₀ d l (s :: subs)
  | delivered {d d' : Disk FileName} {l : Log} {before after : List Subscription}
      {s s' : Subscription} {dir : String} {r : Except ReadFault Subscription.Round}
      (prior : Ran c fails config d₀ d l (before ++ s :: after))
      (h : Finishes (Step fails) d (Checked.round c dir s) d' (r, s'))
      (counted : r ≠ .error .overflow) : Ran c fails config d₀ d' l (before ++ s' :: after)

structure Sustained (c : Codec) (fails : Op FileName → Prop) (d : Disk FileName) (l : Log)
    (subs : List Subscription) : Prop where
  held : Held c d l
  representable : Representable l
  counts : ∀ s ∈ subs, s.nextOffset < 2 ^ 64
  clean : l.poisoned = true → ∃ o, fails o

variable {l l' : Log} {subs : List Subscription}

theorem counts_subscribe {start : ℕ} {s : Subscription} (h : l.subscribe start = .ok s) :
    s.nextOffset = start := by
  unfold Log.subscribe at h
  split_ifs at h <;> · cases h; rfl

theorem clean_append (hclean : l.poisoned = true → ∃ o, fails o) (hnext : l.nextOffset < 2 ^ 64)
    {producerId : String} {events : List OtkEvent} {r : Except StorageError ℕ}
    (hx : Finishes (Step fails) d (append c producerId events l) d' (r, l')) :
    l'.poisoned = true → ∃ o, fails o := by
  intro hpoisoned
  by_contra hnone
  have hcalm : ∀ o, fails o → NoFail o := fun o ho => absurd ⟨o, ho⟩ hnone
  have hx' : Finishes (Step NoFail) d (append c producerId events l) d' (r, l') :=
    hx.imp fun _ _ _ _ => Step.imp hcalm
  have hbefore : l.poisoned = false := Bool.eq_false_iff.mpr fun h => hnone (hclean h)
  have hafter := (finishes_bare hx' (calm_append hbefore hnext producerId events)).clean
  exact Bool.false_ne_true (hafter.symm.trans hpoisoned)

theorem representable_moved (h : Representable l) (hm : Moved l l') : Representable l' := by
  obtain ⟨q, rfl⟩ := hm
  refine ⟨h.next, fun a ha => ?_, h.closed⟩
  obtain ⟨b, hb, rfl⟩ := Option.map_eq_some_iff.mp ha
  exact h.active b hb

theorem Ran.sustained (h₀ : Addressable d₀) (h : Ran c fails config d₀ d l subs) :
    Sustained c fails d l subs := by
  induction h with
  | opened h =>
    obtain ⟨hheld, hrep, -⟩ := (finishes_bare h (safe_openDir_loading h₀ config)).2 _ rfl
    refine ⟨hheld, hrep, by simp, fun hpoisoned => ?_⟩
    exact absurd hpoisoned (by simp [(openDir_usable h).1])
  | appended prior room h ih =>
    obtain ⟨hheld, hrep, hcounts, hclean⟩ := ih
    have hrep' := (hrep.says_append _ room).finishes h
    exact ⟨finishes_bare h (hheld.safe_append hrep.next _ _), hrep', hcounts,
      clean_append hclean hrep.next h⟩
  | read prior h ih =>
    obtain ⟨hheld, hrep, hcounts, hclean⟩ := ih
    obtain ⟨rfl, hmoved, -⟩ := finishes_bare h (reads_readRange (c := c) _ _ _)
    refine ⟨hheld.moved hmoved, representable_moved hrep hmoved, hcounts, ?_⟩
    obtain ⟨q, rfl⟩ := hmoved
    exact hclean
  | subscribed prior hstart h ih =>
    refine ⟨ih.held, ih.representable, List.forall_mem_cons.mpr ⟨?_, ih.counts⟩, ih.clean⟩
    rw [counts_subscribe h]
    exact hstart
  | delivered prior h counted ih =>
    obtain ⟨hheld, hrep, hcounts, hclean⟩ := ih
    have hold := hcounts _ (List.mem_append_right _ List.mem_cons_self)
    obtain rfl := finishes_bare h (Checked.safe_round_still hold _)
    have hnew := ((Checked.says_round hold _).finishes h).1
    refine ⟨hheld, hrep, fun s hs => ?_, hclean⟩
    rcases List.mem_append.mp hs with hbefore | hafter
    · exact hcounts s (List.mem_append_left _ hbefore)
    · rcases List.mem_cons.mp hafter with rfl | hafter
      · exact hnew
      · exact hcounts s (List.mem_append_right _ (List.mem_cons_of_mem _ hafter))

/-- What an append that would need the largest offset does: it is turned down, and
the log, every range of it and the committed bytes are as before. -/
structure TurnedDown (c : Codec) (fails : Op FileName → Prop) (d : Disk FileName) (l : Log)
    (d' : Disk FileName) (x : Except StorageError ℕ × Log) : Prop where
  refused : ∃ err, x.1 = .error err ∧ (l.poisoned = false → TurnsDown fails err)
  next : x.2.nextOffset = l.nextOffset
  ranges : ∀ start stop, rangeAt c d' x.2 start stop = rangeAt c d l start stop
  files : ∀ name, (l.active = none → name ≠ .seg l.nextOffset) → d'.find name = d.find name ∧
    ∀ i, d.find name = some i →
      committedBytes l name (d'.data i) = committedBytes l name (d.data i)

/-- The offsets computed from a log, its directory and some subscriptions are all
in `u64`, and an exhausted append does no harm. -/
structure Contained (c : Codec) (fails : Op FileName → Prop) (d : Disk FileName) (l : Log)
    (subs : List Subscription) : Prop where
  append : ∀ producerId events, Room c l producerId events →
    Checked.append c producerId events l = plain (SegmentLog.append c producerId events) l
  readRange : ∀ start stop,
    Checked.readRange c start stop l = plain (SegmentLog.readRange c start stop) l
  latestOffset : Checked.latestOffset l = (pure l.latestOffset : CheckedIo Log (Option ℕ)) l
  round : ∀ s ∈ subs, ∀ dir,
    (∃ d' s', Finishes (Step fails) d (Checked.round c dir s) d' (.error .overflow, s')) ↔
      s.nextOffset = 2 ^ 64 - 1 ∧ (s.upcoming c d).isSome = true
  exhausted : ∀ fails' producerId events d' x, 2 ^ 64 ≤ l.nextOffset + events.length →
    Finishes (Step fails') d (SegmentLog.append c producerId events l) d' x →
    TurnedDown c fails' d l d' x
  returns : ∀ producerId events, Roomy c producerId events l →
    ∃ d' x, Finishes (Step NoFail) d (SegmentLog.append c producerId events l) d' x
  answers : ∀ fails' start stop d' x,
    Finishes (Step fails') d (SegmentLog.readRange c start stop l) d' x →
    x.1 = rangeAt c d l start stop ∨ (∃ o, fails' o) ∧ x.1 = .error (.io .other)

theorem Sustained.contained (h : Sustained c fails d l subs) : Contained c fails d l subs := by
  obtain ⟨hheld, hrep, hcounts, hclean⟩ := h
  refine ⟨fun producerId events => Checked.append_eq hrep producerId, Checked.readRange_eq hrep,
    Checked.latestOffset_eq hrep, fun s hs => Checked.round_overflows_iff (hcounts s hs), ?_, ?_, ?_⟩
  · intro fails' producerId events d' x hfull hx
    obtain ⟨err, hr, hu, hwhy⟩ :=
      finishes_bare hx (hheld.safe_append_exhausted hrep.next producerId hfull)
    exact ⟨⟨err, hr, hwhy⟩, hu.next, hu.rangeAt_eq hheld, hu.files⟩
  · intro producerId events hroomy
    obtain ⟨d', x, hx, -⟩ := (flows_append hroomy).finishes d
    exact ⟨d', x, hx⟩
  · intro fails' start stop d' x hx
    exact (finishes_bare hx (reads_readRange l start stop)).2.2

theorem addressable_empty : Addressable .empty :=
  ⟨⟨by simp [Unshared, Disk.empty, Disk.find], by simp [Disk.empty, Disk.find]⟩,
    by simp [Disk.empty, Disk.find], by simp [Disk.empty, Disk.find]⟩

/-- Which offset computations stay in `u64`: all that `open` does, and those of any
run whose appends find room in the active segment, but for the count of a
subscription that comes to a record with the largest offset. -/
theorem offsets_never_wrap (c : Codec) (fails : Op FileName → Prop) (config : SegmentLogConfig)
    {d₀ : Disk FileName} (h₀ : Addressable d₀) :
    Checked.openDir c config = (openDir c config >>= fun r => .pure (r.mapError .storage)) ∧
    (∀ p ∈ parts c d₀, ¬ p.Fits → (∀ q ∈ parts c d₀, q.base < p.base → ¬ CutShort c d₀ q.base) →
      ∀ d r, Finishes (Step fails) d₀ (openDir c config) d r →
        ∃ err, r = .error err ∧ Rejects fails err) ∧
    ∀ d l subs, Ran c fails config d₀ d l subs → Contained c fails d l subs := by
  refine ⟨Checked.openDir_eq config, fun p hp hfit hcut d r hx => ?_, fun d l subs hrun => ?_⟩
  · obtain ⟨herr, hok⟩ := finishes_bare hx (safe_openDir_loading h₀ config)
    cases r with
    | ok l => exact absurd ((hok l rfl).2.2 p hp) hfit
    | error err =>
      refine ⟨err, rfl, (herr err rfl).resolve_right ?_⟩
      rintro ⟨q, hq, hshort, hall⟩
      have hbelow : q.base < p.base := not_le.mp fun hle => hfit (hall p hp hle)
      exact hcut q hq hbelow hshort
  · exact (hrun.sustained h₀).contained

/-- A segment file with some entries, its records one after the other. -/
def someRecords (base n : ℕ) : List UInt8 :=
  SegmentHeader.bytes ⟨base, 0⟩ ++ (List.range n).flatMap fun i =>
    recordBytes sampleCodec ⟨base + i, 0, "p", sampleHealth⟩

/-- An unindexed segment that ends two entries before the last offset. -/
def nearLimit : Disk FileName where
  dir := (∅ : AList fun _ : FileName => ℕ).insert (.seg (2 ^ 64 - 3)) 0
  data i := match i with
    | 0 => someRecords (2 ^ 64 - 3) 1
    | _ => []
  next := 1

theorem addressable_of_entries (hnodup : (d.dir.entries.map Sigma.snd).Nodup)
    (h : ∀ e ∈ d.dir.entries, e.2 < d.next ∧ (d.data e.2).length ≤ maxFileLen ∧
      ∀ b, e.1 = .seg b → b < 2 ^ 64) : Addressable d := by
  have hmem : ∀ {x i}, d.find x = some i → ⟨x, i⟩ ∈ d.dir.entries :=
    fun hx => AList.mem_lookup_iff.mp (Option.mem_def.mpr hx)
  refine ⟨⟨unshared_of_nodup hnodup, fun x i hx => (h _ (hmem hx)).1⟩,
    fun x i hx => (h _ (hmem hx)).2.1, fun b hb => ?_⟩
  obtain ⟨i, hi⟩ := Option.isSome_iff_exists.mp hb
  exact (h _ (hmem hi)).2.2 b rfl

theorem addressable_nearLimit : Addressable nearLimit := by
  have hentries : nearLimit.dir.entries = [⟨.seg (2 ^ 64 - 3), 0⟩] := rfl
  refine addressable_of_entries (by decide) ?_
  rw [hentries, List.forall_mem_singleton]
  exact ⟨by decide, by decide +kernel, by simp⟩

/-- Whether an offset left `u64`. -/
def overflows {α : Type} : Except ReadFault α → Bool
  | .error .overflow => true
  | _ => false

theorem overflows_iff {α : Type} {r : Except ReadFault α} :
    overflows r = true ↔ r = .error .overflow := by
  cases r with
  | ok a => simp [overflows]
  | error e => cases e <;> simp [overflows]

theorem eq_ok_of_toOption {ε α : Type} {r : Except ε α} {a : α} (h : r.toOption = some a) :
    r = .ok a := by
  cases r with
  | ok b => exact congrArg Except.ok (Option.some.inj h)
  | error e => cases h

theorem exists_of_isOk {ε α : Type} {r : Except ε α} (h : r.isOk = true) : ∃ a, r = .ok a := by
  cases r with
  | ok a => exact ⟨a, rfl⟩
  | error e => cases h

/-- Opening, appending the entry before the last offset, and reading it. -/
theorem simulate_nearLimit :
    ((simulate 0 (openDir sampleCodec {}) [] nearLimit).bind fun x =>
      x.2.toOption.bind fun l =>
        (simulate 0 (append sampleCodec "p" [sampleHealth] l) [] x.1).bind fun y =>
          (y.2.2.subscribe (2 ^ 64 - 2)).toOption.bind fun s =>
            (simulate 0 (Checked.round sampleCodec "otk-log" s) [] y.1).map fun z =>
              (l.active.all fun a => decide (a.baseOffset + a.positions.length + 1 < 2 ^ 64),
                overflows z.2.1, z.2.2.nextOffset, y.2.2.nextOffset)) =
      some (true, false, 2 ^ 64 - 1, 2 ^ 64 - 1) := by
  unfold openDir openLog
  simp only [List.mergeSort_eq_insertionSort]
  decide +kernel

/-- A run that stops before the last offset. -/
theorem offsets_never_wrap_near :
    Addressable nearLimit ∧ ∃ d l s, Ran sampleCodec NoFail {} nearLimit d l [s] ∧
      l.nextOffset = 2 ^ 64 - 1 ∧ s.nextOffset = 2 ^ 64 - 1 ∧
      Contained sampleCodec NoFail d l [s] := by
  obtain ⟨⟨d, r⟩, hopen, hrest⟩ := Option.bind_eq_some_iff.mp simulate_nearLimit
  obtain ⟨l, hl, hrest⟩ := Option.bind_eq_some_iff.mp hrest
  obtain ⟨⟨d', r', l'⟩, happend, hrest⟩ := Option.bind_eq_some_iff.mp hrest
  obtain ⟨s, hs, hrest⟩ := Option.bind_eq_some_iff.mp hrest
  obtain ⟨⟨d'', r'', s'⟩, hround, hx⟩ := Option.map_eq_some_iff.mp hrest
  obtain ⟨hroom, hx⟩ := Prod.mk.inj hx
  obtain ⟨hcounted, hx⟩ := Prod.mk.inj hx
  obtain ⟨hoffset, hnext⟩ := Prod.mk.inj hx
  obtain rfl := eq_ok_of_toOption hl
  have hopened : Ran sampleCodec NoFail {} nearLimit d l [] :=
    .opened (finishes_of_simulate (by simp) hopen)
  have happended : Ran sampleCodec NoFail {} nearLimit d' l' [] :=
    .appended hopened (fun _ _ a ha => by simpa [ha] using hroom)
      (finishes_of_simulate (by simp) happend)
  have hsubscribed : Ran sampleCodec NoFail {} nearLimit d' l' ([] ++ s :: []) :=
    .subscribed happended (show 2 ^ 64 - 2 < 2 ^ 64 by omega) (eq_ok_of_toOption hs)
  have hran : Ran sampleCodec NoFail {} nearLimit d'' l' [s'] :=
    .delivered hsubscribed (finishes_of_simulate (by simp) hround) fun hr =>
      Bool.false_ne_true (hcounted.symm.trans (overflows_iff.mpr hr))
  have hruns := (offsets_never_wrap sampleCodec NoFail {} addressable_nearLimit).2.2
  exact ⟨addressable_nearLimit, d'', l', s', hran, hnext, hoffset, hruns _ _ _ hran⟩

/-- An unindexed segment with three entries, which ends behind the indexed one. -/
def overlapping : Disk FileName where
  dir := (((∅ : AList fun _ : FileName => ℕ).insert (.idx (2 ^ 64 - 3)) 2).insert
    (.seg (2 ^ 64 - 3)) 1).insert (.seg (2 ^ 64 - 4)) 0
  data i := match i with
    | 0 => someRecords (2 ^ 64 - 4) 3
    | 1 => someRecords (2 ^ 64 - 3) 1 ++ sentinel
    | 2 => indexBytes [headerLen]
    | _ => []
  next := 3

/-- A closed segment whose index leaves out its second entry, the one with the
largest offset. -/
def beyondIndex : Disk FileName where
  dir := ((∅ : AList fun _ : FileName => ℕ).insert (.idx (2 ^ 64 - 2)) 1).insert
    (.seg (2 ^ 64 - 2)) 0
  data i := match i with
    | 0 => someRecords (2 ^ 64 - 2) 2 ++ sentinel
    | 1 => indexBytes [headerLen]
    | _ => []
  next := 2

theorem addressable_overlapping : Addressable overlapping := by
  have hentries : overlapping.dir.entries =
      [⟨.seg (2 ^ 64 - 4), 0⟩, ⟨.seg (2 ^ 64 - 3), 1⟩, ⟨.idx (2 ^ 64 - 3), 2⟩] := rfl
  refine addressable_of_entries (by decide) ?_
  rw [hentries, List.forall_mem_cons, List.forall_mem_cons, List.forall_mem_singleton]
  exact ⟨⟨by decide, by decide +kernel, by simp⟩, ⟨by decide, by decide +kernel, by simp⟩,
    ⟨by decide, by decide +kernel, by simp⟩⟩

theorem addressable_beyondIndex : Addressable beyondIndex := by
  have hentries : beyondIndex.dir.entries = [⟨.seg (2 ^ 64 - 2), 0⟩, ⟨.idx (2 ^ 64 - 2), 1⟩] := rfl
  refine addressable_of_entries (by decide) ?_
  rw [hentries, List.forall_mem_cons, List.forall_mem_singleton]
  exact ⟨⟨by decide, by decide +kernel, by simp⟩, ⟨by decide, by decide +kernel, by simp⟩⟩

/-- Opening, appending one entry, and reading on from the indexed segment. -/
theorem simulate_overlapping :
    ((simulate 0 (openDir sampleCodec {}) [] overlapping).bind fun x =>
      x.2.toOption.bind fun l =>
        (simulate 0 (append sampleCodec "p" [sampleHealth] l) [] x.1).bind fun y =>
          (simulate 0 (Checked.readRange sampleCodec (2 ^ 64 - 3) none y.2.2) [] y.1).map fun z =>
            (y.2.1.isOk, overflows z.2.1)) = some (true, true) := by
  unfold openDir openLog
  simp only [List.mergeSort_eq_insertionSort]
  decide +kernel

/-- Opening, subscribing to the last committed entry, and two rounds. -/
theorem simulate_beyondIndex :
    ((simulate 0 (openDir sampleCodec {}) [] beyondIndex).bind fun x =>
      x.2.toOption.bind fun l => (l.subscribe (2 ^ 64 - 2)).toOption.bind fun s =>
        (simulate 0 (Checked.round sampleCodec "data" s) [] x.1).bind fun y =>
          (simulate 0 (Checked.round sampleCodec "data" y.2.2) [] y.1).map fun z =>
            (y.2.1.isOk, overflows z.2.1)) = some (true, true) := by
  unfold openDir openLog
  simp only [List.mergeSort_eq_insertionSort]
  decide +kernel

/-- Two directories that open: an append ends the unindexed segment of the first
behind `u64`, and a subscription to the second counts beyond the largest offset. -/
theorem offsets_wrap :
    (Addressable overlapping ∧ ∃ d l d' n l' d'' l'',
      Finishes (Step NoFail) overlapping (openDir sampleCodec {}) d (.ok l) ∧
      Finishes (Step NoFail) d (append sampleCodec "p" [sampleHealth] l) d' (.ok n, l') ∧
      Finishes (Step NoFail) d' (Checked.readRange sampleCodec (2 ^ 64 - 3) none l') d''
        (.error .overflow, l'')) ∧
    (Addressable beyondIndex ∧ ∃ d l s d' e s' d'' s'',
      Finishes (Step NoFail) beyondIndex (openDir sampleCodec {}) d (.ok l) ∧
      l.subscribe (2 ^ 64 - 2) = .ok s ∧
      Finishes (Step NoFail) d (Checked.round sampleCodec "data" s) d' (.ok e, s') ∧
      Finishes (Step NoFail) d' (Checked.round sampleCodec "data" s') d''
        (.error .overflow, s'')) := by
  refine ⟨⟨addressable_overlapping, ?_⟩, addressable_beyondIndex, ?_⟩
  · obtain ⟨⟨d, r⟩, hopen, hrest⟩ := Option.bind_eq_some_iff.mp simulate_overlapping
    obtain ⟨l, hl, hrest⟩ := Option.bind_eq_some_iff.mp hrest
    obtain ⟨⟨d', r', l'⟩, happend, hrest⟩ := Option.bind_eq_some_iff.mp hrest
    obtain ⟨⟨d'', r'', l''⟩, hread, hx⟩ := Option.map_eq_some_iff.mp hrest
    obtain ⟨hok, hover⟩ := Prod.mk.inj hx
    obtain rfl : r = .ok l := eq_ok_of_toOption hl
    obtain ⟨n, rfl⟩ : ∃ n, r' = .ok n := exists_of_isOk hok
    obtain rfl : r'' = .error .overflow := overflows_iff.mp hover
    exact ⟨d, l, d', n, l', d'', l'', finishes_of_simulate (by simp) hopen,
      finishes_of_simulate (by simp) happend, finishes_of_simulate (by simp) hread⟩
  · obtain ⟨⟨d, r⟩, hopen, hrest⟩ := Option.bind_eq_some_iff.mp simulate_beyondIndex
    obtain ⟨l, hl, hrest⟩ := Option.bind_eq_some_iff.mp hrest
    obtain ⟨s, hs, hrest⟩ := Option.bind_eq_some_iff.mp hrest
    obtain ⟨⟨d', r', s'⟩, hfirst, hrest⟩ := Option.bind_eq_some_iff.mp hrest
    obtain ⟨⟨d'', r'', s''⟩, hsecond, hx⟩ := Option.map_eq_some_iff.mp hrest
    obtain ⟨hok, hover⟩ := Prod.mk.inj hx
    obtain rfl : r = .ok l := eq_ok_of_toOption hl
    obtain ⟨e, rfl⟩ : ∃ e, r' = .ok e := exists_of_isOk hok
    obtain rfl : r'' = .error .overflow := overflows_iff.mp hover
    exact ⟨d, l, s, d', e, s', d'', s'', finishes_of_simulate (by simp) hopen,
      eq_ok_of_toOption hs, finishes_of_simulate (by simp) hfirst,
      finishes_of_simulate (by simp) hsecond⟩

end OtkCore.SegmentLog
