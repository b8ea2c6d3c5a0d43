import OtkCore.SegmentLog.Faithful

/-!
# Crashes

The process may stop between any two operations on the file system, inside an
append or inside the recovery of an earlier crash; a write that was cut short
is a short write. What a caller was told before survives in the directory, and
the next `open` finds it.
-/
namespace OtkCore.SegmentLog

open Effect FileIO Bytes

/-- What callers know: acknowledged events with their offsets, and entries that
were read. -/
structure Told where
  acked : List (ℕ × String × OtkEvent)
  seen : List LogEntry

/-- The events of a successful append, with the offset of the last one. -/
def acknowledged (producerId : String) (events : List OtkEvent) :
    Except StorageError ℕ → List (ℕ × String × OtkEvent)
  | .ok last => events.mapIdx fun i event => (last + 1 - events.length + i, producerId, event)
  | .error _ => []

def returned : Except StorageError (List LogEntry) → List LogEntry
  | .ok entries => entries
  | .error _ => []

/-- Lives of a log directory: the log is open, or the process has stopped. -/
inductive Reached (c : Codec) : Told → Option Log → Disk FileName → Prop
  | empty : Reached c ⟨[], []⟩ none .empty
  | opened {t : Told} {d d' : Disk FileName} {config : SegmentLogConfig} {l : Log} :
      Reached c t none d → Finishes (Step NoFail) d (openDir c config) d' (.ok l) →
      Reached c t (some l) d'
  | appended {t : Told} {l l' : Log} {d d' : Disk FileName} {producerId : String}
      {events : List OtkEvent} {r : Except StorageError ℕ} :
      Reached c t (some l) d → Decodes c events →
      Finishes (Step NoFail) d (append c producerId events l) d' (r, l') →
      Reached c { t with acked := t.acked ++ acknowledged producerId events r } (some l') d'
  | read {t : Told} {l l' : Log} {d d' : Disk FileName} {start : ℕ} {stop : Option ℕ}
      {r : Except StorageError (List LogEntry)} :
      Reached c t (some l) d → Finishes (Step NoFail) d (readRange c start stop l) d' (r, l') →
      Reached c { t with seen := t.seen ++ returned r } (some l') d'
  | appendStopped {t : Told} {l : Log} {d d' : Disk FileName} {producerId : String}
      {events : List OtkEvent} {tr : List (Event (Resp (N := FileName)))}
      {rest : Prog (Resp (N := FileName)) (Except StorageError ℕ × Log)} :
      Reached c t (some l) d → Decodes c events →
      Exec (Step NoFail) d (append c producerId events l) tr d' rest → Reached c t none d'
  | openStopped {t : Told} {d d' : Disk FileName} {config : SegmentLogConfig}
      {tr : List (Event (Resp (N := FileName)))}
      {rest : Prog (Resp (N := FileName)) (Except StorageError Log)} :
      Reached c t none d → Exec (Step NoFail) d (openDir c config) tr d' rest → Reached c t none d'

variable {c : Codec} {l : Log} {w : World} {d d' : Disk FileName}

/-- Nothing fails, and the entries that are there stay. -/
def keeping (entries : List LogEntry) : Mode := ⟨NoFail, False, (entries <+: ·)⟩

theorem calm_keeping (entries : List LogEntry) : (keeping entries).Calm := ⟨fun _ h => h, id⟩

/-- A stopped program that keeps the entries leaves a good directory. -/
theorem Good.stopped {α : Type} {p rest : Prog (Resp (N := FileName)) α}
    {tr : List (Event (Resp (N := FileName)))} (hg : Good c w)
    (hx : Exec (Step NoFail) w.disk p tr d' rest) {Q : α → World → Prop}
    (hs : Safe (setting c (keeping w.ghost.total)) p Q w) :
    ∃ w', w'.disk = d' ∧ Good c w' ∧ w.ghost.total <+: w'.ghost.total := by
  have hI : ∀ w₁ o r w₂, Good c w₁ ∧ w.ghost.total <+: w₁.ghost.total →
      (setting c (keeping w.ghost.total)).guar w₁ o r w₂ →
      Good c w₂ ∧ w.ghost.total <+: w₂.ghost.total :=
    fun w₁ o r w₂ hi hguar => ⟨hi.1.move hguar.1, hguar.2.1 hi.2⟩
  obtain ⟨w', hd, hi, -⟩ := hs.exec (fun _ => rfl) hx (fun w₁ o r w₂ _ => hI w₁ o r w₂) rfl
    ⟨hg, List.prefix_rfl⟩
  exact ⟨w', hd, hi.1, hi.2⟩

theorem Rep.appendStopped (h : Rep c calm l w) {producerId : String} {events : List OtkEvent}
    (hcod : Decodes c events) {tr : List (Event (Resp (N := FileName)))}
    {rest : Prog (Resp (N := FileName)) (Except StorageError ℕ × Log)}
    (hx : Exec (Step NoFail) w.disk (SegmentLog.append c producerId events l) tr d' rest) :
    ∃ w', w'.disk = d' ∧ Good c w' ∧ w.ghost.total <+: w'.ghost.total := by
  have hrep : Rep c (keeping w.ghost.total) l w := h.congr_mode Iff.rfl
  exact h.good.stopped hx (hrep.append (Q := fun _ _ => True) (calm_keeping _).undoes
    (fun hs => hs.elim) producerId events hcod (fun _ _ _ _ => List.prefix_append _ _)
    (fun _ _ _ _ _ _ _ _ _ _ _ => trivial) fun _ _ _ _ _ _ => trivial)

theorem Good.openStopped (h : Good c w) {config : SegmentLogConfig}
    {tr : List (Event (Resp (N := FileName)))}
    {rest : Prog (Resp (N := FileName)) (Except StorageError Log)}
    (hx : Exec (Step NoFail) w.disk (SegmentLog.openDir c config) tr d' rest) :
    ∃ w', w'.disk = d' ∧ Good c w' ∧ w.ghost.total <+: w'.ghost.total :=
  h.stopped hx (Q := fun _ _ => True) (h.openDir (calm_keeping _) List.prefix_rfl config
    (fun _ _ _ _ _ _ _ _ _ => trivial) fun _ _ => trivial)

/-- What callers were told is what the entries say. -/
structure Told.In (t : Told) (entries : List LogEntry) : Prop where
  acked : ∀ x ∈ t.acked, ∃ ts, entries[x.1]? = some ⟨x.1, ts, x.2.1, x.2.2⟩
  seen : ∀ e ∈ t.seen, entries[e.offset]? = some e

theorem getElem?_of_prefix {α : Type} {xs ys : List α} (h : xs <+: ys) {i : ℕ} {x : α}
    (hx : xs[i]? = some x) : ys[i]? = some x := by
  obtain ⟨more, rfl⟩ := h
  rw [List.getElem?_append_left (List.getElem?_eq_some_iff.mp hx).1, hx]

theorem Told.In.mono {t : Told} {xs ys : List LogEntry} (h : t.In xs) (hp : xs <+: ys) : t.In ys :=
  ⟨fun x hx => (h.acked x hx).imp fun _ he => getElem?_of_prefix hp he,
    fun e he => getElem?_of_prefix hp (h.seen e he)⟩

theorem acknowledged_in (entries : List LogEntry) (ts : ℕ) (producerId : String)
    {events : List OtkEvent} (hne : events ≠ []) :
    Told.In ⟨acknowledged producerId events (.ok (entries.length + events.length - 1)), []⟩
      (entries ++ batchOf entries.length ts producerId events) := by
  refine ⟨fun x hx => ⟨ts, ?_⟩, by simp⟩
  have hpos := List.length_pos_of_ne_nil hne
  obtain ⟨i, hi, rfl⟩ := List.mem_mapIdx.mp hx
  have hoff : entries.length + events.length - 1 + 1 - events.length + i = entries.length + i := by
    omega
  rw [hoff, List.getElem?_append_right (Nat.le_add_right _ _), Nat.add_sub_cancel_left, batchOf,
    EventHistory.batchEntries, List.getElem?_mapIdx, List.getElem?_eq_getElem hi]
  rfl

theorem returned_in {entries : List LogEntry} (hnum : Numbered 0 entries) (earliest : Option ℕ)
    (start : ℕ) (stop : Option ℕ) :
    ∀ e ∈ returned (rangeOf entries earliest start stop), entries[e.offset]? = some e := by
  intro e he
  have hmem : e ∈ entries := by
    unfold rangeOf at he
    split_ifs at he
    · simp [returned] at he
    · simp [returned] at he
    · exact List.mem_of_mem_filter he
  obtain ⟨i, hi, rfl⟩ := List.getElem_of_mem hmem
  have hoff := hnum i _ (List.getElem?_eq_getElem hi)
  rw [hoff, Nat.zero_add, List.getElem?_eq_getElem hi]

/-- Every life of a directory leaves it good, with everything that was told. -/
theorem Reached.world {t : Told} {log : Option Log} (h : Reached c t log d) :
    ∃ w, w.disk = d ∧ Good c w ∧ t.In w.ghost.total ∧
      ∀ l, log = some l → Rep c calm l w ∧ l.poisoned = false := by
  induction h with
  | empty => exact ⟨.empty, rfl, good_empty, ⟨by simp, by simp⟩, by simp⟩
  | @opened t d d' config l _ hx ih =>
    obtain ⟨w, rfl, hg, hin, -⟩ := ih
    rcases (hg.reopen config).2 _ _ hx with ⟨-, l', w', hl, hd, hrep, hp, htotal, -⟩ | ⟨-, msg, hr⟩
    · obtain rfl := Except.ok.inj hl
      refine ⟨w', hd, hrep.good, htotal ▸ hin, fun l₁ hl₁ => ?_⟩
      obtain rfl := Option.some.inj hl₁
      exact ⟨hrep, hp⟩
    · simp at hr
  | @appended t l l' d d' producerId events r _ hcod hx ih =>
    obtain ⟨w, rfl, hg, hin, hlog⟩ := ih
    obtain ⟨hrep, hp⟩ := hlog l rfl
    obtain ⟨w', hd, hrep', hp', hcase⟩ := hrep.appended hp hcod hx
    refine ⟨w', hd, hrep'.good, ?_, fun l₁ hl₁ => Option.some.inj hl₁ ▸ ⟨hrep', hp'⟩⟩
    rcases hcase with ⟨ts, rfl, htotal⟩ | ⟨err, rfl, -, htotal⟩
    · have hne : events ≠ [] := by
        intro hnil
        obtain ⟨err, herr⟩ := append_refused (Or.inl hnil) hx
        simp at herr
      have hnext := hrep.clean hp
      rw [hnext] at htotal ⊢
      rw [htotal]
      have hold := hin.mono (List.prefix_append _ (batchOf w.ghost.total.length ts producerId events))
      have hnew := acknowledged_in w.ghost.total ts producerId hne
      exact ⟨fun x hx => (List.mem_append.mp hx).elim (hold.acked x) (hnew.acked x), hold.seen⟩
    · rw [htotal]
      simpa [acknowledged] using hin
  | @read t l l' d d' start stop r _ hx ih =>
    obtain ⟨w, rfl, hg, hin, hlog⟩ := ih
    obtain ⟨hrep, hp⟩ := hlog l rfl
    obtain ⟨rfl, hd, hrep', hkept⟩ := hrep.ranged hx
    have hcommitted : committed l w = w.ghost.total := by
      rw [committed, hrep.clean hp, List.take_length]
    rw [hcommitted]
    refine ⟨w, hd.symm, hg, ⟨hin.acked, fun e he => ?_⟩,
      fun l₁ hl₁ => Option.some.inj hl₁ ▸ ⟨hrep', hkept.poisoned.trans hp⟩⟩
    exact (List.mem_append.mp he).elim (hin.seen e)
      (returned_in hg.numbered_total l.earliestOffset start stop e)
  | @appendStopped t l d d' producerId events tr rest _ hcod hx ih =>
    obtain ⟨w, rfl, hg, hin, hlog⟩ := ih
    obtain ⟨w', hd, hg', hprefix⟩ := (hlog l rfl).1.appendStopped hcod hx
    exact ⟨w', hd, hg', hin.mono hprefix, by simp⟩
  | @openStopped t d d' config tr rest _ hx ih =>
    obtain ⟨w, rfl, hg, hin, -⟩ := ih
    obtain ⟨w', hd, hg', hprefix⟩ := hg.openStopped hx
    exact ⟨w', hd, hg', hin.mono hprefix, by simp⟩

/-- Reading one offset returns exactly this entry. -/
def ReadsBack (c : Codec) (l : Log) (d : Disk FileName) (e : LogEntry) : Prop :=
  (∃ d' x, Finishes (Step NoFail) d (readRange c e.offset (some (e.offset + 1)) l) d' x) ∧
    ∀ d' r l', Finishes (Step NoFail) d (readRange c e.offset (some (e.offset + 1)) l) d' (r, l') →
      r = .ok [e]

theorem Rep.readsBack (h : Rep c calm l w) (hp : l.poisoned = false) {e : LogEntry}
    (he : w.ghost.total[e.offset]? = some e) (hleft : (evictedEntries w).length ≤ e.offset) :
    ReadsBack c l w.disk e := by
  constructor
  · have hfree : Free NoFail (SegmentLog.readRange c e.offset (some (e.offset + 1))) :=
      free_readRange _ _
    obtain ⟨d', x, hx, -⟩ := (hfree l).finishes w.disk
    exact ⟨d', x, hx⟩
  · intro d' r l' hx
    obtain ⟨rfl, -⟩ := h.ranged hx
    have hlt := (List.getElem?_eq_some_iff.mp he).1
    have hcommitted : committed l w = w.ghost.total := by
      rw [committed, h.clean hp, List.take_length]
    have hne : retainedEntries l w ≠ [] := by
      intro hnil
      have hsplit := h.committed_eq
      rw [hcommitted, hnil, List.append_nil] at hsplit
      rw [hsplit] at hlt
      omega
    have hone : w.ghost.total.filter (InRange e.offset (e.offset + 1)) = [e] := by
      rw [h.good.numbered_total.filter_inRange, Nat.sub_zero, Nat.sub_zero, List.drop_take,
        Nat.add_sub_cancel_left, List.take_one, List.head?_drop, he]
      rfl
    have hnot : ¬ ((some (e.offset + 1)).any (· ≤ e.offset) = true ∨
        w.ghost.total.length ≤ e.offset) := by
      simpa using hlt
    rw [rangeOf, hcommitted, h.earliestOffset_eq, if_neg hne, if_neg hnot,
      if_neg (by simpa using hleft)]
    exact congrArg Except.ok hone

/-- Whatever was stopped where: `open` succeeds unless an index is too large,
everything acknowledged or read whose segment file is left reads back
unchanged, the retained offsets are contiguous, and no acknowledged offset is
assigned again. -/
theorem crash_consistent {t : Told} {log : Option Log} (h : Reached c t log d)
    (config : SegmentLogConfig) :
    (∃ d' r, Finishes (Step NoFail) d (openDir c config) d' r) ∧
    ∀ d' r, Finishes (Step NoFail) d (openDir c config) d' r →
      ((∃ l, r = .ok l) ↔ IndexesReadable d) ∧
      ∀ l, r = .ok l →
        (∀ offset producerId event, (offset, producerId, event) ∈ t.acked →
          offset < l.nextOffset ∧
            (Retained d offset → ∃ ts, ReadsBack c l d' ⟨offset, ts, producerId, event⟩)) ∧
        (∀ e ∈ t.seen, e.offset < l.nextOffset ∧ (Retained d e.offset → ReadsBack c l d' e)) ∧
        ∃ earliest, Covers earliest l.ranges l.nextOffset := by
  obtain ⟨w, rfl, hg, hin, -⟩ := h.world
  have hopen := hg.reopen config
  refine ⟨hopen.1, fun d' r hx => ?_⟩
  rcases hopen.2 d' r hx with ⟨hread, l, w', rfl, rfl, hrep, hp, htotal, hevicted⟩ | ⟨hbig, msg, rfl⟩
  · refine ⟨by simp [hread], fun l' hl' => ?_⟩
    obtain rfl := Except.ok.inj hl'
    have hnext : l.nextOffset = w.ghost.total.length := by rw [hrep.clean hp, htotal]
    -- An entry that is stored is counted, and read back while its segment is left.
    have hback : ∀ e : LogEntry, w.ghost.total[e.offset]? = some e →
        e.offset < l.nextOffset ∧ (Retained w.disk e.offset → ReadsBack c l w'.disk e) := by
      intro e he
      have hlt := (List.getElem?_eq_some_iff.mp he).1
      refine ⟨hnext ▸ hlt, fun hleft => hrep.readsBack hp (by rwa [htotal]) ?_⟩
      rw [hevicted]
      exact (hg.retained_iff hlt).mp hleft
    refine ⟨fun offset producerId event hmem => ?_, fun e he => hback e (hin.seen e he),
      _, hrep.covers⟩
    obtain ⟨ts, hts⟩ := hin.acked _ hmem
    have hone := hback ⟨offset, ts, producerId, event⟩ hts
    exact ⟨hone.1, fun hleft => ⟨ts, hone.2 hleft⟩⟩
  · exact ⟨by simp [hbig], by simp⟩

/-- An event was acknowledged, and the next append was stopped. -/
theorem crash_consistent_sample :
    ∃ d, Reached sampleCodec ⟨[(0, "p", sampleHealth)], []⟩ none d ∧ Retained d 0 ∧
      ∀ config d' l, Finishes (Step NoFail) d (openDir sampleCodec config) d' (.ok l) →
        ∃ ts, ReadsBack sampleCodec l d' ⟨0, ts, "p", sampleHealth⟩ := by
  have hrun : (simulate 0 (append sampleCodec "p" [sampleHealth] ⟨{}, [], none, 0, false⟩) []
      .empty).map (fun x => (x.2.1, (x.1.find (.seg 0)).isSome)) = some (.ok 0, true) := by
    decide +kernel
  obtain ⟨⟨d, r, l⟩, hsim, hr⟩ := Option.map_eq_some_iff.mp hrun
  obtain ⟨rfl, hfind⟩ := Prod.mk.inj hr
  obtain ⟨i, hi⟩ := Option.isSome_iff_exists.mp hfind
  have hleft : Retained d 0 := ⟨0, i, hi, le_rfl⟩
  have hopened : Reached sampleCodec ⟨[], []⟩ (some ⟨{}, [], none, 0, false⟩) .empty :=
    .opened .empty (finishes_openDir_empty {})
  have hreached : Reached sampleCodec ⟨[(0, "p", sampleHealth)], []⟩ none d :=
    .appendStopped (.appended hopened decodes_sample (finishes_of_simulate (by simp) hsim))
      decodes_sample (.refl d (append sampleCodec "p" [sampleHealth] l))
  refine ⟨d, hreached, hleft, fun config d' l hx => ?_⟩
  exact (((crash_consistent hreached config).2 d' _ hx).2 l rfl).1 0 "p" sampleHealth (by simp) |>.2
    hleft

/-- A process that was stopped after a very large batch does not come up again. -/
theorem crash_not_reopened :
    ∃ t d, Reached sampleCodec t none d ∧ ∀ config d' r,
      Finishes (Step NoFail) d (openDir sampleCodec config) d' r →
        ∃ msg, r = .error (.corrupted msg) := by
  obtain ⟨l, d, hx, hbig⟩ := finishes_oversized
  have hopened : Reached sampleCodec ⟨[], []⟩ (some ageless) .empty :=
    .opened .empty (finishes_openDir_empty _)
  have hreached := Reached.appendStopped (.appended hopened decodes_oversized hx) decodes_sample
    (.refl d (append sampleCodec "p" [sampleHealth] l))
  obtain ⟨w, rfl, hg, -⟩ := hreached.world
  refine ⟨_, _, hreached, fun config d' r hx => ?_⟩
  rcases (hg.reopen config).2 d' r hx with ⟨hread, -⟩ | ⟨-, hmsg⟩
  · exact absurd hread hbig
  · exact hmsg

end OtkCore.SegmentLog
