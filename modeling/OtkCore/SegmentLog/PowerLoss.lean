import OtkCore.SegmentLog.Syncing
import OtkCore.SegmentLog.Crash

/-!
# Power loss

The power may go at any moment, and the medium then holds one of the contents that each
file has had since it was last synced, and one of the states of the directory since
then. In synchronous mode what callers were told survives that: everything written is
on the medium when an append succeeds, and an append that was cut short leaves nothing
that it would not have left by being stopped.
-/
namespace OtkCore.SegmentLog

open Effect FileIO

/-- The computer is off, or a log is open, or a call is under way, which found a disk and
has made these operations. -/
inductive Site
  | off (d : Disk FileName)
  | on (l : Log) (m : Cached FileName)
  | amid (d : Disk FileName) (tr : List (Event (Resp (N := FileName)))) (m : Cached FileName)

namespace Site

/-- What is left when the power goes at this moment. -/
def Remains : Site → Disk FileName → Prop
  | .off d, d' => d' = d
  | .on _ m, d' | .amid _ _ m, d' => m.Remains d'

/-- The segment file was there before the call that is under way, if any, and that call has
not deleted it. -/
def Holds : Site → ℕ → ℕ → Prop
  | .off d, base, i => d.find (.seg base) = some i
  | .on _ m, base, i => m.disk.find (.seg base) = some i
  | .amid d tr _, base, i => d.find (.seg base) = some i ∧ ∀ e ∈ tr, ¬ e.1.Relinks (.seg base)

end Site

/-- Lives of a log directory in synchronous mode. The power goes between two operations
of a call, inside a write, or between two calls; a process that is killed is only
started again when the system has written everything back. A read changes nothing, so
that the power may as well go before it. -/
inductive Powered (c : Codec) : Told → Site → Prop
  | empty : Powered c ⟨[], []⟩ (.off .empty)
  | opening {t : Told} {d : Disk FileName} {m : Cached FileName} {config : SegmentLogConfig}
      {tr : List (Event (Resp (N := FileName)))}
      {rest : Prog (Resp (N := FileName)) (Except StorageError Log)} :
      Powered c t (.off d) → Exec (Cached.Step NoFail) (.clean d) (openDir c config) tr m rest →
      Powered c t (.amid d tr m)
  | opened {t : Told} {d : Disk FileName} {m : Cached FileName} {config : SegmentLogConfig}
      {l : Log} : Powered c t (.off d) → config.flushIntervalMs = 0 →
      Finishes (Cached.Step NoFail) (.clean d) (openDir c config) m (.ok l) →
      Powered c t (.on l m)
  | appending {t : Told} {l : Log} {m m' : Cached FileName} {producerId : String}
      {events : List OtkEvent} {tr : List (Event (Resp (N := FileName)))}
      {rest : Prog (Resp (N := FileName)) (Except StorageError ℕ × Log)} :
      Powered c t (.on l m) → Decodes c events →
      Exec (Cached.Step NoFail) m (append c producerId events l) tr m' rest →
      Powered c t (.amid m.disk tr m')
  | appended {t : Told} {l l' : Log} {m m' : Cached FileName} {producerId : String}
      {events : List OtkEvent} {r : Except StorageError ℕ} :
      Powered c t (.on l m) → Decodes c events →
      Finishes (Cached.Step NoFail) m (append c producerId events l) m' (r, l') →
      Powered c { t with acked := t.acked ++ acknowledged producerId events r } (.on l' m')
  | read {t : Told} {l l' : Log} {m m' : Cached FileName} {start : ℕ} {stop : Option ℕ}
      {r : Except StorageError (List LogEntry)} :
      Powered c t (.on l m) →
      Finishes (Cached.Step NoFail) m (readRange c start stop l) m' (r, l') →
      Powered c { t with seen := t.seen ++ returned r } (.on l' m')
  | lost {t : Told} {s : Site} {d : Disk FileName} :
      Powered c t s → s.Remains d → Powered c t (.off d)

variable {c : Codec} {t : Told} {l : Log} {m : Cached FileName} {w : World} {d d' : Disk FileName}

def Blank (d : Disk FileName) : Prop := ∀ i, d.next ≤ i → d.data i = []

theorem Good.clean (h : Good c w) (hb : Blank w.disk) :
    (Cached.clean w.disk).Stored ∧ (Cached.clean w.disk).Listed := by
  refine ⟨⟨⟨h.tidy.bound, hb, ?_⟩, fun _ _ hv => hv⟩, fun _ hx => hx⟩
  rintro x rfl
  exact le_rfl

/-- A disk that a power loss may leave, and what is on it. -/
def Bears (c : Codec) (entries : List LogEntry) (d : Disk FileName) : Prop :=
  ∃ w, w.disk = d ∧ Good c w ∧ entries <+: w.ghost.total

/-- A log is open, and its entries are there whatever a power loss leaves. -/
structure Running (c : Codec) (t : Told) (l : Log) (m : Cached FileName) : Prop where
  only : OnlyActive l m
  world : ∃ w, w.disk = m.disk ∧ Rep c calm l w ∧ l.poisoned = false ∧ t.In w.ghost.total ∧
    ∀ d, m.Remains d → Bears c w.ghost.total d

/-- What was told is on every disk that a power loss may leave, with the segment files that
were there. -/
def Site.Upheld (c : Codec) (t : Told) : Site → Prop
  | .off d => Blank d ∧ ∃ w, w.disk = d ∧ Good c w ∧ t.In w.ghost.total
  | .on l m => Running c t l m
  | .amid d tr m => (∀ d', m.Remains d' → ∃ w, w.disk = d' ∧ Good c w ∧ t.In w.ghost.total) ∧
      ∀ base i, (Site.amid d tr m).Holds base i → m.Leads (.seg base) i

theorem openRemains (h : Good c w) (hb : Blank w.disk) {config : SegmentLogConfig}
    {tr : List (Event (Resp (N := FileName)))}
    {rest : Prog (Resp (N := FileName)) (Except StorageError Log)}
    (hx : Exec (Cached.Step NoFail) (.clean w.disk) (openDir c config) tr m rest)
    (hd : m.Remains d) : Bears c w.ghost.total d := by
  obtain ⟨hstored, hlisted⟩ := h.clean hb
  rcases remains_exec (ordered_openDir h (m := .clean w.disk) rfl hstored hlisted config) hx hd with
    hold | ⟨tr', rest', hstop⟩
  · obtain rfl := hstored.eq_disk hlisted hold
    exact ⟨w, rfl, h, List.prefix_rfl⟩
  · exact h.openStopped hstop

theorem Running.appendRemains (h : Running c t l m) (hw : w.disk = m.disk) (hrep : Rep c calm l w)
    (hold : ∀ d, m.Remains d → Bears c w.ghost.total d) {producerId : String}
    {events : List OtkEvent} (hcod : Decodes c events) {m' : Cached FileName}
    {tr : List (Event (Resp (N := FileName)))}
    {rest : Prog (Resp (N := FileName)) (Except StorageError ℕ × Log)}
    (hx : Exec (Cached.Step NoFail) m (append c producerId events l) tr m' rest)
    (hd : m'.Remains d) : Bears c w.ghost.total d := by
  rcases remains_exec (h.only.ordered_append producerId events) hx hd with
    hbefore | ⟨tr', rest', hstop⟩
  · exact hold d hbefore
  · rw [← hw] at hstop
    exact hrep.appendStopped hcod hstop

theorem Running.appended (h : Running c t l m) {producerId : String} {events : List OtkEvent}
    (hcod : Decodes c events) {l' : Log} {m' : Cached FileName} {r : Except StorageError ℕ}
    (hx : Finishes (Cached.Step NoFail) m (append c producerId events l) m' (r, l')) :
    Running c { t with acked := t.acked ++ acknowledged producerId events r } l' m' := by
  obtain ⟨w, hw, hrep, hp, hin, hold⟩ := h.world
  obtain ⟨_, rfl, honly, hstored⟩ :=
    (h.only.ordered_append producerId events).finishes (fun _ => rfl) hx rfl
  have hx' := finishes_uncached hx
  rw [← hw] at hx'
  obtain ⟨w', hd, hrep', hp', hcase⟩ := hrep.appended hp hcod hx'
  refine ⟨honly, w', hd, hrep', hp', ?_⟩
  rcases hcase with ⟨ts, rfl, htotal⟩ | ⟨err, rfl, -, htotal⟩
  · have hne : events ≠ [] := by
      intro hnil
      obtain ⟨err, herr⟩ := append_refused (Or.inl hnil) hx'
      simp at herr
    refine ⟨?_, fun d hd' => ?_⟩
    · have hnext := hrep.clean hp
      rw [hnext] at htotal ⊢
      rw [htotal]
      have hkept := hin.mono (List.prefix_append w.ghost.total
        (batchOf w.ghost.total.length ts producerId events))
      have hnew := acknowledged_in w.ghost.total ts producerId hne
      exact ⟨fun x hx => (List.mem_append.mp hx).elim (hkept.acked x) (hnew.acked x), hkept.seen⟩
    · -- Nothing but the disk itself can be left.
      obtain rfl := (hstored _ rfl).eq_disk honly.listed hd'
      exact ⟨w', hd, hrep'.good, List.prefix_rfl⟩
  · rw [htotal]
    refine ⟨by simpa [acknowledged] using hin, fun d hd' => ?_⟩
    obtain ⟨tr, hx⟩ := hx
    exact h.appendRemains hw hrep hold hcod hx hd'

theorem Running.read (h : Running c t l m) {start : ℕ} {stop : Option ℕ} {l' : Log}
    {m' : Cached FileName} {r : Except StorageError (List LogEntry)}
    (hx : Finishes (Cached.Step NoFail) m (readRange c start stop l) m' (r, l')) :
    Running c { t with seen := t.seen ++ returned r } l' m' := by
  obtain ⟨w, hw, hrep, hp, hin, hold⟩ := h.world
  obtain ⟨_, rfl, honly, rfl⟩ :=
    (h.only.ordered_readRange start stop).finishes (fun _ => rfl) hx rfl
  have hx' := finishes_uncached hx
  rw [← hw] at hx'
  obtain ⟨rfl, -, hrep', hkept⟩ := hrep.ranged hx'
  have hcommitted : committed l w = w.ghost.total := by
    rw [committed, hrep.clean hp, List.take_length]
  rw [hcommitted]
  refine ⟨honly, w, hw, hrep', hkept.poisoned.trans hp, ⟨hin.acked, fun e he => ?_⟩, hold⟩
  exact (List.mem_append.mp he).elim (hin.seen e)
    (returned_in hrep.good.numbered_total l.earliestOffset start stop e)

theorem Bears.told {entries : List LogEntry} (h : Bears c entries d) (hin : t.In entries) :
    ∃ w, w.disk = d ∧ Good c w ∧ t.In w.ghost.total := by
  obtain ⟨w, hd, hg, hprefix⟩ := h
  exact ⟨w, hd, hg, hin.mono hprefix⟩

theorem Running.appending (h : Running c t l m) {producerId : String} {events : List OtkEvent}
    (hcod : Decodes c events) {m' : Cached FileName} {tr : List (Event (Resp (N := FileName)))}
    {rest : Prog (Resp (N := FileName)) (Except StorageError ℕ × Log)}
    (hx : Exec (Cached.Step NoFail) m (append c producerId events l) tr m' rest) :
    (Site.amid m.disk tr m').Upheld c t := by
  obtain ⟨w, hw, hrep, -, hin, hold⟩ := h.world
  refine ⟨fun d hd => (h.appendRemains hw hrep hold hcod hx hd).told hin, ?_⟩
  rintro base i ⟨hfind, htr⟩
  exact (h.only.listed.leads hfind).exec hx htr

theorem upheld_opening (hb : Blank w.disk) (hg : Good c w) (hin : t.In w.ghost.total)
    {config : SegmentLogConfig} {tr : List (Event (Resp (N := FileName)))}
    {rest : Prog (Resp (N := FileName)) (Except StorageError Log)}
    (hx : Exec (Cached.Step NoFail) (.clean w.disk) (openDir c config) tr m rest) :
    (Site.amid w.disk tr m).Upheld c t := by
  refine ⟨fun d hd => (openRemains hg hb hx hd).told hin, ?_⟩
  rintro base i ⟨hfind, htr⟩
  exact ((hg.clean hb).2.leads hfind).exec hx htr

theorem Running.opened (hb : Blank w.disk) (hg : Good c w) (hin : t.In w.ghost.total)
    {config : SegmentLogConfig} (hsync : config.flushIntervalMs = 0)
    (hx : Finishes (Cached.Step NoFail) (.clean w.disk) (openDir c config) m (.ok l)) :
    Running c t l m := by
  obtain ⟨hstored, hlisted⟩ := hg.clean hb
  obtain ⟨_, rfl, honly⟩ := (ordered_openDir hg (m := .clean w.disk) rfl hstored hlisted
    config).finishes (fun _ => rfl) hx rfl
  rcases (hg.reopen config).2 _ _ (finishes_uncached hx) with
    ⟨-, l', w', hl, hd, hrep, hp, htotal, -⟩ | ⟨-, msg, hr⟩
  · obtain rfl := Except.ok.inj hl
    refine ⟨honly l rfl hsync, w', hd, hrep, hp, htotal ▸ hin, fun d hd' => ?_⟩
    rw [htotal]
    obtain ⟨tr, hx⟩ := hx
    exact openRemains hg hb hx hd'
  · cases hr

theorem Site.Upheld.bears {s : Site} (h : s.Upheld c t) (hd : s.Remains d) :
    Blank d ∧ ∃ w, w.disk = d ∧ Good c w ∧ t.In w.ghost.total := by
  cases s with
  | off d' =>
    obtain rfl : d = d' := hd
    exact h
  | on l m =>
    obtain ⟨w, -, -, -, hin, hold⟩ := Running.world h
    exact ⟨Cached.Remains.fresh hd, (hold d hd).told hin⟩
  | amid d' tr m => exact ⟨Cached.Remains.fresh hd, h.1 d hd⟩

theorem Powered.upheld {s : Site} (h : Powered c t s) : s.Upheld c t := by
  induction h with
  | empty => exact ⟨fun _ _ => rfl, .empty, rfl, good_empty, by simp, by simp⟩
  | opening _ hx ih =>
    obtain ⟨hb, w, rfl, hg, hin⟩ := ih
    exact upheld_opening hb hg hin hx
  | opened _ hsync hx ih =>
    obtain ⟨hb, w, rfl, hg, hin⟩ := ih
    exact Running.opened hb hg hin hsync hx
  | appending _ hcod hx ih => exact Running.appending ih hcod hx
  | appended _ hcod hx ih => exact Running.appended ih hcod hx
  | read _ hx ih => exact Running.read ih hx
  | lost _ hd ih => exact ih.bears hd

theorem Powered.holds {s : Site} (h : Powered c t s) (hd : s.Remains d) {base i : ℕ}
    (hs : s.Holds base i) : d.find (.seg base) = some i := by
  cases s with
  | off d' =>
    obtain rfl : d = d' := hd
    exact hs
  | on l m => exact (Running.only h.upheld).listed.leads hs _ (Cached.Remains.links hd)
  | amid d' tr m => exact h.upheld.2 base i hs _ (Cached.Remains.links hd)

/-- What was told is read back from a log that has been opened. -/
theorem Rep.told_back (hrep : Rep c calm l w) (hp : l.poisoned = false) (hin : t.In w.ghost.total)
    {retained : ℕ → Prop}
    (hleft : ∀ offset < w.ghost.total.length, retained offset →
      (evictedEntries w).length ≤ offset) :
    (∀ offset producerId event, (offset, producerId, event) ∈ t.acked →
      offset < l.nextOffset ∧ (retained offset →
        ∃ ts, ReadsBack c l w.disk ⟨offset, ts, producerId, event⟩)) ∧
      ∀ e ∈ t.seen, e.offset < l.nextOffset ∧ (retained e.offset → ReadsBack c l w.disk e) := by
  have hback : ∀ e : LogEntry, w.ghost.total[e.offset]? = some e →
      e.offset < l.nextOffset ∧ (retained e.offset → ReadsBack c l w.disk e) := by
    intro e he
    have hlt := (List.getElem?_eq_some_iff.mp he).1
    exact ⟨hrep.clean hp ▸ hlt, fun hr => hrep.readsBack hp he (hleft _ hlt hr)⟩
  refine ⟨fun offset producerId event hmem => ?_, fun e he => hback e (hin.seen e he)⟩
  obtain ⟨ts, hts⟩ := hin.acked _ hmem
  have hone := hback ⟨offset, ts, producerId, event⟩ hts
  exact ⟨hone.1, fun hr => ⟨ts, hone.2 hr⟩⟩

/-- Whenever the power goes: `open` succeeds on what it leaves unless an index is too
large, no segment file is gone but those that the log had deleted, everything acknowledged or
read whose segment file is there reads back unchanged, no entry is missing from the
middle, and no acknowledged offset is assigned again. -/
theorem power_loss_consistent {s : Site} (h : Powered c t s) (hd : s.Remains d)
    (config : SegmentLogConfig) :
    (∀ base i, s.Holds base i → d.find (.seg base) = some i) ∧
    (∃ d' r, Finishes (Step NoFail) d (openDir c config) d' r) ∧
    ∀ d' r, Finishes (Step NoFail) d (openDir c config) d' r →
      ((∃ l, r = .ok l) ↔ IndexesReadable d) ∧
      ∀ l, r = .ok l →
        (∀ offset producerId event, (offset, producerId, event) ∈ t.acked →
          offset < l.nextOffset ∧
            (Retained d offset → ∃ ts, ReadsBack c l d' ⟨offset, ts, producerId, event⟩)) ∧
        (∀ e ∈ t.seen, e.offset < l.nextOffset ∧ (Retained d e.offset → ReadsBack c l d' e)) ∧
        ∃ earliest, Covers earliest l.ranges l.nextOffset := by
  have hheld := fun base i (hs : s.Holds base i) => h.holds hd hs
  obtain ⟨-, w, rfl, hg, hin⟩ := h.upheld.bears hd
  have hopen := hg.reopen config
  refine ⟨hheld, hopen.1, fun d' r hx => ?_⟩
  rcases hopen.2 d' r hx with
    ⟨hread, l, w', rfl, rfl, hrep, hp, htotal, hevicted⟩ | ⟨hbig, msg, rfl⟩
  · refine ⟨by simp [hread], fun l' hl' => ?_⟩
    obtain rfl := Except.ok.inj hl'
    have htold := hrep.told_back hp (htotal.symm ▸ hin) fun offset hlt hr => by
      rw [hevicted]
      rw [htotal] at hlt
      exact (hg.retained_iff hlt).mp hr
    exact ⟨htold.1, htold.2, _, hrep.covers⟩
  · exact ⟨by simp [hbig], by simp⟩

/-- The power goes after an event was acknowledged. -/
theorem power_loss_consistent_sample :
    ∃ l m, Powered sampleCodec ⟨[(0, "p", sampleHealth)], []⟩ (.on l m) ∧ m.Remains m.disk ∧
      Retained m.disk 0 ∧
      ∀ config d' l', Finishes (Step NoFail) m.disk (openDir sampleCodec config) d' (.ok l') →
        ∃ ts, ReadsBack sampleCodec l' d' ⟨0, ts, "p", sampleHealth⟩ := by
  have hrun : (simulate 0 (append sampleCodec "p" [sampleHealth] ⟨{}, [], none, 0, false⟩) []
      .empty).map (fun x => (x.2.1, (x.1.find (.seg 0)).isSome)) = some (.ok 0, true) := by
    decide +kernel
  obtain ⟨⟨d, r, l⟩, hsim, hr⟩ := Option.map_eq_some_iff.mp hrun
  obtain ⟨rfl, hfind⟩ := Prod.mk.inj hr
  obtain ⟨i, hi⟩ := Option.isSome_iff_exists.mp hfind
  obtain ⟨tr, hx⟩ := finishes_openDir_empty (c := sampleCodec) {}
  obtain ⟨m₀, hm₀, hopen⟩ := exec_cached hx (.clean .empty) rfl
  have hfinishes : Finishes (Step NoFail) .empty
      (append sampleCodec "p" [sampleHealth] ⟨{}, [], none, 0, false⟩) d (.ok 0, l) :=
    finishes_of_simulate (by simp) hsim
  obtain ⟨tr', hx'⟩ := hfinishes
  obtain ⟨m, rfl, happend⟩ := exec_cached hx' m₀ hm₀
  have hpowered : Powered sampleCodec ⟨[(0, "p", sampleHealth)], []⟩ (.on l m) :=
    .appended (.opened .empty rfl ⟨tr, hopen⟩) decodes_sample ⟨tr', happend⟩
  have honly := Running.only hpowered.upheld
  have hremains : m.Remains m.disk := by
    cases ha : l.active with
    | none => exact Cached.remains_disk (honly.stored ha).sound
    | some a => exact Cached.remains_disk (honly.alone a ha).sound
  have hleft : Retained m.disk 0 := ⟨0, i, hi, le_rfl⟩
  refine ⟨l, m, hpowered, hremains, hleft, fun config d' l' hx => ?_⟩
  have hconsistent := power_loss_consistent (s := .on l m) hpowered hremains config
  exact (((hconsistent.2.2 d' _ hx).2 l' rfl).1 0 "p" sampleHealth (by simp)).2 hleft

end OtkCore.SegmentLog
