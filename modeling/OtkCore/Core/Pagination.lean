import OtkCore.SegmentLog.History

/-!
# Reading events in pages

A consumer that reads page after page and continues behind the last entry it
received. Other callers append, read and restart the log between its pages, and
retention may overtake it.
-/
namespace OtkCore

open Effect FileIO SegmentLog

structure EventEntry where
  offset : ℕ
  event : OtkEvent
  deriving DecidableEq

structure EventPage where
  entries : List EventEntry
  latestOffset : Option ℕ
  deriving DecidableEq

/-- An internal error stands for the text of its cause. -/
inductive QueryError
  | retentionExpired (requested : ℕ) (earliestAvailable : Option ℕ)
  | internal (cause : StorageError)
  deriving DecidableEq

def mapStorageErr : StorageError → QueryError
  | .retentionExpired requested earliestAvailable =>
    .retentionExpired requested earliestAvailable
  | other => .internal other

def EventEntry.ofLog (e : LogEntry) : EventEntry := ⟨e.offset, e.event⟩

/-- `u64::saturating_add`. -/
def satAdd (a b : ℕ) : ℕ := min (a + b) (2 ^ 64 - 1)

def readEvents (c : Codec) (start limit : ℕ) :
    Proc (Resp (N := FileName)) QueryError Log EventPage := do
  let l ← Proc.get
  let latest := l.latestOffset
  let entries ← (readRange c start (some (satAdd start limit))).mapError mapStorageErr
  pure ⟨entries.map .ofLog, latest⟩

/-- A consumer continues behind the last entry it received. -/
def EventPage.resume (page : EventPage) (cursor : ℕ) : ℕ :=
  (page.entries.getLast?.map fun e => e.offset + 1).getD cursor

/-- A consumer that starts at `start` has its cursor at `cursor` and has
received `seen`; `calls` are the calls of everybody else so far. -/
inductive Paging (c : Codec) (start : ℕ) :
    List Call → Log → Disk FileName → ℕ → List EventEntry → Prop
  | start {calls : List Call} {l : Log} {d : Disk FileName} :
      Runs c calls l d → Paging c start calls l d start []
  | call {calls : List Call} {l l' : Log} {d d' : Disk FileName} {cursor : ℕ}
      {seen : List EventEntry} {x : Call} :
      Paging c start calls l d cursor seen → Called c l d x l' d' →
      Paging c start (calls ++ [x]) l' d' cursor seen
  | page {calls : List Call} {l l' : Log} {d d' : Disk FileName} {cursor limit : ℕ}
      {seen : List EventEntry} {page : EventPage} :
      Paging c start calls l d cursor seen → 1 ≤ limit →
      Finishes (Step NoFail) d (readEvents c cursor limit l) d' (.ok page, l') →
      Paging c start calls l' d' (page.resume cursor) (seen ++ page.entries)
  | refused {calls : List Call} {l l' : Log} {d d' : Disk FileName} {cursor limit : ℕ}
      {seen : List EventEntry} {e : QueryError} :
      Paging c start calls l d cursor seen → 1 ≤ limit →
      Finishes (Step NoFail) d (readEvents c cursor limit l) d' (.error e, l') →
      Paging c start calls l' d' cursor seen

section Page

variable {c : Codec} {l l' : Log} {d d' : Disk FileName} {h : EventHistory} {w : World}

/-- What a page may be, given the abstract log and the directory. -/
def PageOf (h : EventHistory) (d : Disk FileName) (start limit : ℕ) :
    Except QueryError EventPage → Prop
  | .ok page => page.entries = ((h.entries.drop start).take limit).map .ofLog ∧
      (start < h.entries.length → Retained d start)
  | .error e => (∃ earliest, e = .retentionExpired start earliest) ∧
      start < h.entries.length ∧ ¬ Retained d start

theorem filter_page {entries : List LogEntry} (hnum : Numbered 0 entries)
    (hlen : entries.length < 2 ^ 64) (start limit : ℕ) :
    entries.filter (fun e => start ≤ e.offset && (some (satAdd start limit)).all (e.offset < ·)) =
      (entries.drop start).take limit := by
  have hrange := @Numbered.filter_inRange _ start (satAdd start limit) _ hnum
  rw [Nat.sub_zero, Nat.sub_zero, List.drop_take] at hrange
  have htake : (entries.drop start).take (satAdd start limit - start) =
      (entries.drop start).take limit := by
    rw [List.take_eq_take_iff, List.length_drop, satAdd]
    omega
  exact hrange.trans htake

theorem SegmentLog.Tracks.pageOf_rangeOf (ht : Tracks c l d h w) (start : ℕ) {limit : ℕ}
    (hl : 1 ≤ limit) (latest : Option ℕ) :
    PageOf h d start limit (((rangeOf h.entries l.earliestOffset start
      (some (satAdd start limit))).map fun entries => ⟨entries.map .ofLog, latest⟩).mapError
        mapStorageErr) := by
  have hlt := ht.length_lt
  unfold rangeOf
  split_ifs with hempty hgone
  · -- The range is empty or the cursor has caught up.
    have hle : h.entries.length ≤ start := by
      rcases hempty with hsat | hle
      · simp only [Option.any_some, decide_eq_true_eq, satAdd] at hsat
        omega
      · exact hle
    refine ⟨?_, fun hstart => by omega⟩
    rw [List.drop_eq_nil_of_le hle, List.take_nil]
  · simp only [not_or, not_le] at hempty
    refine ⟨⟨_, rfl⟩, hempty.2, ?_⟩
    rw [ht.retained_iff hempty.2, Nat.not_le]
    have hle := ht.evictedCount_le
    rw [ht.earliestOffset_eq] at hgone
    split_ifs at hgone with hall
    · omega
    · simpa using hgone
  · simp only [not_or, not_le] at hempty
    refine ⟨?_, fun _ => ?_⟩
    · exact congrArg (List.map EventEntry.ofLog) (filter_page ht.numbered hlt start limit)
    · rw [ht.retained_iff hempty.2]
      rw [ht.earliestOffset_eq] at hgone
      split_ifs at hgone with hall
      · simp at hgone
      · simpa using hgone

/-- A page answers from the abstract log and leaves everything as it is. -/
theorem SegmentLog.Tracks.readEvents (ht : Tracks c l d h w) {start limit : ℕ} (hl : 1 ≤ limit)
    {r : Except QueryError EventPage}
    (hx : Finishes (Step NoFail) d (OtkCore.readEvents c start limit l) d' (r, l')) :
    PageOf h d start limit r ∧ d' = d ∧ Tracks c l' d h w := by
  have hpage := ht.pageOf_rangeOf start hl l.latestOffset
  rw [← ht.committed] at hpage
  have hsafe : Safe (setting c calm) (OtkCore.readEvents c start limit l)
      (fun x w' => w' = w ∧ PageOf h d start limit x.1 ∧ Rep c calm x.2 w ∧ x.2.poisoned = false)
      w := by
    refine Safe.getP (Safe.bindP (Safe.mapError (ht.rep.readRange calm_calm start _
      fun l₁ hrep hkept => ?_)))
    have hclean := hkept.poisoned.trans ht.clean
    cases hr : rangeOf (SegmentLog.committed l w) l.earliestOffset start
        (some (satAdd start limit)) with
    | ok entries =>
      rw [hr] at hpage
      exact ⟨rfl, hpage, hrep, hclean⟩
    | error e =>
      rw [hr] at hpage
      exact ⟨rfl, hpage, hrep, hclean⟩
  obtain ⟨w', hd, rfl, hpageOf, hrep, hp⟩ := finishes_calm hx ht.disk hsafe
  exact ⟨hpageOf, hd.symm.trans ht.disk, ht.disk, hrep, hp, ht.total⟩

theorem flows_readEvents (start limit : ℕ) :
    Flows NoFail (readEvents c start limit l) fun _ => True := by
  refine Flows.getP (Flows.bindP (Flows.mapError ((free_readRange start _ l).mono ?_)))
  rintro ⟨r, l'⟩ -
  cases r <;> trivial

end Page

section Run

variable {c : Codec} {calls : List Call} {l : Log} {d : Disk FileName} {start cursor : ℕ}
  {seen : List EventEntry}

theorem take_drop_of_isPrefix {α : Type} {xs ys : List α} (hp : xs <+: ys) {k n : ℕ}
    (hk : k ≤ (xs.drop n).length) : (ys.drop n).take k = (xs.drop n).take k := by
  obtain ⟨zs, rfl⟩ := hp
  rw [List.drop_append, List.take_append_of_le_length hk]

theorem resume_eq {h : EventHistory} (hnum : Numbered 0 h.entries) {page : EventPage} {limit : ℕ}
    (hpage : page.entries = ((h.entries.drop cursor).take limit).map .ofLog) :
    page.resume cursor = cursor + page.entries.length := by
  rw [EventPage.resume, hpage, List.getLast?_map, List.length_map]
  rcases List.eq_nil_or_concat ((h.entries.drop cursor).take limit) with hnil | ⟨front, e, hcat⟩
  · rw [hnil]
    rfl
  · rw [List.concat_eq_append] at hcat
    have hget : h.entries[cursor + front.length]? = some e := by
      have hidx := congrArg (fun es => es[front.length]?) hcat
      simp only [List.getElem?_take, List.getElem?_drop] at hidx
      split_ifs at hidx with hlt
      · simpa using hidx
      · simp at hidx
    have hoff := hnum _ _ hget
    rw [hcat]
    simp only [List.getLast?_concat, Option.map_some, Option.getD_some, EventEntry.ofLog,
      List.length_append, List.length_singleton]
    omega

theorem Paging.tracks (hp : Paging c start calls l d cursor seen)
    (hcod : ∀ x ∈ calls, Decodes c x.events) :
    ∃ h w, Tracks c l d h w ∧
      h.batches.map (fun b => (b.producerId, b.events)) = calls.filterMap Call.accepted ∧
      seen = ((h.entries.drop start).take (cursor - start)).map .ofLog ∧
      cursor = start + seen.length := by
  induction hp with
  | start hruns =>
    obtain ⟨h, w, ht, hacc⟩ := hruns.tracks hcod
    exact ⟨h, w, ht, hacc, by simp, rfl⟩
  | @call calls l l' d d' cursor seen x _ hcall ih =>
    obtain ⟨h, w, ht, hacc, hseen, hcur⟩ := ih fun y hy => hcod y (List.mem_append_left _ hy)
    have hdec : Decodes c x.events := hcod x (by simp)
    obtain ⟨more, w', ht', hmore⟩ := ht.called hdec hcall
    refine ⟨_, w', ht', ?_, ?_, hcur⟩
    · rw [List.map_append, hacc, hmore, List.filterMap_append]
      cases hx : x.accepted <;> simp [hx]
    · have hk : cursor - start ≤ (h.entries.drop start).length := by
        have hlen := congrArg List.length hseen
        rw [List.length_map, List.length_take] at hlen
        omega
      rw [take_drop_of_isPrefix (h.entries_prefix more) hk]
      exact hseen
  | @page calls l l' d d' cursor limit seen page _ hl hx ih =>
    obtain ⟨h, w, ht, hacc, hseen, hcur⟩ := ih hcod
    obtain ⟨⟨hpage, -⟩, rfl, ht'⟩ := ht.readEvents hl hx
    have hresume := resume_eq ht.numbered hpage
    refine ⟨h, w, ht', hacc, ?_, ?_⟩
    · have htake : page.entries =
          ((h.entries.drop cursor).take page.entries.length).map .ofLog := by
        conv_lhs => rw [hpage]
        refine congrArg (List.map EventEntry.ofLog) (List.take_eq_take_iff.mpr ?_)
        rw [hpage, List.length_map, List.length_take]
        omega
      have hsplit : page.resume cursor - start = (cursor - start) + page.entries.length := by
        omega
      have hstart : start + (cursor - start) = cursor := by omega
      rw [hsplit, List.take_add, List.map_append, List.drop_drop, hstart, ← hseen, ← htake]
    · rw [hresume, hcur, List.length_append, Nat.add_assoc]
  | refused _ hl hx ih =>
    obtain ⟨h, w, ht, hacc, hseen, hcur⟩ := ih hcod
    obtain ⟨-, rfl, ht'⟩ := ht.readEvents hl hx
    exact ⟨h, w, ht', hacc, hseen, hcur⟩

/-- Whatever happens between its pages, a consumer has received exactly the
committed events from its start up to its cursor. The next page always comes: it
holds at most `limit` events, those behind the cursor, and some if the event at
the cursor is committed and not evicted; only if that event is evicted does the
page expire. -/
theorem pages_resume (hp : Paging c start calls l d cursor seen)
    (hcod : ∀ x ∈ calls, Decodes c x.events) :
    ∃ h : EventHistory,
      h.batches.map (fun b => (b.producerId, b.events)) = calls.filterMap Call.accepted ∧
      seen = ((h.entries.drop start).take (cursor - start)).map .ofLog ∧
      cursor = start + seen.length ∧
      ∀ limit, 1 ≤ limit →
        (∃ d' x, Finishes (Step NoFail) d (readEvents c cursor limit l) d' x) ∧
        ∀ d' r l', Finishes (Step NoFail) d (readEvents c cursor limit l) d' (r, l') →
          match r with
          | .ok page => page.entries = ((h.entries.drop cursor).take limit).map .ofLog ∧
              page.entries.length ≤ limit ∧
              (cursor < h.entries.length → Retained d cursor ∧ page.entries ≠ [])
          | .error e => (∃ earliest, e = .retentionExpired cursor earliest) ∧
              cursor < h.entries.length ∧ ¬ Retained d cursor := by
  obtain ⟨h, w, ht, hacc, hseen, hcur⟩ := hp.tracks hcod
  refine ⟨h, hacc, hseen, hcur, fun limit hl => ⟨?_, fun d' r l' hx => ?_⟩⟩
  · obtain ⟨d', x, hx, -⟩ := (flows_readEvents (c := c) (l := l) cursor limit).finishes d
    exact ⟨d', x, hx⟩
  · obtain ⟨hpage, -, -⟩ := ht.readEvents hl hx
    cases r with
    | error e => exact hpage
    | ok page =>
      obtain ⟨hentries, hret⟩ := hpage
      refine ⟨hentries, ?_, fun hlt => ⟨hret hlt, ?_⟩⟩
      · rw [hentries, List.length_map]
        exact List.length_take_le _ _
      · rw [hentries]
        apply List.ne_nil_of_length_pos
        rw [List.length_map, List.length_take, List.length_drop]
        omega

theorem Paging.replay {clock : ℕ} {more : List Call} (hp : Paging c start calls l d cursor seen)
    (h : replayCalls c clock more (l, d) = some (l', d')) :
    Paging c start (calls ++ more) l' d' cursor seen := by
  induction more generalizing calls l d with
  | nil =>
    obtain ⟨rfl, rfl⟩ := Prod.mk.inj (Option.some.inj h)
    rwa [List.append_nil]
  | cons x more ih =>
    obtain ⟨⟨l₁, d₁⟩, hcall, hmore⟩ := Option.bind_eq_some_iff.mp h
    have hnext := ih (hp.call (.of_replay hcall)) hmore
    rwa [List.append_assoc] at hnext

/-- Two appends, a page of one event behind the first, and an append that evicts it. -/
def pagedRun : Option (EventPage × Log × Disk FileName) :=
  (replayCalls sampleCodec 0 [.append "p" [sampleHealth, sampleHealth] (.ok 1),
    .append "q" [sampleHealth] (.ok 2)] (evicting, .empty)).bind fun (l, d) =>
  (simulate 0 (readEvents sampleCodec 1 1 l) [] d).bind fun (d', r, l') =>
  r.toOption.bind fun page =>
  (replayCalls sampleCodec 0 [.append "r" [sampleHealth] (.ok 3)] (l', d')).map (page, ·)

theorem pagedRun_eq :
    pagedRun.map (fun (page, l, d) => (page.entries, page.resume 1, l.earliestOffset,
      (d.find (.seg 2)).isSome)) = some ([⟨1, sampleHealth⟩], 2, some 2, true) := by
  decide +kernel

/-- The next page of that consumer has the events behind the evicted ones. -/
theorem pages_resume_sample :
    ∃ l d, Paging sampleCodec 1 [.append "p" [sampleHealth, sampleHealth] (.ok 1),
        .append "q" [sampleHealth] (.ok 2), .append "r" [sampleHealth] (.ok 3)] l d 2
        [⟨1, sampleHealth⟩] ∧
      ∃ d' page l', Finishes (Step NoFail) d (readEvents sampleCodec 2 10 l) d' (.ok page, l') ∧
        page.entries = [⟨2, sampleHealth⟩, ⟨3, sampleHealth⟩] := by
  obtain ⟨⟨page, l, d⟩, hrun, hx⟩ := Option.map_eq_some_iff.mp pagedRun_eq
  simp only [Prod.mk.injEq] at hx
  obtain ⟨hentries, hcursor, -, hseg⟩ := hx
  obtain ⟨⟨l₁, d₁⟩, hfirst, hrun⟩ := Option.bind_eq_some_iff.mp hrun
  obtain ⟨⟨d₂, r, l₂⟩, hpage, hrun⟩ := Option.bind_eq_some_iff.mp hrun
  obtain ⟨page', hok, hrun⟩ := Option.bind_eq_some_iff.mp hrun
  obtain ⟨⟨l₃, d₃⟩, hlast, heq⟩ := Option.map_eq_some_iff.mp hrun
  obtain ⟨rfl, rfl, rfl⟩ : page' = page ∧ l₃ = l ∧ d₃ = d := by simpa using heq
  cases r with
  | error e => cases hok
  | ok first =>
    obtain rfl := Option.some.inj hok
    have hstart : Paging sampleCodec 1 _ l₁ d₁ 1 [] := .start (runs_evicting.replay hfirst)
    have hp := hstart.page (Nat.le_refl 1) (finishes_of_simulate (by simp) hpage)
    rw [hentries, hcursor] at hp
    have hp := hp.replay hlast
    obtain ⟨h, hacc, -, -, hpages⟩ := pages_resume hp (decodes_calls (by decide))
    obtain ⟨⟨d', ⟨r', l'⟩, hx⟩, hall⟩ := hpages 10 (by decide)
    refine ⟨l₃, d₃, hp, d', ?_⟩
    have hnext := hall d' r' l' hx
    cases r' with
    | error e =>
      obtain ⟨i, hi⟩ := Option.isSome_iff_exists.mp hseg
      exact absurd ⟨2, i, hi, le_rfl⟩ hnext.2.2
    | ok page =>
      refine ⟨page, l', hx, ?_⟩
      obtain ⟨⟨_, ts, _⟩, rest, hbatches, hb, hrest⟩ := List.map_eq_cons_iff.mp hacc
      obtain ⟨rfl, rfl⟩ := Prod.mk.inj hb
      obtain ⟨⟨_, ts', _⟩, last, rfl, hb, hlast⟩ := List.map_eq_cons_iff.mp hrest
      obtain ⟨rfl, rfl⟩ := Prod.mk.inj hb
      obtain ⟨⟨_, ts'', _⟩, rfl, hb⟩ := List.map_eq_singleton_iff.mp hlast
      obtain ⟨rfl, rfl⟩ := Prod.mk.inj hb
      rw [hnext.1, EventHistory.entries, hbatches]
      rfl

end Run

end OtkCore
