import OtkCore.Node.Api
import OtkCore.SegmentLog.Reporting

/-!
# The live tail over the segment log

What a client of the events stream gets while the log is appended to, rolls and
evicts segments. Each answer of the subscription becomes one event of the response;
the first error is the last event.
-/
namespace OtkCore.Api

open SegmentLog FileIO

/-- `map_storage_err`; `text` is what an error is displayed as. -/
def mapStorageErr (text : StorageError → String) : StorageError → QueryError
  | .retentionExpired requested earliestAvailable =>
    .retentionExpired requested earliestAvailable
  | other => .internal (text other)

/-- What the events stream of the service makes of the end of a round; a subscription
that waits or looks again gives nothing. -/
def streamItem (text : StorageError → String) :
    Except StorageError Subscription.Round → Option (Except QueryError EventEntry)
  | .ok (.returned e) => some (.ok (.ofLog e))
  | .ok .again => none
  | .ok .wait => none
  | .error err => some (.error (mapStorageErr text err))

/-- The system, what it was when the response ended, and the response so far. -/
structure Tail where
  system : System
  ended : Option System := none
  sent : List SseEvent := []

namespace Tail

section Next

variable (c : Codec) (text : StorageError → String) (toJson : EventEntry → Option String)

/-- A round of the subscription has come to its end. -/
def answer (t : Tail) (r : Except StorageError Subscription.Round) (s : Subscription) : Tail :=
  let system := { t.system with
    reader := .resting s
    delivered := t.system.delivered ++ delivery r }
  match streamItem text r with
  | none => { t with system }
  | some item =>
    match sseItem toJson item with
    | (event, true) => { system, ended := some t.system, sent := t.sent ++ [event] }
    | (event, false) => { t with system, sent := t.sent ++ [event] }

/-- A step of the log, a step of the subscription, or an answer of the subscription.
Once the response has ended nothing is asked any more. -/
inductive Next : Tail → Tail → Prop
  | writer {t : Tail} {y : System} :
      System.Next c t.system y → y.reader = t.system.reader → Next t { t with system := y }
  | reader {t : Tail} {y : System} :
      System.Next c t.system y → (∀ r s, t.system.reader ≠ .trying (.pure (r, s))) →
      t.ended = none → Next t { t with system := y }
  | answer {t : Tail} {r : Except StorageError Subscription.Round} {s : Subscription} :
      t.system.reader = .trying (.pure (r, s)) → Next t (t.answer text toJson r s)

/-- The states reached while appends and rolls succeed. -/
inductive Run : Tail → Prop
  | opened {x : System} : System.Run c System.Succeeding x → x.reader = .absent →
      x.delivered = [] → Run { system := x }
  | next {t t' : Tail} : Run t → t.system.Succeeding → Next c text toJson t t' → Run t'

end Next

variable {c : Codec} {text : StorageError → String} {toJson : EventEntry → Option String}
  {t t' : Tail} {x y : System}

section Answer

variable {r : Except StorageError Subscription.Round} {s : Subscription}
  {item : Except QueryError EventEntry} {event : SseEvent}

theorem answer_silent (hitem : streamItem text r = none) :
    t.answer text toJson r s = { t with system := { t.system with
      reader := .resting s
      delivered := t.system.delivered ++ delivery r } } := by
  rw [answer, hitem]

theorem answer_data (hitem : streamItem text r = some item)
    (hevent : sseItem toJson item = (event, false)) :
    t.answer text toJson r s = { t with
      system := { t.system with
        reader := .resting s
        delivered := t.system.delivered ++ delivery r }
      sent := t.sent ++ [event] } := by
  rw [answer, hitem]
  simp only [hevent]

theorem answer_last (hitem : streamItem text r = some item)
    (hevent : sseItem toJson item = (event, true)) :
    t.answer text toJson r s = {
      system := { t.system with
        reader := .resting s
        delivered := t.system.delivered ++ delivery r }
      ended := some t.system
      sent := t.sent ++ [event] } := by
  rw [answer, hitem]
  simp only [hevent]

end Answer

theorem answer_system (t : Tail) (r : Except StorageError Subscription.Round) (s : Subscription) :
    (t.answer text toJson r s).system =
      { t.system with reader := .resting s, delivered := t.system.delivered ++ delivery r } := by
  rw [answer]
  split
  · rfl
  · split <;> rfl

theorem Next.system (h : Next c text toJson t t') : System.Next c t.system t'.system := by
  cases h with
  | writer hnext _ => exact hnext
  | reader hnext _ _ => exact hnext
  | answer hreader =>
    rw [answer_system]
    exact .finish hreader

theorem Run.system (h : Run c text toJson t) : System.Run c System.Succeeding t.system := by
  induction h with
  | opened hrun _ _ => exact hrun
  | next _ hsucceeding hnext ih => exact ih.next hsucceeding hnext.system

/-- Only the end of a round delivers, and only a subscription sets where it starts. -/
theorem next_delivered (h : System.Next c x y) :
    (∃ r s, x.reader = .trying (.pure (r, s)) ∧ y.reader = .resting s) ∨
      y.delivered = x.delivered ∧ (x.reader ≠ .absent → y.start = x.start) := by
  cases h with
  | finish hreader => exact .inl ⟨_, _, hreader, rfl⟩
  | subscribe _ habsent _ => exact .inr ⟨rfl, fun hne => absurd habsent hne⟩
  | append | store | roll | arm | look => exact .inr ⟨rfl, fun _ => rfl⟩

/-- The entries, and what they are serialized to. -/
def Serializes (toJson : EventEntry → Option String) (entries : List LogEntry)
    (datas : List String) : Prop :=
  entries.map (fun e => toJson (.ofLog e)) = datas.map some

/-- The response: the data of all entries delivered, or of those before its end and then
the event that ends it. -/
inductive Response (c : Codec) (text : StorageError → String)
    (toJson : EventEntry → Option String) (t : Tail) (datas : List String) : Prop
  | streaming : t.ended = none → Serializes toJson t.system.delivered datas →
      t.sent = datas.map .data → Response c text toJson t datas
  | ended {z : System} {r : Except StorageError Subscription.Round} {s : Subscription}
      {item : Except QueryError EventEntry} {event : SseEvent} :
      t.ended = some z → System.Run c System.Succeeding z →
      z.reader = .trying (.pure (r, s)) → t.system.reader = .resting s →
      t.system.delivered = z.delivered ++ delivery r → t.system.start = z.start →
      Serializes toJson z.delivered datas → streamItem text r = some item →
      sseItem toJson item = (event, true) → t.sent = datas.map .data ++ [event] →
      Response c text toJson t datas

theorem delivery_of_silent {r : Except StorageError Subscription.Round}
    (h : streamItem text r = none) : delivery r = [] := by
  rcases r with err | (e | - | -)
  · cases h
  · cases h
  · rfl
  · rfl

/-- An event that does not end the response is the data of the entry delivered. -/
theorem delivery_of_data {r : Except StorageError Subscription.Round}
    {item : Except QueryError EventEntry} {event : SseEvent}
    (hitem : streamItem text r = some item) (hevent : sseItem toJson item = (event, false)) :
    ∃ data, event = .data data ∧ Serializes toJson (delivery r) [data] := by
  rcases r with err | (e | - | -)
  · obtain rfl := Option.some.inj hitem
    cases hevent
  · obtain rfl := Option.some.inj hitem
    rw [sseItem] at hevent
    split at hevent
    · rename_i data hdata
      obtain ⟨rfl, -⟩ := Prod.mk.inj hevent
      refine ⟨data, rfl, ?_⟩
      simp [Serializes, delivery, hdata]
    · cases hevent
  · cases hitem
  · cases hitem

theorem Response.next {datas : List String} (h : Response c text toJson t datas)
    (hrun : Run c text toJson t) (hnext : Next c text toJson t t') :
    ∃ datas', Response c text toJson t' datas' := by
  cases h with
  | streaming hended hdatas hsent =>
    cases hnext with
    | writer hstep hreader =>
      refine ⟨datas, .streaming hended ?_ hsent⟩
      rcases next_delivered hstep with ⟨r, s, hx, hy⟩ | ⟨hsame, -⟩
      · rw [hreader, hx] at hy
        cases hy
      · simpa only [hsame] using hdatas
    | reader hstep hpending _ =>
      refine ⟨datas, .streaming hended ?_ hsent⟩
      rcases next_delivered hstep with ⟨r, s, hx, -⟩ | ⟨hsame, -⟩
      · exact absurd hx (hpending r s)
      · simpa only [hsame] using hdatas
    | @answer r s hreader =>
      cases hitem : streamItem text r with
      | none =>
        rw [answer_silent hitem]
        refine ⟨datas, .streaming hended ?_ hsent⟩
        simpa only [delivery_of_silent hitem, List.append_nil] using hdatas
      | some item =>
        rcases hevent : sseItem toJson item with ⟨event, - | -⟩
        · obtain ⟨data, rfl, hdata⟩ := delivery_of_data hitem hevent
          rw [answer_data hitem hevent]
          refine ⟨datas ++ [data], .streaming hended ?_ ?_⟩
          · rw [Serializes] at hdata hdatas ⊢
            simp only [List.map_append, hdatas, hdata]
          · simp only [hsent, List.map_append, List.map_cons, List.map_nil]
        · rw [answer_last hitem hevent]
          refine ⟨datas, .ended rfl hrun.system hreader rfl rfl rfl hdatas hitem hevent ?_⟩
          simp only [hsent]
  | ended hended hz hzreader hresting hdelivered hstart hdatas hitem hevent hsent =>
    cases hnext with
    | writer hstep hreader =>
      rcases next_delivered hstep with ⟨r', s', hx, -⟩ | ⟨hsame, hstill⟩
      · rw [hresting] at hx
        cases hx
      · refine ⟨datas, .ended hended hz hzreader (hreader.trans hresting)
          (hsame.trans hdelivered) ((hstill ?_).trans hstart) hdatas hitem hevent hsent⟩
        rw [hresting]
        exact fun hne => by cases hne
    | reader _ _ hnone =>
      rw [hended] at hnone
      cases hnone
    | answer hreader =>
      rw [hresting] at hreader
      cases hreader

theorem Run.response (h : Run c text toJson t) : ∃ datas, Response c text toJson t datas := by
  induction h with
  | opened _ _ hnone =>
    refine ⟨[], .streaming rfl ?_ rfl⟩
    simp only [Serializes, hnone, List.map_nil]
  | next hrun _ hnext ih =>
    obtain ⟨datas, hresponse⟩ := ih
    exact hresponse.next hrun hnext

theorem Serializes.length {entries : List LogEntry} {datas : List String}
    (h : Serializes toJson entries datas) : entries.length = datas.length := by
  simpa using congrArg List.length h

theorem Serializes.get {entries : List LogEntry} {datas : List String}
    (h : Serializes toJson entries datas) {i : ℕ} {data : String} (hdata : datas[i]? = some data) :
    ∃ e, entries[i]? = some e ∧ toJson (.ofLog e) = some data := by
  have hget := congrArg (·[i]?) h
  simp only [List.getElem?_map, hdata, Option.map_some] at hget
  exact Option.map_eq_some_iff.mp hget

/-- Why a response ends at offset `n` of a system with these entries: no segment begins at
or before it, if it was committed when the subscription began to look for it; the index of a
segment that begins there or before is too large to be read; or the entry cannot be
serialized. -/
def Fails (toJson : EventEntry → Option String) (entries : List LogEntry) (x : System) (n : ℕ)
    (body : ErrorBody) : Prop :=
  (∃ earliest, body = ⟨"retention_expired", evictedDetail n earliest⟩ ∧
    (n < x.armed → ¬ Retained x.disk n)) ∨
  (body = ⟨"internal", "storage backend error; see server logs"⟩ ∧
    ∃ base len, base ≤ n ∧ System.Oversized x.disk base len) ∨
  (body = ⟨"serialize_failed", "internal serialization error; see server logs"⟩ ∧
    ∃ e : LogEntry, e.offset = n ∧ (n < entries.length → entries[n]? = some e) ∧
      toJson (.ofLog e) = none)

theorem fails_of_error (hrun : System.Run c System.Succeeding x) {err : StorageError}
    {s : Subscription} (hreader : x.reader = .trying (.pure (.error err, s)))
    (entries : List LogEntry) :
    Fails toJson entries x (x.start + x.delivered.length) (streamError (mapStorageErr text err)) := by
  obtain ⟨E, w, b, hsound⟩ := hrun.spares.sound fun _ hspare => hspare
  obtain ⟨hnext, hreported⟩ := hsound.reports hreader
  rw [hnext] at hreported
  rcases hreported with ⟨earliest, rfl, hgone⟩ | ⟨dir, base, len, hle, hlarge, rfl⟩
  · exact .inl ⟨earliest, rfl, hgone⟩
  · exact .inr (.inl ⟨rfl, base, len, hle, hlarge⟩)

/-- In every run whose appends and rolls succeed, a client gets the data of the entries
from its offset on, in order and each once, all of them committed when the log is at
rest, and what reading their offsets returns; and at most one error, which is last and
says why the entry at the next offset does not come. -/
theorem tail_in_order (h : Run c text toJson t) :
    ∃ (entries : List LogEntry) (datas : List String),
      entries.length = t.system.writer.log.nextOffset ∧
      payloads (entries.drop t.system.first) = t.system.accepted ∧
      (∀ i data, datas[i]? = some data → ∃ e, toJson (.ofLog e) = some data ∧
        e.offset = t.system.start + i ∧
        (e.offset < entries.length → entries[e.offset]? = some e) ∧
        ∀ l, t.system.writer = .idle l → e.offset < entries.length ∧
          (Retained t.system.disk e.offset → ReadsBack c l t.system.disk e)) ∧
      (t.ended = none ∧ t.sent = datas.map .data ∨
        ∃ x body, t.ended = some x ∧ t.sent = datas.map .data ++ [.error body] ∧
          Fails toJson entries x (t.system.start + datas.length) body) := by
  obtain ⟨E, w, b, hsound⟩ := h.system.spares.sound fun _ hspare => hspare
  have hnext := hsound.writer.next
  have hentry : ∀ {i e}, t.system.delivered[i]? = some e → e.offset = t.system.start + i ∧
      (e.offset < E.length → E[e.offset]? = some e) ∧
      ∀ l, t.system.writer = .idle l → e.offset < E.length ∧
        (Retained t.system.disk e.offset → ReadsBack c l t.system.disk e) := by
    intro i e he
    have hmem := List.mem_iff_getElem?.mpr ⟨i, he⟩
    refine ⟨(hsound.delivered_stored he).1, hsound.delivered_committed hmem, fun l hl => ?_⟩
    rw [hl] at hnext
    obtain ⟨hlt, hback⟩ := hsound.delivered_idle hl hmem
    exact ⟨hnext ▸ hlt, hback⟩
  obtain ⟨datas, hresponse⟩ := h.response
  refine ⟨E, datas, hnext.symm, hsound.accepted, ?_⟩
  cases hresponse with
  | streaming hended hdatas hsent =>
    refine ⟨fun i data hdata => ?_, .inl ⟨hended, hsent⟩⟩
    obtain ⟨e, he, hjson⟩ := hdatas.get hdata
    exact ⟨e, hjson, hentry he⟩
  | @ended z r s item event hended hz hreader _ hdelivered hstart hdatas hitem hevent hsent =>
    have hlast : ∃ body, event = .error body ∧
        Fails toJson E z (t.system.start + datas.length) body := by
      rw [hstart, ← hdatas.length]
      rcases r with err | (e | - | -)
      · obtain rfl := Option.some.inj hitem
        obtain ⟨rfl, -⟩ := Prod.mk.inj hevent
        exact ⟨_, rfl, fails_of_error hz hreader E⟩
      · obtain rfl := Option.some.inj hitem
        have he : t.system.delivered[z.delivered.length]? = some e := by
          rw [hdelivered, List.getElem?_append_right (Nat.le_refl _), Nat.sub_self]
          rfl
        rw [sseItem] at hevent
        split at hevent
        · cases hevent
        · rename_i hjson
          obtain ⟨rfl, -⟩ := Prod.mk.inj hevent
          obtain ⟨hoff, hcommitted, -⟩ := hentry he
          rw [hstart] at hoff
          exact ⟨_, rfl, .inr (.inr ⟨rfl, e, hoff, hoff ▸ hcommitted, hjson⟩)⟩
      · cases hitem
      · cases hitem
    obtain ⟨body, rfl, hfails⟩ := hlast
    refine ⟨fun i data hdata => ?_, .inr ⟨z, body, hended, hsent, hfails⟩⟩
    obtain ⟨e, he, hjson⟩ := hdatas.get hdata
    obtain ⟨hlen, -⟩ := List.getElem?_eq_some_iff.mp he
    exact ⟨e, hjson, hentry (by rw [hdelivered, List.getElem?_append_left hlen, he])⟩

theorem closed_of_error (hrun : System.Run c System.Succeeding x) {err : StorageError}
    {s : Subscription} (hreader : x.reader = .trying (.pure (.error err, s))) :
    s.closed = true := by
  obtain ⟨E, w, b, hsound⟩ := hrun.spares.sound fun _ hspare => hspare
  have htrying := hsound.reader
  rw [hreader] at htrying
  exact htrying.2.1 err rfl

/-- Where entries can be serialized, answering takes no run away from the log and the
subscription. -/
theorem exists_tail (text : StorageError → String) (toJson : EventEntry → Option String)
    (hjson : ∀ entry, toJson entry ≠ none)
    (h : System.Run c System.Succeeding x) :
    ∃ t, Run c text toJson t ∧ t.system = x ∧
      (t.ended = none ∨ ∃ s, x.reader = .resting s ∧ s.closed = true) := by
  induction h with
  | opened hlife hopen => exact ⟨_, .opened (.opened hlife hopen) rfl rfl, rfl, .inl rfl⟩
  | @next x y hrun hsucceeding hstep ih =>
    obtain ⟨t, ht, rfl, hclosed⟩ := ih
    have hnone : (∀ s, t.system.reader = .resting s → s.closed = false) → t.ended = none := by
      intro hopen
      rcases hclosed with hnone | ⟨s, hs, htrue⟩
      · exact hnone
      · rw [hopen s hs] at htrue
        cases htrue
    have hwriter : y.reader = t.system.reader → ∃ t', Run c text toJson t' ∧ t'.system = y ∧
        (t'.ended = none ∨ ∃ s, y.reader = .resting s ∧ s.closed = true) := by
      intro hsame
      refine ⟨_, ht.next hsucceeding (.writer hstep hsame), rfl, ?_⟩
      rw [hsame]
      exact hclosed
    have hreader : (∀ r s, t.system.reader ≠ .trying (.pure (r, s))) →
        (∀ s, t.system.reader = .resting s → s.closed = false) →
        ∃ t', Run c text toJson t' ∧ t'.system = y ∧
          (t'.ended = none ∨ ∃ s, y.reader = .resting s ∧ s.closed = true) := fun hpending hopen =>
      ⟨_, ht.next hsucceeding (.reader hstep hpending (hnone hopen)), rfl, .inl (hnone hopen)⟩
    cases hstep with
    | append | store | roll => exact hwriter rfl
    | subscribe _ habsent _ =>
      apply hreader
      · rw [habsent]
        exact fun r s hne => by cases hne
      · rw [habsent]
        exact fun s hne => by cases hne
    | arm hresting hopen =>
      apply hreader
      · rw [hresting]
        exact fun r s hne => by cases hne
      · rw [hresting]
        rintro s ⟨⟩
        exact hopen
    | look htrying _ =>
      apply hreader
      · rw [htrying]
        exact fun r s hne => by cases hne
      · rw [htrying]
        exact fun s hne => by cases hne
    | @finish r s htrying =>
      refine ⟨_, ht.next hsucceeding (.answer htrying), answer_system t r s, ?_⟩
      have hold : t.ended = none := hnone (by rw [htrying]; exact fun s hne => by cases hne)
      rcases r with err | (e | - | -)
      · exact .inr ⟨s, rfl, closed_of_error hrun htrying⟩
      · left
        obtain ⟨data, hdata⟩ := Option.ne_none_iff_exists'.mp (hjson (.ofLog e))
        rw [answer_data rfl (by rw [sseItem, hdata]), hold]
      · exact .inl hold
      · exact .inl hold

/-- Three entries of two segments are sent. -/
theorem tail_in_order_sample :
    ∃ t : Tail, t.system.delivered = [⟨0, 0, "p", sampleHealth⟩, ⟨1, 0, "p", sampleHealth⟩,
        ⟨2, 0, "q", sampleHealth⟩] ∧
      ∃ (entries : List LogEntry) (datas : List String),
        entries.length = 4 ∧ payloads (entries.drop t.system.first) = t.system.accepted ∧
        (t.ended = none ∧ t.sent = datas.map .data ∨
          ∃ x body, t.ended = some x ∧ t.sent = datas.map .data ++ [.error body] ∧
            Fails (fun _ => some "") entries x (t.system.start + datas.length) body) := by
  obtain ⟨x, hdrive, hx⟩ := Option.map_eq_some_iff.mp System.drive_delivers
  obtain ⟨hdelivered, hx⟩ := Prod.mk.inj hx
  have hrun := System.succeeding_of_drive (by decide +kernel) hdrive
  obtain ⟨t, ht, rfl, -⟩ := exists_tail (fun _ => "") (fun _ => some "")
    (fun _ h => by cases h) hrun
  obtain ⟨entries, datas, hlen, haccepted, -, hsent⟩ := tail_in_order ht
  exact ⟨t, hdelivered, entries, datas, hlen.trans (Prod.mk.inj hx).1, haccepted, hsent⟩

end Tail

end OtkCore.Api
