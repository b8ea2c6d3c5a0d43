import OtkCore.SegmentLog.Sharing

/-!
# Dirty reads

A subscription reads what is in the files, committed or not. As long as nothing is
cut off that it has read, everything it delivers is committed by the end of the call
that stored it. An append that cuts its batch off again may come too late.
-/
namespace OtkCore.SegmentLog

open Effect FileIO

variable {c : Codec}

theorem Rep.relax {m m' : Mode} {l : Log} {w : World} (h : Rep c m l w) (hm : ¬ m'.strict) :
    Rep c m' l w where
  good := h.good
  closed := h.closed
  next := h.next
  clean := h.clean
  idle ha := by
    obtain ⟨hn, htail⟩ := h.idle ha
    exact ⟨hn, fun s hs => ⟨(htail s hs).1, hm⟩⟩
  active a ha := by
    obtain ⟨s, z, hat, hrest⟩ := h.active a ha
    exact ⟨s, z, ⟨hat.good, hat.tail, hat.data, hat.short, fun hs => absurd hs hm⟩, hrest⟩

namespace System

variable {x : System} {E : List LogEntry} {w : World} {b : ℕ}

theorem Sound.delivered_stored (h : x.Sound c E w b) {i : ℕ} {e : LogEntry}
    (he : x.delivered[i]? = some e) :
    e.offset = x.start + i ∧ w.ghost.total[e.offset]? = some e := by
  have hsight := h.delivered i e he
  have hoff := (h.good.upTo b).numbered_total _ _ hsight
  rw [Nat.zero_add] at hoff
  rw [hoff]
  exact ⟨rfl, getElem?_of_prefix (h.good.later_upTo b).total hsight⟩

/-- As far as the log has committed, what has been delivered is committed. -/
theorem Sound.delivered_committed (h : x.Sound c E w b) {e : LogEntry} (he : e ∈ x.delivered)
    (hlt : e.offset < E.length) : E[e.offset]? = some e := by
  obtain ⟨i, hi⟩ := List.mem_iff_getElem?.mp he
  obtain ⟨more, hmore⟩ := h.stored
  have hstored := (h.delivered_stored hi).2
  rwa [← hmore, List.getElem?_append_left hlt] at hstored

/-- Between two calls everything that has been delivered is committed and, while its
segment is there, is what reading its offset returns. -/
theorem Sound.delivered_idle (h : x.Sound c E w b) {l : Log} (hl : x.writer = .idle l)
    {e : LogEntry} (he : e ∈ x.delivered) :
    e.offset < l.nextOffset ∧ (Retained x.disk e.offset → ReadsBack c l x.disk e) := by
  have hwriter := h.writer
  rw [hl] at hwriter
  have hnext : l.nextOffset = E.length := hwriter.next
  obtain ⟨hrep, hp, rfl⟩ := hwriter
  obtain ⟨i, hi⟩ := List.mem_iff_getElem?.mp he
  have hstored := (h.delivered_stored hi).2
  have hlt := (List.getElem?_eq_some_iff.mp hstored).1
  refine ⟨hnext ▸ hlt, fun hretained => ?_⟩
  rw [← h.disk] at hretained ⊢
  have hcalm : Rep c calm l w := hrep.relax id
  exact hcalm.readsBack hp hstored ((h.good.retained_iff hlt).mp hretained)

/-- In every run in which the log cuts off nothing that the subscription has read:
whatever has been delivered is the committed entry as soon as its offset is
committed; when no append is under way all of it is committed, and reading its
offset returns it. -/
theorem no_dirty_reads (h : Run c Spares x) : ∃ entries : List LogEntry,
    entries.length = x.writer.log.nextOffset ∧ payloads (entries.drop x.first) = x.accepted ∧
    (∀ e ∈ x.delivered, e.offset < entries.length → entries[e.offset]? = some e) ∧
    ∀ l, x.writer = .idle l → ∀ e ∈ x.delivered,
      e.offset < l.nextOffset ∧ (Retained x.disk e.offset → ReadsBack c l x.disk e) := by
  obtain ⟨E, w, b, hsound⟩ := h.sound fun _ hspare => hspare
  exact ⟨E, hsound.writer.next.symm, hsound.accepted, fun e he => hsound.delivered_committed he,
    fun l hl e he => hsound.delivered_idle hl he⟩

/-- A batch fails at its sync, the next one is stored, and a subscription reads it. -/
def cleanTurns : List Turn :=
  .subscribe 0 :: .append "p" [sampleHealth] :: List.replicate 8 (.log false) ++
    [.log true, .log false, .append "q" [sampleHealth, sampleHealth]] ++
    List.replicate 10 (.log false) ++ .arm :: List.replicate 15 .look ++ [.finish, .arm] ++
    List.replicate 10 .look ++ [.finish]

theorem drive_clean :
    ((drive sampleCodec 0 Spares cleanTurns (fresh {})).map fun x =>
      (x.delivered, x.writer.idle?.isSome)) =
      some ([⟨0, 0, "q", sampleHealth⟩, ⟨1, 0, "q", sampleHealth⟩], true) := by
  decide +kernel

theorem no_dirty_reads_clean : ∃ x, Run sampleCodec Spares x ∧
    x.delivered = [⟨0, 0, "q", sampleHealth⟩, ⟨1, 0, "q", sampleHealth⟩] ∧
    ∃ entries : List LogEntry,
      entries.length = x.writer.log.nextOffset ∧ payloads (entries.drop x.first) = x.accepted ∧
      (∀ e ∈ x.delivered, e.offset < entries.length → entries[e.offset]? = some e) ∧
      ∀ l, x.writer = .idle l → ∀ e ∈ x.delivered,
        e.offset < l.nextOffset ∧
          (Retained x.disk e.offset → ReadsBack sampleCodec l x.disk e) := by
  obtain ⟨x, hdrive, hx⟩ := Option.map_eq_some_iff.mp drive_clean
  have hrun : Run sampleCodec Spares x := run_of_drive (by decide +kernel) hdrive
  exact ⟨x, hrun, (Prod.mk.inj hx).1, no_dirty_reads hrun⟩

/-- A subscription reads an entry before it is synced; the sync fails, and the next
append gets the offset. -/
def dirtyTurns : List Turn :=
  [.subscribe 0, .append "p" [sampleHealth]] ++ List.replicate 8 (.log false) ++
    .arm :: List.replicate 15 .look ++ [.finish, .log true, .log false] ++
    .append "q" [sampleHealth] :: List.replicate 8 (.log false)

theorem drive_dirty :
    ((drive sampleCodec 0 (fun _ => True) dirtyTurns (fresh {})).bind fun x =>
      x.writer.idle?.bind fun l =>
        (simulate 0 (readRange sampleCodec 0 (some 1) l) [] x.disk).map fun y =>
          (x.delivered, l.nextOffset, y.2.1)) =
      some ([⟨0, 0, "p", sampleHealth⟩], 1, .ok [⟨0, 0, "q", sampleHealth⟩]) := by
  decide +kernel

/-- An entry is delivered that is not the one committed at its offset. -/
theorem dirty_read : ∃ x l e d e' l', Run sampleCodec (fun _ => True) x ∧ x.writer = .idle l ∧
    e ∈ x.delivered ∧ e.offset < l.nextOffset ∧
    Finishes (Step NoFail) x.disk (readRange sampleCodec e.offset (some (e.offset + 1)) l) d
      (.ok [e'], l') ∧ e' ≠ e := by
  obtain ⟨x, hdrive, hrest⟩ := Option.bind_eq_some_iff.mp drive_dirty
  obtain ⟨l, hl, hrest⟩ := Option.bind_eq_some_iff.mp hrest
  obtain ⟨⟨d, r, l'⟩, hread, hx⟩ := Option.map_eq_some_iff.mp hrest
  obtain ⟨hdelivered, hx⟩ := Prod.mk.inj hx
  obtain ⟨hnext, rfl⟩ := Prod.mk.inj hx
  exact ⟨x, l, ⟨0, 0, "p", sampleHealth⟩, d, ⟨0, 0, "q", sampleHealth⟩, l',
    run_of_drive (by decide +kernel) hdrive, Writer.idle?_eq_some hl,
    hdelivered ▸ List.mem_cons_self, hnext ▸ Nat.zero_lt_one, finishes_of_simulate (by simp) hread,
    by simp⟩

end System

end OtkCore.SegmentLog
