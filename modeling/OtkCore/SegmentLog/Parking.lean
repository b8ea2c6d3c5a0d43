import OtkCore.SegmentLog.Sharing

/-!
# Waiting for the log

A subscription that waits has seen all that was committed when it armed its wake-up,
unless it came too late for a segment and then listed a directory without any: it
takes such a directory for a log that has not begun.
-/
namespace OtkCore.SegmentLog

open Effect FileIO

def Reader.waiting? : Reader → Option Subscription
  | .trying (.pure (.ok .wait, s)) => some s
  | _ => none

namespace System

variable {c : Codec} {x : System} {s : Subscription}

/-- The subscription has come to its wait and has not been woken since it armed the
wake-up. -/
def Parked (x : System) (s : Subscription) : Prop :=
  x.reader.waiting? = some s ∧ x.notified = false

/-- In every run in which the log cuts off nothing that the subscription has read, and
with no second listing that shows no segment: whoever waits has been given all that
was committed when the wake-up was armed. -/
theorem never_parks_past (h : Run c Spares x) (hshown : ¬ x.sweep.Blind) (hparked : x.Parked s) :
    x.armed ≤ s.nextOffset := by
  obtain ⟨E, w, b, hsound⟩ := h.sound fun _ hspare => hspare
  have hreader := hsound.reader
  obtain ⟨hwaits, -⟩ := hparked
  cases hx : x.reader with
  | absent =>
    rw [hx] at hwaits
    cases hwaits
  | resting t =>
    rw [hx] at hwaits
    cases hwaits
  | trying rest =>
    rw [hx] at hwaits hreader
    match rest with
    | .step o k => cases hwaits
    | .pure (.error err, t) => cases hwaits
    | .pure (.ok (.returned e), t) => cases hwaits
    | .pure (.ok .again, t) => cases hwaits
    | .pure (.ok .wait, t) =>
      obtain rfl := Option.some.inj hwaits
      obtain ⟨-, -, hn, -, hidle⟩ := hreader
      rcases hidle with hle | ⟨hblind, -⟩
      · exact hn.symm ▸ hle
      · exact absurd hblind hshown

/-- A subscription reads the only entry and waits for another one. -/
def waitingTurns : List Turn :=
  [.subscribe 0, .append "p" [sampleHealth]] ++ List.replicate 12 (.log false) ++
    .arm :: List.replicate 15 .look ++ [.finish, .arm, .look, .look]

theorem drive_waiting :
    ((drive sampleCodec 0 Spares waitingTurns (fresh {})).map fun x =>
      (x.reader.waiting?.map Subscription.nextOffset, x.notified, x.armed, x.sweep)) =
      some (some 1, false, 1, .start) := by
  decide +kernel

theorem never_parks_past_waiting : ∃ x s, Run sampleCodec Spares x ∧ x.Parked s ∧
    x.armed = 1 ∧ x.armed ≤ s.nextOffset := by
  obtain ⟨x, hdrive, hx⟩ := Option.map_eq_some_iff.mp drive_waiting
  obtain ⟨hwaits, hx⟩ := Prod.mk.inj hx
  obtain ⟨hquiet, hx⟩ := Prod.mk.inj hx
  obtain ⟨harmed, hsweep⟩ := Prod.mk.inj hx
  have hrun : Run sampleCodec Spares x := run_of_drive (by decide +kernel) hdrive
  have hshown : ¬ x.sweep.Blind := by
    rw [hsweep]
    decide
  obtain ⟨s, hs, -⟩ := Option.map_eq_some_iff.mp hwaits
  exact ⟨x, s, hrun, ⟨hs, hquiet⟩, harmed, never_parks_past hrun hshown ⟨hs, hquiet⟩⟩

/-- The segment that a subscription has found is deleted before it is opened, and there
is no other one. -/
def parkingTurns : List Turn :=
  [.subscribe 0, .append "p" [sampleHealth]] ++ List.replicate 25 (.log false) ++
    .arm :: List.replicate 4 .look ++ .log false :: List.replicate 4 .look

theorem drive_parking :
    ((drive sampleCodec 0 Spares parkingTurns
      (fresh { maxSegmentBytes := 1, retention := .sizeBased 0 })).map fun x =>
        (x.reader.waiting?.map Subscription.nextOffset, x.notified, x.armed)) =
      some (some 0, false, 1) := by
  decide +kernel

/-- The entry at the subscription's offset had been committed, and is gone. -/
theorem parks_past : ∃ x s, Run sampleCodec Spares x ∧ x.Parked s ∧ s.nextOffset < x.armed := by
  obtain ⟨x, hdrive, hx⟩ := Option.map_eq_some_iff.mp drive_parking
  obtain ⟨hwaits, hx⟩ := Prod.mk.inj hx
  obtain ⟨hquiet, harmed⟩ := Prod.mk.inj hx
  obtain ⟨s, hs, hn⟩ := Option.map_eq_some_iff.mp hwaits
  refine ⟨x, s, run_of_drive (by decide +kernel) hdrive, ⟨hs, hquiet⟩, ?_⟩
  rw [hn, harmed]
  exact Nat.zero_lt_one

end System

end OtkCore.SegmentLog
