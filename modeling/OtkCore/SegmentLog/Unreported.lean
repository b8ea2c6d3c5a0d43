import OtkCore.SegmentLog.Reported
import OtkCore.Lib.Simulation

/-!
# Failing writes

A failing write is reported by the next write on the same handle, or by nobody:
an append whose last record could not be written returns its offset. Where an
append is told of every write that fails in it, any operation but a truncation
may fail, and the log stays usable.
-/
namespace OtkCore.SegmentLog.Queued

open Effect FileIO Bytes

theorem noFail_isWrite (o : Op FileName) (h : NoFail o) : o.isWrite = false := h.elim

/-- Lives of a log during whose appends operations may fail. -/
inductive Endures (c : Codec) : Ledger → Deferred Log → Disk FileName → Prop
  | fresh {config : SegmentLogConfig} {l : Deferred Log} {d : Disk FileName} :
      Finishes (Step NoFail) .empty (openDir c config) d (.ok l) → Endures c ⟨[], []⟩ l d
  | append {g : Ledger} {l l' : Deferred Log} {d d' : Disk FileName} {producerId : String}
      {events : List OtkEvent} {r : Except StorageError ℕ} :
      Endures c g l d → Decodes c events → Appends c producerId events l d d' (r, l') →
      Endures c (g.after l.state l'.state (events.map (producerId, ·))) l' d'
  | read {g : Ledger} {l l' : Deferred Log} {d d' : Disk FileName} {start : ℕ} {stop : Option ℕ}
      {r : Except StorageError (List LogEntry)} :
      Endures c g l d → Finishes (Step NoFail) d (readRange c start stop l) d' (r, l') →
      Endures c g l' d'
  | reopen {g : Ledger} {l l' : Deferred Log} {d d' : Disk FileName} {config : SegmentLogConfig} :
      Endures c g l d → Finishes (Step NoFail) d (openDir c config) d' (.ok l') →
      Endures c ⟨g.committed ++ g.pending, []⟩ l' d'

/-- Reading a range answers from these entries. -/
def Answers (c : Codec) (l : Deferred Log) (d : Disk FileName) (entries : List LogEntry)
    (earliest : Option ℕ) : Prop :=
  ∀ start stop, (∃ d' x, Finishes (Step NoFail) d (readRange c start stop l) d' x) ∧
    ∀ d' r l', Finishes (Step NoFail) d (readRange c start stop l) d' (r, l') →
      r = rangeOf entries earliest start stop

variable {c : Codec} {g : Ledger} {l l' : Deferred Log} {d d' : Disk FileName}

/-- Opening leaves what it leaves on plain handles. -/
theorem plain_openDir {fails : Op FileName → Prop} (hw : ∀ o, fails o → o.isWrite = false)
    {config : SegmentLogConfig} {r : Except StorageError (Deferred Log)}
    (hx : Finishes (Step fails) d (openDir c config) d' r) :
    ∃ r', r = r'.map .clean ∧ Finishes (Step fails) d (SegmentLog.openDir c config) d' r' :=
  (mirrors_openDir c config).finishes hw hx

theorem plain_readRange {start : ℕ} {stop : Option ℕ} {r : Except StorageError (List LogEntry)}
    (hx : Finishes (Step NoFail) d (readRange c start stop l) d' (r, l')) :
    Finishes (Step NoFail) d (SegmentLog.readRange c start stop l.state) d' (r, l'.state) := by
  unfold readRange onState at hx
  obtain ⟨s', rfl, hx'⟩ := hx.zoom_inv
  exact hx'

theorem Endures.plain (h : Endures c g l d) : SegmentLog.Endures c g l.state d := by
  induction h with
  | @fresh config l d hx =>
    obtain ⟨r, hr, hx'⟩ := plain_openDir noFail_isWrite hx
    cases r with
    | error err => cases hr
    | ok s =>
      obtain rfl := Except.ok.inj hr
      exact .fresh hx'
  | append _ hcod hx ih =>
    obtain ⟨r', -, hx'⟩ := hx.plain
    exact .append ih hcod hx'
  | read _ hx ih => exact .read ih (plain_readRange hx)
  | @reopen g l l' d d' config _ hx ih =>
    obtain ⟨r, hr, hx'⟩ := plain_openDir noFail_isWrite hx
    cases r with
    | error err => cases hr
    | ok s' =>
      obtain rfl := Except.ok.inj hr
      exact .reopen ih hx'

theorem answers_of_plain {entries : List LogEntry} {earliest : Option ℕ}
    (h : SegmentLog.Answers c l.state d entries earliest) : Answers c l d entries earliest := by
  intro start stop
  constructor
  · obtain ⟨d', ⟨r, s'⟩, hx⟩ := (h start stop).1
    exact ⟨d', _, hx.bind (.pure _ _ _)⟩
  · intro d' r l' hx
    exact (h start stop).2 d' r l'.state (plain_readRange hx)

def sampleLog : Deferred Log := .clean ⟨{}, [], none, 0, false⟩

theorem finishes_openDir_sample :
    Finishes (Step NoFail) .empty (openDir sampleCodec {}) .empty (.ok sampleLog) := by
  have hsort : ([] : List ℕ).mergeSort (fun a b => decide (a ≤ b)) = [] := List.mergeSort_nil
  have hrun : simulate 0 (openDir sampleCodec {}) [] .empty =
      simulate 0 ((openSegments sampleCodec "otk-log" (([] : List ℕ).mergeSort fun a b =>
        decide (a ≤ b)) >>= _) (.clean ⟨[], none, 0⟩) >>= fun x =>
          .pure (x.1.map fun l => ⟨l, x.2.failed⟩)) [] .empty := rfl
  rw [hsort] at hrun
  exact finishes_of_simulate (by simp) (hrun.trans rfl)

def syncs : Op FileName → Bool
  | .sync _ => true
  | _ => false

theorem immediate_of_syncs (o : Op FileName) (h : syncs o = true) : Immediate o := by
  cases o with
  | sync i => exact ⟨nofun, rfl⟩
  | _ => cases h

theorem decodes_two : Decodes sampleCodec [sampleHealth, sampleHealth] := by
  simp [Decodes, sampleCodec]

/-- Writes of the first record of two. -/
def leading : Op FileName → Bool
  | .write _ pos bytes => decide (headerLen ≤ pos ∧
      pos + bytes.length < headerLen + eventsLen sampleCodec "p" [sampleHealth, sampleHealth])
  | _ => false

theorem collected_of_leading {l : Log} (hpos : batchPos l = headerLen) (o : Op FileName)
    (h : leading o = true) : Collected sampleCodec l "p" [sampleHealth, sampleHealth] o := by
  cases o with
  | write i pos bytes =>
    refine Or.inr ?_
    unfold Followed
    rw [hpos]
    exact of_decide_eq_true h
  | _ => cases h

end OtkCore.SegmentLog.Queued
