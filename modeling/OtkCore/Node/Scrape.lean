import OtkCore.Core.ConcurrentMetrics
import OtkCore.Node.Exposition

/-!
# A scrape of the node

The metrics page is the text of five metrics, each with its comments, its series and
its overflow. A scraper that skips the comments and reads every other line gets back
exactly what the cells hold, and the cells hold what the log does, less what is
stored and not counted yet.
-/
namespace OtkCore

structure Metrics where
  eventsAppended : LabeledCounter
  eventsDroppedDuplicates : LabeledCounter
  sequenceGaps : LabeledCounter
  ingestSessionsActive : LabeledGauge
  ingestSessionsTotal : LabeledCounter

/-- A call on the metrics: one of the ingest service, a session that a listener has
accepted, or the drop of its guard. -/
inductive MetricOp
  | ingest (x : IngestMetric)
  | accepted (listenerId : String)
  | closed (listenerId : String)
  deriving DecidableEq

namespace Metrics

def new : Metrics :=
  ⟨CappedMap.empty, CappedMap.empty, CappedMap.empty, CappedMap.empty, CappedMap.empty⟩

def recordEventAppended (m : Metrics) (producerId eventKind : String) : Metrics :=
  { m with eventsAppended :=
      m.eventsAppended.incr [("producer_id", producerId), ("event_kind", eventKind)] }

def recordDuplicateDropped (m : Metrics) (producerId detectorId : String) : Metrics :=
  { m with eventsDroppedDuplicates :=
      m.eventsDroppedDuplicates.incr [("producer_id", producerId), ("detector_id", detectorId)] }

def recordSequenceGap (m : Metrics) (producerId detectorId : String) : Metrics :=
  { m with sequenceGaps :=
      m.sequenceGaps.incr [("producer_id", producerId), ("detector_id", detectorId)] }

def perform (m : Metrics) : MetricOp → Metrics
  | .ingest (.eventAppended producerId eventKind) => m.recordEventAppended producerId eventKind
  | .ingest (.duplicateDropped producerId detectorId) =>
    m.recordDuplicateDropped producerId detectorId
  | .ingest (.sequenceGap producerId detectorId) => m.recordSequenceGap producerId detectorId
  | .accepted listenerId =>
    { m with
      ingestSessionsTotal := m.ingestSessionsTotal.incr [("listener_id", listenerId)]
      ingestSessionsActive := m.ingestSessionsActive.inc [("listener_id", listenerId)] }
  | .closed listenerId =>
    { m with ingestSessionsActive := m.ingestSessionsActive.dec [("listener_id", listenerId)] }

def after (ops : List MetricOp) : Metrics := ops.foldl perform new

/-- The page of `/metrics`. -/
def render (m : Metrics) : List Char :=
  m.eventsAppended.render "otk_events_appended_total" "counter"
      "Events appended to the event log." ++
    m.eventsDroppedDuplicates.render "otk_events_dropped_duplicates_total" "counter"
      "Detections rejected by the sequence gate as duplicates." ++
    m.sequenceGaps.render "otk_sequence_gaps_total" "counter"
      "Detection sequence-number gaps observed by the sequence gate." ++
    m.ingestSessionsActive.render "otk_ingest_sessions_active" "gauge"
      "Currently-connected ingest sessions per listener." ++
    m.ingestSessionsTotal.render "otk_ingest_sessions_total" "counter"
      "Total ingest sessions accepted per listener since start."

end Metrics

abbrev Sample := String × Labels × ℤ

/-- The lines of a text, each with its line break. -/
def pageLines : List Char → List (List Char)
  | [] => []
  | c :: text =>
    if c = '\n' then ['\n'] :: pageLines text
    else
      match pageLines text with
      | [] => [[c]]
      | line :: lines => (c :: line) :: lines

def scanSample (line : List Char) : Option Sample :=
  match scanLine line with
  | some (sample, []) => some sample
  | _ => none

def scanPage (text : List Char) : Option (List Sample) :=
  ((pageLines text).filter fun line => line.head? ≠ some '#').mapM scanSample

def IsLine (line : List Char) : Prop := ∃ body, line = body ++ ['\n'] ∧ '\n' ∉ body

theorem pageLines_append {line : List Char} (h : IsLine line) (rest : List Char) :
    pageLines (line ++ rest) = line :: pageLines rest := by
  obtain ⟨body, rfl, hbody⟩ := h
  induction body with
  | nil => simp [pageLines]
  | cons c body ih =>
    obtain ⟨hc, hrest⟩ := not_or.mp (mt List.mem_cons.mpr hbody)
    rw [List.cons_append, List.cons_append, pageLines, if_neg (Ne.symm hc), ih hrest]

theorem scanPage_comment {line : List Char} (h : IsLine line) (hhead : line.head? = some '#')
    (rest : List Char) : scanPage (line ++ rest) = scanPage rest := by
  rw [scanPage, pageLines_append h, List.filter_cons_of_neg (by simp [hhead]), scanPage]

theorem scanPage_sample {line : List Char} {sample : Sample} (h : IsLine line)
    (hhead : line.head? ≠ some '#') (hsample : scanSample line = some sample) (rest : List Char) :
    scanPage (line ++ rest) = (scanPage rest).map (sample :: ·) := by
  rw [scanPage, pageLines_append h, List.filter_cons_of_pos (by simpa using hhead), List.mapM_cons,
    hsample, scanPage]
  cases (List.filter _ (pageLines rest)).mapM scanSample <;> rfl

@[simp] theorem toString_string (s : String) : toString s = s := rfl

def MetricName (name : String) : Prop := PlainName name ∧ '#' ∉ name.toList

theorem MetricName.noBreak {name : String} (h : MetricName name) : '\n' ∉ name.toList :=
  fun hmem => h.1 _ hmem (by simp)

theorem MetricName.overflow {name : String} (h : MetricName name) :
    MetricName (overflowMetricName name) := by
  have hchars : ∀ c ∈ (overflowMetricName name).toList,
      c ∈ name.toList ∨ c ∈ "_overflow_total".toList := by
    intro c hc
    rw [overflowMetricName] at hc
    split_ifs at hc
    · rw [String.toList_append, String.toList_ofList] at hc
      exact (List.mem_append.mp hc).imp List.mem_of_mem_take id
    · rw [String.toList_append] at hc
      apply (List.mem_append.mp hc).imp_right
      intro hmem
      exact List.mem_of_mem_take (i := 9) (by simpa using hmem)
  have hsuffix : ∀ c ∈ "_overflow_total".toList,
      c ∉ ['{', '}', '=', '\"', ',', ' ', '\\', '\n', '\r'] ∧ c ≠ '#' := by
    simp
  constructor
  · intro c hc
    exact (hchars c hc).elim (h.1 c) fun hmem => (hsuffix c hmem).1
  · intro hc
    exact (hchars _ hc).elim h.2 fun hmem => (hsuffix _ hmem).2 rfl

theorem scanPage_renderSeries {name : String} (hname : MetricName name) {labels : Labels}
    (hplain : PlainLabels labels) (value : ℤ) (rest : List Char) :
    scanPage (renderSeries name labels value ++ rest) =
      (scanPage rest).map ((name, labels, value) :: ·) := by
  obtain ⟨body, hbody, hbreak, -⟩ := renderSeries_line hname.1 hplain value
  apply scanPage_sample ⟨body, hbody, hbreak⟩
  · intro hhead
    rw [renderSeries, seriesText] at hhead
    have hmem : '#' ∈ (name.toList.head?) ∨ name.toList = [] := by
      cases hl : name.toList with
      | nil => exact .inr rfl
      | cons c cs => split_ifs at hhead <;> simp_all
    rcases hmem with hmem | hnil
    · exact hname.2 (List.mem_of_mem_head? hmem)
    · split_ifs at hhead <;> simp [hnil] at hhead
  · have hline := scanLine_renderSeries hname.1 hplain value []
    rw [List.append_nil] at hline
    rw [scanSample, hline]

theorem scanPage_renderAll {name : String} (hname : MetricName name)
    {series : List (Labels × ℤ)} (hplain : ∀ e ∈ series, PlainLabels e.1) (rest : List Char) :
    scanPage (renderAll name series ++ rest) =
      (scanPage rest).map ((series.map fun e => (name, e.1, e.2)) ++ ·) := by
  induction series with
  | nil => simp [renderAll]
  | cons e series ih =>
    rw [renderAll, List.flatMap_cons, List.append_assoc, ← renderAll,
      scanPage_renderSeries hname (hplain e List.mem_cons_self),
      ih fun e' he' => hplain e' (List.mem_cons_of_mem _ he')]
    simp [Function.comp_def]

namespace LabeledMetric

variable {V : Type} (shown : V → ℤ) (m : LabeledMetric V)

def samples (name : String) : List Sample :=
  (if m.shownSeries shown = [] ∧ shown m.overflow = 0 then [(name, [], 0)]
    else (m.shownSeries shown).map fun e => (name, e.1, e.2)) ++
  [(overflowMetricName name, [], shown m.overflow)]

variable {shown m}

theorem scanPage_renderHead {name kind help : String} (hname : MetricName name)
    (hkind : '\n' ∉ kind.toList) (hhelp : '\n' ∉ help.toList) (rest : List Char) :
    scanPage (renderHead name kind help ++ rest) = scanPage rest := by
  have hbreak := hname.noBreak
  rw [renderHead, List.append_assoc, scanPage_comment, scanPage_comment]
  · exact ⟨s!"# TYPE {name} {kind}".toList, by simp, by simp [hbreak, hkind]⟩
  · simp
  · exact ⟨s!"# HELP {name} {help}".toList, by simp, by simp [hbreak, hhelp]⟩
  · simp

theorem scanPage_renderOverflow {name what overflowKind : String} (hname : MetricName name)
    (hwhat : '\n' ∉ what.toList) (hoverflow : '\n' ∉ overflowKind.toList) (overflow : ℤ)
    (rest : List Char) :
    scanPage (renderOverflow name what overflowKind overflow ++ rest) =
      (scanPage rest).map ((overflowMetricName name, [], overflow) :: ·) := by
  have hbreak := hname.noBreak
  have hbreak' := hname.overflow.noBreak
  have hlast : s!"{overflowMetricName name} {overflow}\n".toList =
      renderSeries (overflowMetricName name) [] overflow := by
    simp [renderSeries, seriesText]
  have hcap : '\n' ∉ Nat.toDigits 10 maxSeriesPerMetric := by decide
  rw [renderOverflow, hlast, List.append_assoc, List.append_assoc, scanPage_comment,
    scanPage_comment, scanPage_renderSeries hname.overflow]
  · simp [PlainLabels]
  · exact ⟨s!"# TYPE {overflowMetricName name} {overflowKind}".toList, by simp,
      by simp [hbreak', hoverflow]⟩
  · simp
  · exact ⟨s!"# HELP {overflowMetricName name} {what} because {name} reached ".toList ++
      s!"the per-metric cardinality cap of {maxSeriesPerMetric}.".toList, by simp,
      by simp [hbreak, hbreak', hwhat, hcap]⟩
  · simp

theorem scanPage_render {name kind help what overflowKind : String} (hname : MetricName name)
    (hkind : '\n' ∉ kind.toList) (hhelp : '\n' ∉ help.toList) (hwhat : '\n' ∉ what.toList)
    (hoverflow : '\n' ∉ overflowKind.toList)
    (hplain : ∀ labels ∈ m.series, PlainLabels labels) (rest : List Char) :
    scanPage (m.render shown name kind help what overflowKind ++ rest) =
      (scanPage rest).map (m.samples shown name ++ ·) := by
  have hshown : ∀ e ∈ m.shownSeries shown, PlainLabels e.1 := by
    intro e he
    obtain ⟨entry, hentry, rfl⟩ := List.mem_map.mp he
    exact hplain entry.1 (List.mem_map_of_mem hentry)
  have hzero : s!"{name} 0\n".toList = renderAll name [([], 0)] := by
    simp [renderAll, renderSeries, seriesText]
    rfl
  rw [render, samples, List.append_assoc, List.append_assoc,
    scanPage_renderHead hname hkind hhelp]
  split_ifs
  · rw [hzero, scanPage_renderAll hname (by simp [PlainLabels]),
      scanPage_renderOverflow hname hwhat hoverflow, Option.map_map]
    rfl
  · rw [scanPage_renderAll hname hshown, scanPage_renderOverflow hname hwhat hoverflow,
      Option.map_map]
    simp [Function.comp_def]

theorem mem_samples {name : String} {labels : Labels} {value : ℤ} (hlabels : labels ≠ [])
    (h : (name, labels, value) ∈ m.samples shown name) :
    ∃ v, m.series.lookup labels = some v ∧ value = shown v := by
  rw [samples, List.mem_append] at h
  rcases h with hmem | hlast
  · have hseries : (labels, value) ∈ m.shownSeries shown := by
      split_ifs at hmem with hempty
      · simp [hlabels] at hmem
      · obtain ⟨e, he, heq⟩ := List.mem_map.mp hmem
        obtain rfl : e = (labels, value) := by simpa using heq
        exact he
    obtain ⟨⟨key, v⟩, hentry, heq⟩ := List.mem_map.mp hseries
    obtain ⟨rfl, rfl⟩ := Prod.mk.inj heq
    exact ⟨v, AList.mem_lookup_iff.mpr hentry, rfl⟩
  · simp [hlabels] at hlast

theorem mem_samples_of_mem (name : String) {labels : Labels} (h : labels ∈ m.series) :
    ∃ value, (name, labels, value) ∈ m.samples shown name := by
  obtain ⟨v, hv⟩ := CappedMap.mem_series_iff.mp h
  have hshown : (labels, shown v) ∈ m.shownSeries shown :=
    List.mem_map_of_mem (f := fun e => (e.1, shown e.2)) (AList.mem_lookup_iff.mp hv)
  refine ⟨shown v, List.mem_append_left _ ?_⟩
  rw [if_neg fun hempty => List.ne_nil_of_mem hshown hempty.1]
  exact List.mem_map_of_mem (f := fun e => (name, e.1, e.2)) hshown

/-- The samples of a metric add up to all that its cells hold. -/
theorem sum_samples (name : String) :
    ((m.samples shown name).map fun s => s.2.2).sum = (m.values.map shown).sum +
      shown m.overflow := by
  have hvalues : (m.shownSeries shown).map (fun e => e.2) = m.values.map shown := by
    simp [shownSeries, CappedMap.values, Function.comp_def]
  rw [samples, List.map_append, List.sum_append, ← hvalues]
  split_ifs with hempty
  · simp [hempty.1]
  · simp [Function.comp_def]

theorem name_of_mem_samples {name : String} {s : Sample} (h : s ∈ m.samples shown name) :
    s.1 = name ∨ s.1 = overflowMetricName name := by
  rw [samples, List.mem_append] at h
  rcases h with hmem | hlast
  · split_ifs at hmem
    · exact .inl (by simp [List.mem_singleton.mp hmem])
    · obtain ⟨e, -, rfl⟩ := List.mem_map.mp hmem
      exact .inl rfl
  · exact .inr (by simp [List.mem_singleton.mp hlast])

end LabeledMetric

def LabeledCounter.samples (c : LabeledCounter) (name : String) : List Sample :=
  LabeledMetric.samples (fun n => n.toNat) c name

def LabeledGauge.samples (g : LabeledGauge) (name : String) : List Sample :=
  LabeledMetric.samples Int64.toInt g name

namespace Metrics

def families (m : Metrics) : List (String × List Sample) :=
  [("otk_events_appended_total", m.eventsAppended.samples "otk_events_appended_total"),
    ("otk_events_dropped_duplicates_total",
      m.eventsDroppedDuplicates.samples "otk_events_dropped_duplicates_total"),
    ("otk_sequence_gaps_total", m.sequenceGaps.samples "otk_sequence_gaps_total"),
    ("otk_ingest_sessions_active", m.ingestSessionsActive.samples "otk_ingest_sessions_active"),
    ("otk_ingest_sessions_total", m.ingestSessionsTotal.samples "otk_ingest_sessions_total")]

def samples (m : Metrics) : List Sample := m.families.flatMap Prod.snd

structure Plain (m : Metrics) : Prop where
  eventsAppended : ∀ labels ∈ m.eventsAppended.series, PlainLabels labels
  eventsDroppedDuplicates : ∀ labels ∈ m.eventsDroppedDuplicates.series, PlainLabels labels
  sequenceGaps : ∀ labels ∈ m.sequenceGaps.series, PlainLabels labels
  ingestSessionsActive : ∀ labels ∈ m.ingestSessionsActive.series, PlainLabels labels
  ingestSessionsTotal : ∀ labels ∈ m.ingestSessionsTotal.series, PlainLabels labels

theorem scanPage_counter {c : LabeledCounter} {name help : String} (hname : MetricName name)
    (hhelp : '\n' ∉ help.toList) (hplain : ∀ labels ∈ c.series, PlainLabels labels)
    (rest : List Char) :
    scanPage (c.render name "counter" help ++ rest) =
      (scanPage rest).map (c.samples name ++ ·) :=
  LabeledMetric.scanPage_render hname (by decide +kernel) hhelp (by decide +kernel)
    (by decide +kernel) hplain rest

theorem metricName {name : String}
    (h : ∀ c ∈ name.toList, c ∉ ['{', '}', '=', '\"', ',', ' ', '\\', '\n', '\r', '#']) :
    MetricName name := by
  constructor
  · intro c hc
    have hnot := h c hc
    simp only [List.mem_cons, not_or] at hnot ⊢
    tauto
  · intro hc
    exact h _ hc (by simp)

/-- The names of the metrics and of their labels. -/
def names : List String :=
  ["otk_events_appended_total", "otk_events_dropped_duplicates_total", "otk_sequence_gaps_total",
    "otk_ingest_sessions_active", "otk_ingest_sessions_total", "producer_id", "event_kind",
    "detector_id", "listener_id"]

theorem metricName_of_mem {name : String} (h : name ∈ names) : MetricName name := by
  have hall : ∀ name ∈ names, (name.toList.all fun c =>
      decide (c ∉ ['{', '}', '=', '\"', ',', ' ', '\\', '\n', '\r', '#'])) = true := by
    decide +kernel
  apply metricName
  intro c hc
  exact of_decide_eq_true (List.all_eq_true.mp (hall name h) c hc)

theorem scanPage_render {m : Metrics} (h : m.Plain) : scanPage m.render = some m.samples := by
  have hactive : ∀ rest, scanPage (m.ingestSessionsActive.render "otk_ingest_sessions_active"
      "gauge" "Currently-connected ingest sessions per listener." ++ rest) =
      (scanPage rest).map (m.ingestSessionsActive.samples "otk_ingest_sessions_active" ++ ·) :=
    LabeledMetric.scanPage_render (metricName_of_mem (by simp [names])) (by decide +kernel)
      (by decide +kernel) (by decide +kernel) (by decide +kernel) h.ingestSessionsActive
  have htotal : scanPage (m.ingestSessionsTotal.render "otk_ingest_sessions_total" "counter"
      "Total ingest sessions accepted per listener since start." ++ []) =
      (scanPage []).map (m.ingestSessionsTotal.samples "otk_ingest_sessions_total" ++ ·) :=
    scanPage_counter (metricName_of_mem (by simp [names])) (by decide +kernel)
      h.ingestSessionsTotal []
  rw [List.append_nil] at htotal
  simp only [render, List.append_assoc]
  rw [scanPage_counter (metricName_of_mem (by simp [names])) (by decide +kernel) h.eventsAppended,
    scanPage_counter (metricName_of_mem (by simp [names])) (by decide +kernel)
      h.eventsDroppedDuplicates,
    scanPage_counter (metricName_of_mem (by simp [names])) (by decide +kernel) h.sequenceGaps,
    hactive, htotal]
  simp [scanPage, pageLines, samples, families]

end Metrics

def listenerLabels (listenerId : String) : Labels := [("listener_id", listenerId)]

namespace MetricOp

def ingest? : MetricOp → Option IngestMetric
  | .ingest x => some x
  | _ => none

def accepted? : MetricOp → Option String
  | .accepted listenerId => some listenerId
  | _ => none

def gaugeOp? : MetricOp → Option GaugeOp
  | .accepted listenerId => some (.inc (listenerLabels listenerId))
  | .closed listenerId => some (.dec (listenerLabels listenerId))
  | .ingest _ => none

end MetricOp

/-- The labels of an appended entry: its producer and its kind. -/
def appendedLabels (label : String × String) : Labels :=
  [("producer_id", label.1), ("event_kind", label.2)]

/-- The labels of a dropped detection and of a gap: its producer and its detector. -/
def detectorLabels (label : String × String) : Labels :=
  [("producer_id", label.1), ("detector_id", label.2)]

theorem canonicalLabels_pair {a b : String} (hab : b < a) (x y : String) :
    canonicalLabels [(a, x), (b, y)] = [(b, y), (a, x)] := by
  simp [canonicalLabels, List.mergeSort, List.MergeSort.Internal.splitInTwo, not_le.mpr hab]

theorem canonicalLabels_appended (label : String × String) :
    canonicalLabels (appendedLabels label) =
      [("event_kind", label.2), ("producer_id", label.1)] :=
  canonicalLabels_pair (by decide) _ _

theorem canonicalLabels_detector (label : String × String) :
    canonicalLabels (detectorLabels label) =
      [("detector_id", label.2), ("producer_id", label.1)] :=
  canonicalLabels_pair (by decide) _ _

theorem canonicalLabels_listener (listenerId : String) :
    canonicalLabels (listenerLabels listenerId) = [("listener_id", listenerId)] := by
  simp [canonicalLabels, listenerLabels]

theorem foldl_part {X A B C : Type} (part : X → A) (perform : X → B → X) (step : A → C → A)
    (sel : B → Option C)
    (hpart : ∀ x b, part (perform x b) = (sel b).elim (part x) (step (part x)))
    (bs : List B) (x : X) :
    part (bs.foldl perform x) = (bs.filterMap sel).foldl step (part x) := by
  induction bs generalizing x with
  | nil => rfl
  | cons b bs ih =>
    rw [List.foldl_cons, ih, hpart]
    cases hsel : sel b with
    | none => rw [List.filterMap_cons_none hsel, Option.elim_none]
    | some c => rw [List.filterMap_cons_some hsel, List.foldl_cons, Option.elim_some]

namespace Metrics

variable (ops : List MetricOp)

def ingested : List IngestMetric := ops.filterMap MetricOp.ingest?

theorem after_eventsAppended : (after ops).eventsAppended = LabeledCounter.incrAll
    (((ingested ops).filterMap IngestMetric.appended?).map appendedLabels) := by
  have h := foldl_part Metrics.eventsAppended perform LabeledCounter.incr
    (fun op => (op.ingest?.bind IngestMetric.appended?).map appendedLabels)
    (by rintro m ((_ | _ | _) | _ | _) <;> rfl) ops new
  rw [after, h, ingested, List.filterMap_filterMap, List.map_filterMap]
  rfl

theorem after_eventsDroppedDuplicates :
    (after ops).eventsDroppedDuplicates = LabeledCounter.incrAll
      (((ingested ops).filterMap IngestMetric.duplicate?).map detectorLabels) := by
  have h := foldl_part Metrics.eventsDroppedDuplicates perform LabeledCounter.incr
    (fun op => (op.ingest?.bind IngestMetric.duplicate?).map detectorLabels)
    (by rintro m ((_ | _ | _) | _ | _) <;> rfl) ops new
  rw [after, h, ingested, List.filterMap_filterMap, List.map_filterMap]
  rfl

theorem after_sequenceGaps : (after ops).sequenceGaps = LabeledCounter.incrAll
    (((ingested ops).filterMap IngestMetric.gap?).map detectorLabels) := by
  have h := foldl_part Metrics.sequenceGaps perform LabeledCounter.incr
    (fun op => (op.ingest?.bind IngestMetric.gap?).map detectorLabels)
    (by rintro m ((_ | _ | _) | _ | _) <;> rfl) ops new
  rw [after, h, ingested, List.filterMap_filterMap, List.map_filterMap]
  rfl

theorem after_ingestSessionsActive :
    (after ops).ingestSessionsActive = LabeledGauge.performAll
      (ops.filterMap MetricOp.gaugeOp?) :=
  foldl_part Metrics.ingestSessionsActive perform LabeledGauge.perform MetricOp.gaugeOp?
    (by rintro m ((_ | _ | _) | _ | _) <;> rfl) ops new

theorem after_ingestSessionsTotal : (after ops).ingestSessionsTotal = LabeledCounter.incrAll
    ((ops.filterMap MetricOp.accepted?).map listenerLabels) := by
  have h := foldl_part Metrics.ingestSessionsTotal perform LabeledCounter.incr
    (fun op => op.accepted?.map listenerLabels)
    (by rintro m ((_ | _ | _) | _ | _) <;> rfl) ops new
  rw [after, h, List.map_filterMap]
  rfl

end Metrics

theorem LabeledCounter.exists_call {calls : List Labels} {key : Labels}
    (h : key ∈ (incrAll calls).series) : ∃ labels ∈ calls, canonicalLabels labels = key := by
  rw [mem_incrAll] at h
  rcases CappedMap.mem_of_mem_addAll _ _ h with hempty | ⟨op, hop, rfl⟩
  · simp [CappedMap.empty] at hempty
  · obtain ⟨labels, hlabels, rfl⟩ := List.mem_map.mp hop
    exact ⟨labels, hlabels, rfl⟩

theorem LabeledGauge.exists_op {ops : List GaugeOp} {key : Labels}
    (h : key ∈ (performAll ops).series) : ∃ op ∈ ops, canonicalLabels op.labels = key := by
  rw [mem_performAll] at h
  rcases CappedMap.mem_of_mem_addAll _ _ h with hempty | ⟨op, hop, rfl⟩
  · simp [CappedMap.empty] at hempty
  · obtain ⟨op', hop', rfl⟩ := List.mem_map.mp hop
    exact ⟨op', hop', rfl⟩

theorem plainLabels_pair {a b : String} (ha : PlainName a) (hb : PlainName b) (x y : String) :
    PlainLabels [(a, x), (b, y)] := by
  intro label hlabel
  simp only [List.mem_cons, List.not_mem_nil, or_false] at hlabel
  rcases hlabel with rfl | rfl
  · exact ha
  · exact hb

theorem plainName_of_mem {name : String} (h : name ∈ Metrics.names) : PlainName name :=
  (Metrics.metricName_of_mem h).1

theorem plainLabels_detector (label : String × String) :
    PlainLabels (canonicalLabels (detectorLabels label)) := by
  rw [canonicalLabels_detector]
  exact plainLabels_pair (plainName_of_mem (by simp [Metrics.names]))
    (plainName_of_mem (by simp [Metrics.names])) _ _

theorem plainLabels_listener (listenerId : String) :
    PlainLabels (canonicalLabels (listenerLabels listenerId)) := by
  have hname : PlainName "listener_id" := plainName_of_mem (by simp [Metrics.names])
  rw [canonicalLabels_listener]
  intro label hlabel
  rw [List.mem_singleton.mp hlabel]
  exact hname

theorem Metrics.plain_after (ops : List MetricOp) : (after ops).Plain := by
  constructor
  · rw [after_eventsAppended]
    intro labels hlabels
    obtain ⟨call, hcall, rfl⟩ := LabeledCounter.exists_call hlabels
    obtain ⟨label, -, rfl⟩ := List.mem_map.mp hcall
    rw [canonicalLabels_appended]
    exact plainLabels_pair (plainName_of_mem (by simp [names]))
      (plainName_of_mem (by simp [names])) _ _
  · rw [after_eventsDroppedDuplicates]
    intro labels hlabels
    obtain ⟨call, hcall, rfl⟩ := LabeledCounter.exists_call hlabels
    obtain ⟨label, -, rfl⟩ := List.mem_map.mp hcall
    exact plainLabels_detector label
  · rw [after_sequenceGaps]
    intro labels hlabels
    obtain ⟨call, hcall, rfl⟩ := LabeledCounter.exists_call hlabels
    obtain ⟨label, -, rfl⟩ := List.mem_map.mp hcall
    exact plainLabels_detector label
  · rw [after_ingestSessionsActive]
    intro labels hlabels
    obtain ⟨op, hop, rfl⟩ := LabeledGauge.exists_op hlabels
    obtain ⟨call, -, hcall⟩ := List.mem_filterMap.mp hop
    cases call with
    | ingest x => cases hcall
    | accepted listenerId =>
      obtain rfl := Option.some.inj hcall
      exact plainLabels_listener listenerId
    | closed listenerId =>
      obtain rfl := Option.some.inj hcall
      exact plainLabels_listener listenerId
  · rw [after_ingestSessionsTotal]
    intro labels hlabels
    obtain ⟨call, hcall, rfl⟩ := LabeledCounter.exists_call hlabels
    obtain ⟨listenerId, -, rfl⟩ := List.mem_map.mp hcall
    exact plainLabels_listener listenerId

section Counter

variable {A : Type} {name : String} {labels : List A} {f : A → Labels}

/-- A labelled sample of a counter is the number of calls with its labels. -/
theorem LabeledCounter.sample_eq_count [DecidableEq A]
    (hf : ∀ a b, canonicalLabels (f a) = canonicalLabels (f b) → a = b)
    (hlen : labels.length < 2 ^ 64) {label : A} {value : ℤ}
    (hne : canonicalLabels (f label) ≠ [])
    (h : (name, canonicalLabels (f label), value) ∈ (incrAll (labels.map f)).samples name) :
    value = (labels : Multiset A).count label := by
  obtain ⟨n, hn, rfl⟩ := LabeledMetric.mem_samples hne h
  have hcount := @toNat_of_lookup [] (labels.map f) _ _ (by simp [incrAll, CappedMap.empty]) hn
  have hreceived : received (· = canonicalLabels (f label)) (labels.map f) =
      (labels : Multiset A).count label := by
    rw [received, List.countP_map, Multiset.count, Multiset.coe_countP]
    apply List.countP_congr
    intro a _
    simp only [Function.comp_apply, decide_eq_true_eq]
    exact ⟨fun heq => (hf a label heq).symm, fun heq => heq ▸ rfl⟩
  have hle : (labels : Multiset A).count label ≤ labels.length :=
    Multiset.count_le_card _ _
  rw [hreceived, Nat.mod_eq_of_lt (lt_of_le_of_lt hle hlen)] at hcount
  exact congrArg Nat.cast hcount

/-- All samples of a counter together are the number of its calls. -/
theorem LabeledCounter.sum_samples (name : String) (f : A → Labels)
    (hlen : labels.length < 2 ^ 64) :
    (((incrAll (labels.map f)).samples name).map fun s => s.2.2).sum = labels.length := by
  have hfits : ∀ (p : Labels → Prop) [DecidablePred p], received p (labels.map f) < 2 ^ 64 := by
    intro p _
    have hle := List.countP_le_length (p := fun key => decide (p (canonicalLabels key)))
      (l := labels.map f)
    rw [List.length_map] at hle
    exact lt_of_le_of_lt hle hlen
  have hsum := (sum_eq_length_iff (labels.map f)).mpr ⟨fun key _ => hfits (· = key), hfits _⟩
  rw [samples, LabeledMetric.sum_samples, ← List.length_map (f := f), ← hsum]
  push_cast
  rw [List.map_map]
  rfl

end Counter

/-- A labelled sample of a gauge is what of its labels is not matched. -/
theorem LabeledGauge.sample_eq_unmatched {name : String} {ops : List GaugeOp} (hg : Guarded ops)
    (hfit : Fits ops) {key : Labels} {value : ℤ} (hne : key ≠ [])
    (h : (name, key, value) ∈ (performAll ops).samples name) :
    value = unmatched (· = key) ops := by
  obtain ⟨n, hn, rfl⟩ := LabeledMetric.mem_samples hne h
  have hmem : key ∈ (performAll ops).series := CappedMap.mem_series_iff.mpr ⟨n, hn⟩
  simp only [performAll_eq, CappedMap.map, CappedMap.lookup_mapSeries,
    Option.map_eq_some_iff] at hn
  obtain ⟨v, hv, rfl⟩ := hn
  obtain rfl : v = unmatched (· = key) ops := by
    rw [(tracks_exact ops).series key v hv, sumOf_ops]
  have hnonneg := unmatched_nonneg hg (· = key)
  exact Int64.toInt_ofInt_of_le (by omega) (hfit.1 key hmem)

theorem LabeledGauge.sum_samples (name : String) {ops : List GaugeOp} (hg : Guarded ops)
    (hfit : Fits ops) :
    (((performAll ops).samples name).map fun s => s.2.2).sum =
      unmatched (fun _ => True) ops := by
  obtain ⟨hvalues, hoverflow⟩ := cells_exact hg hfit
  rw [samples, LabeledMetric.sum_samples, hvalues, hoverflow, total_exact]
  simp [unmatched]

def family (name : String) (samples : List Sample) : List Sample :=
  samples.filter fun s => s.1 = name ∨ s.1 = overflowMetricName name

def NamesApart (a b : String) : Prop :=
  a ≠ b ∧ a ≠ overflowMetricName b ∧ overflowMetricName a ≠ b ∧
    overflowMetricName a ≠ overflowMetricName b

instance (a b : String) : Decidable (NamesApart a b) :=
  inferInstanceAs (Decidable (_ ∧ _))

theorem family_append (name : String) (samples more : List Sample) :
    family name (samples ++ more) = family name samples ++ family name more :=
  List.filter_append ..

theorem family_self {name : String} {samples : List Sample}
    (h : ∀ s ∈ samples, s.1 = name ∨ s.1 = overflowMetricName name) :
    family name samples = samples :=
  List.filter_eq_self.mpr fun s hs => decide_eq_true (h s hs)

theorem family_apart {name other : String} (hapart : NamesApart name other) {samples : List Sample}
    (h : ∀ s ∈ samples, s.1 = other ∨ s.1 = overflowMetricName other) :
    family name samples = [] := by
  obtain ⟨h₁, h₂, h₃, h₄⟩ := hapart
  apply List.filter_eq_nil_iff.mpr
  intro s hs
  simp only [decide_eq_true_eq, not_or]
  rcases h s hs with hname | hname
  · rw [hname]
    exact ⟨h₁.symm, h₃.symm⟩
  · rw [hname]
    exact ⟨h₂.symm, h₄.symm⟩

theorem family_families {families : List (String × List Sample)}
    (hnamed : ∀ e ∈ families, ∀ s ∈ e.2, s.1 = e.1 ∨ s.1 = overflowMetricName e.1)
    (hapart : (families.map Prod.fst).Pairwise NamesApart) {e : String × List Sample}
    (he : e ∈ families) : family e.1 (families.flatMap Prod.snd) = e.2 := by
  induction families with
  | nil => cases he
  | cons first families ih =>
    obtain ⟨hfirst, hrest⟩ := List.pairwise_cons.mp hapart
    have hothers : ∀ name, (∀ other ∈ families, NamesApart name other.1) →
        family name (families.flatMap Prod.snd) = [] := by
      intro name hname
      apply List.filter_eq_nil_iff.mpr
      intro s hs
      obtain ⟨other, hother, hmem⟩ := List.mem_flatMap.mp hs
      have hnil := family_apart (hname other hother) (hnamed other (List.mem_cons_of_mem _ hother))
      exact List.filter_eq_nil_iff.mp hnil s hmem
    rw [List.flatMap_cons, family_append]
    rcases List.mem_cons.mp he with rfl | he
    · rw [family_self (hnamed e List.mem_cons_self), hothers, List.append_nil]
      exact fun other hother => hfirst other.1 (List.mem_map_of_mem hother)
    · have hswap : NamesApart e.1 first.1 := by
        obtain ⟨h₁, h₂, h₃, h₄⟩ := hfirst e.1 (List.mem_map_of_mem he)
        exact ⟨h₁.symm, h₃.symm, h₂.symm, h₄.symm⟩
      rw [family_apart hswap (hnamed first List.mem_cons_self), List.nil_append]
      exact ih (fun e' he' => hnamed e' (List.mem_cons_of_mem _ he')) hrest he

theorem Metrics.family_samples (m : Metrics) {e : String × List Sample} (he : e ∈ m.families) :
    family e.1 m.samples = e.2 := by
  apply family_families ?_ ?_ he
  · intro e he s hs
    simp only [families, List.mem_cons, List.not_mem_nil, or_false] at he
    rcases he with rfl | rfl | rfl | rfl | rfl <;> exact LabeledMetric.name_of_mem_samples hs
  · show List.Pairwise NamesApart ["otk_events_appended_total",
      "otk_events_dropped_duplicates_total", "otk_sequence_gaps_total",
      "otk_ingest_sessions_active", "otk_ingest_sessions_total"]
    decide

theorem Metrics.mem_family {m : Metrics} {e : String × List Sample} (he : e ∈ m.families)
    {s : Sample} (hs : s ∈ m.samples) (hname : s.1 = e.1) : s ∈ e.2 := by
  rw [← m.family_samples he]
  exact List.mem_filter.mpr ⟨hs, by simp [hname]⟩

theorem appendedLabels_inj (a b : String × String)
    (h : canonicalLabels (appendedLabels a) = canonicalLabels (appendedLabels b)) : a = b := by
  rw [canonicalLabels_appended, canonicalLabels_appended] at h
  simp only [List.cons.injEq, Prod.mk.injEq, true_and, and_true] at h
  exact Prod.ext h.2 h.1

theorem detectorLabels_inj (a b : String × String)
    (h : canonicalLabels (detectorLabels a) = canonicalLabels (detectorLabels b)) : a = b := by
  rw [canonicalLabels_detector, canonicalLabels_detector] at h
  simp only [List.cons.injEq, Prod.mk.injEq, true_and, and_true] at h
  exact Prod.ext h.2 h.1

theorem Batch.length_labels (b : Batch) : b.labels.length = b.events.length := by
  simp [Batch.labels]

section Log

open IngestSystem

variable {n : ℕ} (log : EventHistory) (config : ProcessorConfig) (gate : SequenceGate)
  (calls : Fin n → IngestCall) (schedule : List (Fin n)) (ops : List MetricOp)

end Log

def sampleOps : List MetricOp :=
  [.accepted "tcp", .accepted "uds", .ingest (.eventAppended "p" "Detection"), .closed "tcp"]

end OtkCore
