import OtkCore.Node.LabeledMetrics
import Mathlib.Data.Bool.AllAny

/-!
# Text exposition of a metric

Label values come from producers and may hold any character. `escapeLabelValue`
replaces one character after the other over the whole value; since the backslash
goes first, the result is the value escaped character by character. A scanner
that undoes the escapes reads a rendered series back, whatever follows it.
-/
namespace OtkCore

/-- `str::replace` with a character pattern. -/
def replace (pattern : Char) (replacement : List Char) (text : List Char) : List Char :=
  text.flatMap fun c => if c = pattern then replacement else [c]

def escapeLabelValue (v : List Char) : List Char :=
  replace '\r' ['\\', 'r'] <| replace '\n' ['\\', 'n'] <|
    replace '\"' ['\\', '\"'] <| replace '\\' ['\\', '\\'] v

/-- One label of a series: its name, and its value in quotes. -/
def renderLabel (label : String × String) : List Char :=
  label.1.toList ++ '=' :: '\"' :: (escapeLabelValue label.2.toList ++ ['\"'])

def seriesText (name : String) (labels : Labels) : List Char :=
  if labels = [] then name.toList ++ [' ']
  else name.toList ++ '{' :: (List.intercalate [','] (labels.map renderLabel) ++ ['}', ' '])

def renderSeries (name : String) (labels : Labels) (value : ℤ) : List Char :=
  seriesText name labels ++ value.repr.toList ++ ['\n']

/-- The lines of a metric's series, in the order the map yields them. -/
def renderAll (name : String) (series : List (Labels × ℤ)) : List Char :=
  series.flatMap fun e => renderSeries name e.1 e.2

/-- `_overflow` goes before a final `_total`. -/
def overflowMetricName (name : String) : String :=
  if "_total".toList <:+ name.toList then
    String.ofList (name.toList.take (name.toList.length - 6)) ++ "_overflow_total"
  else name ++ "_overflow"

namespace LabeledMetric

variable {V : Type} (shown : V → ℤ) (m : LabeledMetric V)

/-- The series with their values as the exposition shows them. -/
def shownSeries : List (Labels × ℤ) := m.series.entries.map fun e => (e.1, shown e.2)

def renderHead (name kind help : String) : List Char :=
  s!"# HELP {name} {help}\n".toList ++ s!"# TYPE {name} {kind}\n".toList

def renderOverflow (name what overflowKind : String) (overflow : ℤ) : List Char :=
  let overflowName := overflowMetricName name
  let cap := maxSeriesPerMetric
  s!"# HELP {overflowName} {what} because {name} reached ".toList ++
    s!"the per-metric cardinality cap of {cap}.\n".toList ++
    s!"# TYPE {overflowName} {overflowKind}\n".toList ++ s!"{overflowName} {overflow}\n".toList

/-- The text of a metric; `what` is what its overflow counts. -/
def render (name kind help what overflowKind : String) : List Char :=
  renderHead name kind help ++
    (if m.shownSeries shown = [] ∧ shown m.overflow = 0 then s!"{name} 0\n".toList
      else renderAll name (m.shownSeries shown)) ++
    renderOverflow name what overflowKind (shown m.overflow)

end LabeledMetric

def LabeledCounter.render (c : LabeledCounter) (name kind help : String) : List Char :=
  LabeledMetric.render (fun n => n.toNat) c name kind help "Label-sets dropped" "counter"

def LabeledGauge.render (g : LabeledGauge) (name kind help : String) : List Char :=
  LabeledMetric.render Int64.toInt g name kind help "Net delta sum for label-sets dropped" "gauge"

def unescape? (c : Char) : Option Char :=
  if c = '\\' then some '\\'
  else if c = '\"' then some '\"'
  else if c = 'n' then some '\n'
  else if c = 'r' then some '\r'
  else none

def scanValue : List Char → Option (List Char × List Char)
  | [] => none
  | [c] => if c = '\"' then some ([], []) else none
  | c :: e :: rest =>
    if c = '\"' then some ([], e :: rest)
    else if c = '\\' then
      (unescape? e).bind fun c => (scanValue rest).map fun (v, rest) => (c :: v, rest)
    else (scanValue (e :: rest)).map fun (v, rest) => (c :: v, rest)

/-- Read labels up to the closing brace; the number bounds how many. -/
def scanLabels : ℕ → List Char → Option (Labels × List Char)
  | 0, _ => none
  | n + 1, text =>
    let label := String.ofList (text.takeWhile (· ≠ '='))
    match text.dropWhile (· ≠ '=') with
    | '=' :: '\"' :: quoted =>
      match scanValue quoted with
      | some (v, ',' :: rest) =>
        (scanLabels n rest).map fun (labels, rest) => ((label, String.ofList v) :: labels, rest)
      | some (v, '}' :: rest) => some ([(label, String.ofList v)], rest)
      | _ => none
    | _ => none

/-- Read a metric name and its labels, and the space before the value. -/
def scanSeries (text : List Char) : Option ((String × Labels) × List Char) :=
  let name := String.ofList (text.takeWhile fun c => c ≠ '{' ∧ c ≠ ' ')
  match text.dropWhile fun c => c ≠ '{' ∧ c ≠ ' ' with
  | ' ' :: rest => some ((name, []), rest)
  | '{' :: rest =>
    match scanLabels rest.length rest with
    | some (labels, ' ' :: rest) => some ((name, labels), rest)
    | _ => none
  | _ => none

/-- The value of a decimal number with an optional minus sign. -/
def decimalValue (digits : List Char) : ℤ :=
  if digits.head? = some '-' then -(Nat.ofDigitChars 10 digits.tail 0 : ℤ)
  else Nat.ofDigitChars 10 digits 0

/-- Read a decimal number and the end of its line. -/
def scanNumber (text : List Char) : Option (ℤ × List Char) :=
  let digits := text.takeWhile (· ≠ '\n')
  match text.dropWhile (· ≠ '\n') with
  | '\n' :: rest => some (decimalValue digits, rest)
  | _ => none

def scanLine (text : List Char) : Option ((String × Labels × ℤ) × List Char) :=
  (scanSeries text).bind fun ((name, labels), rest) =>
    (scanNumber rest).map fun (value, rest) => ((name, labels, value), rest)

def scanLines : ℕ → List Char → Option (List (String × Labels × ℤ) × List Char)
  | 0, text => some ([], text)
  | n + 1, text =>
    (scanLine text).bind fun (line, rest) =>
      (scanLines n rest).map fun (lines, rest) => (line :: lines, rest)

def escapeChar (c : Char) : List Char :=
  if c = '\\' then ['\\', '\\']
  else if c = '\"' then ['\\', '\"']
  else if c = '\n' then ['\\', 'n']
  else if c = '\r' then ['\\', 'r']
  else [c]

/-- The backslash is replaced first, so no later replacement meets its own
output. -/
theorem escapeLabelValue_eq (v : List Char) : escapeLabelValue v = v.flatMap escapeChar := by
  simp only [escapeLabelValue, replace, List.flatMap_assoc]
  congr 1
  funext c
  unfold escapeChar
  split_ifs <;> simp_all

theorem not_mem_escapeLabelValue (v : List Char) :
    '\n' ∉ escapeLabelValue v ∧ '\r' ∉ escapeLabelValue v := by
  simp only [escapeLabelValue_eq, List.mem_flatMap, not_exists, not_and]
  constructor
  · intro c _
    unfold escapeChar
    split_ifs <;> simp_all [eq_comm]
  · intro c _
    unfold escapeChar
    split_ifs <;> simp_all [eq_comm]

theorem scanValue_cons {c : Char} (hq : c ≠ '\"') (hb : c ≠ '\\') (text : List Char) :
    scanValue (c :: text) = (scanValue text).map fun (v, rest) => (c :: v, rest) := by
  cases text with
  | nil => simp [scanValue, hq]
  | cons e text => simp [scanValue, hq, hb]

theorem scanValue_escapeLabelValue (v rest : List Char) :
    scanValue (escapeLabelValue v ++ '\"' :: rest) = some (v, rest) := by
  rw [escapeLabelValue_eq]
  induction v with
  | nil => cases rest <;> simp [scanValue]
  | cons c v ih =>
    rw [List.flatMap_cons, List.append_assoc]
    by_cases hb : c = '\\'
    · simp [hb, escapeChar, scanValue, unescape?, ih]
    · by_cases hq : c = '\"'
      · simp [hq, escapeChar, scanValue, unescape?, ih]
      · by_cases hn : c = '\n'
        · simp [hn, escapeChar, scanValue, unescape?, ih]
        · by_cases hr : c = '\r'
          · simp [hr, escapeChar, scanValue, unescape?, ih]
          · simp [hb, hq, hn, hr, escapeChar, scanValue_cons, ih]

/-- A metric or label name without the characters that structure a line. -/
def PlainName (name : String) : Prop :=
  ∀ c ∈ name.toList, c ∉ ['{', '}', '=', '\"', ',', ' ', '\\', '\n', '\r']

/-- The names of a series are plain; its values are arbitrary. -/
def PlainLabels (labels : Labels) : Prop := ∀ label ∈ labels, PlainName label.1

theorem takeWhile_append_stop {p : Char → Bool} {front : List Char} (stop : Char)
    (rest : List Char) (hfront : ∀ c ∈ front, p c = true) (hstop : p stop = false) :
    (front ++ stop :: rest).takeWhile p = front ∧
      (front ++ stop :: rest).dropWhile p = stop :: rest := by
  constructor
  · simp [List.takeWhile_append_of_pos hfront, hstop]
  · simp [List.dropWhile_append_of_pos hfront, hstop]

section OneLabel

variable {label : String × String} (hplain : PlainName label.1) (n : ℕ) (rest : List Char)
include hplain

theorem split_renderLabel (tail : List Char) :
    (renderLabel label ++ tail).takeWhile (· ≠ '=') = label.1.toList ∧
      (renderLabel label ++ tail).dropWhile (· ≠ '=') =
        '=' :: '\"' :: (escapeLabelValue label.2.toList ++ '\"' :: tail) := by
  have hname : ∀ c ∈ label.1.toList, decide (c ≠ '=') = true := by
    intro c hc
    have h := hplain c hc
    simp only [List.mem_cons, not_or] at h
    simpa using h.2.2.1
  have htext : renderLabel label ++ tail = label.1.toList ++ '=' ::
      ('\"' :: (escapeLabelValue label.2.toList ++ '\"' :: tail)) := by
    simp [renderLabel]
  rw [htext]
  exact takeWhile_append_stop '=' _ hname (by decide)

theorem scanLabels_comma :
    scanLabels (n + 1) (renderLabel label ++ ',' :: rest) =
      (scanLabels n rest).map fun (labels, rest) => (label :: labels, rest) := by
  obtain ⟨htake, hdrop⟩ := split_renderLabel hplain (',' :: rest)
  simp only [scanLabels, htake, hdrop, scanValue_escapeLabelValue, String.ofList_toList]

theorem scanLabels_close :
    scanLabels (n + 1) (renderLabel label ++ '}' :: rest) = some ([label], rest) := by
  obtain ⟨htake, hdrop⟩ := split_renderLabel hplain ('}' :: rest)
  simp only [scanLabels, htake, hdrop, scanValue_escapeLabelValue, String.ofList_toList]

end OneLabel

theorem scanLabels_rendered {labels : Labels} (hne : labels ≠ [])
    (hplain : ∀ label ∈ labels, PlainName label.1) {n : ℕ} (hn : labels.length ≤ n)
    (rest : List Char) :
    scanLabels n (List.intercalate [','] (labels.map renderLabel) ++ '}' :: rest) =
      some (labels, rest) := by
  induction labels generalizing n with
  | nil => exact absurd rfl hne
  | cons label labels ih =>
    obtain ⟨n, rfl⟩ : ∃ k, n = k + 1 := ⟨n - 1, by simp at hn; omega⟩
    have hlabel := hplain label (by simp)
    cases labels with
    | nil => simpa [List.intercalate] using scanLabels_close hlabel n rest
    | cons next labels =>
      have hrest := ih (by simp) (fun l hl => hplain l (by simp [hl])) (by simpa using hn)
      rw [List.map_cons, List.map_cons, List.intercalate_cons_cons, ← List.map_cons]
      have hstep := scanLabels_comma hlabel n
        (List.intercalate [','] ((next :: labels).map renderLabel) ++ '}' :: rest)
      rw [hrest] at hstep
      simpa using hstep

theorem length_le_intercalate (labels : Labels) :
    labels.length ≤ (List.intercalate [','] (labels.map renderLabel)).length := by
  induction labels with
  | nil => simp
  | cons label labels ih =>
    cases labels with
    | nil =>
      simp only [List.length_cons, List.length_nil, List.map_cons, List.map_nil,
        List.intercalate_singleton, renderLabel, List.length_append]
      omega
    | cons next labels =>
      rw [List.map_cons, List.map_cons, List.intercalate_cons_cons, ← List.map_cons]
      simp only [List.length_append, List.length_cons] at ih ⊢
      omega

/-- Whatever follows the series text, the scanner reads back the name and labels. -/
theorem scanSeries_seriesText {name : String} {labels : Labels} (hname : PlainName name)
    (hplain : PlainLabels labels) (rest : List Char) :
    scanSeries (seriesText name labels ++ rest) = some ((name, labels), rest) := by
  have hfront : ∀ c ∈ name.toList, decide (c ≠ '{' ∧ c ≠ ' ') = true := by
    intro c hc
    have h := hname c hc
    simp only [List.mem_cons, not_or] at h
    simpa using ⟨h.1, h.2.2.2.2.2.1⟩
  by_cases hnil : labels = []
  · have hsplit := takeWhile_append_stop ' ' rest hfront (by decide)
    rw [seriesText, if_pos hnil, List.append_assoc, List.singleton_append, scanSeries, hsplit.1,
      hsplit.2]
    simp [hnil]
  · have hsplit := takeWhile_append_stop '{'
      (List.intercalate [','] (labels.map renderLabel) ++ '}' :: ' ' :: rest) hfront (by decide)
    have htext : seriesText name labels ++ rest = name.toList ++ '{' ::
        (List.intercalate [','] (labels.map renderLabel) ++ '}' :: ' ' :: rest) := by
      simp [seriesText, hnil]
    have hfuel := (length_le_intercalate labels).trans
      (List.sublist_append_left _ ('}' :: ' ' :: rest)).length_le
    have hlabels := scanLabels_rendered hnil hplain hfuel (' ' :: rest)
    rw [htext, scanSeries, hsplit.1, hsplit.2]
    simp only [hlabels, String.ofList_toList]

theorem isDigit_of_mem_repr {n : ℕ} {c : Char} (h : c ∈ n.repr.toList) : c.isDigit = true := by
  rw [Nat.toList_repr] at h
  exact Nat.isDigit_of_mem_toDigits (by decide) (by decide) h

theorem toList_repr_int (value : ℤ) :
    value.repr.toList =
      if 0 ≤ value then value.toNat.repr.toList else '-' :: (-value).toNat.repr.toList := by
  rw [Int.repr_eq_if]
  split_ifs <;> simp

theorem not_mem_repr {value : ℤ} {c : Char} (h : c ∈ value.repr.toList) : c ≠ '\n' ∧ c ≠ '\r' := by
  have hdigit : ∀ n : ℕ, c ∈ n.repr.toList → c ≠ '\n' ∧ c ≠ '\r' := by
    intro n hn
    have hc := isDigit_of_mem_repr hn
    constructor <;> rintro rfl <;> simp at hc
  rw [toList_repr_int] at h
  split_ifs at h
  · exact hdigit _ h
  · rcases List.mem_cons.mp h with rfl | h
    · decide
    · exact hdigit _ h

theorem decimalValue_repr (value : ℤ) : decimalValue value.repr.toList = value := by
  rw [decimalValue, toList_repr_int]
  by_cases hpos : 0 ≤ value
  · have hne : value.toNat.repr.toList.head? ≠ some '-' := by
      intro hhead
      have hdigit := isDigit_of_mem_repr (List.mem_of_head? hhead)
      simp at hdigit
    rw [if_pos hpos, if_neg hne, Nat.toList_repr, Nat.ofDigitChars_ten_toDigits]
    omega
  · rw [if_neg hpos, List.head?_cons, if_pos rfl, List.tail_cons, Nat.toList_repr,
      Nat.ofDigitChars_ten_toDigits]
    omega

theorem scanNumber_repr (value : ℤ) (rest : List Char) :
    scanNumber (value.repr.toList ++ '\n' :: rest) = some (value, rest) := by
  have hfront : ∀ c ∈ value.repr.toList, decide (c ≠ '\n') = true := by
    intro c hc
    simpa using (not_mem_repr hc).1
  have hsplit := takeWhile_append_stop '\n' rest hfront (by decide)
  rw [scanNumber, hsplit.1, hsplit.2]
  simp only [decimalValue_repr]

theorem scanLine_renderSeries {name : String} {labels : Labels} (hname : PlainName name)
    (hplain : PlainLabels labels) (value : ℤ) (rest : List Char) :
    scanLine (renderSeries name labels value ++ rest) = some ((name, labels, value), rest) := by
  rw [renderSeries, List.append_assoc, List.append_assoc, scanLine,
    scanSeries_seriesText hname hplain]
  simp [scanNumber_repr]

theorem not_mem_renderLabel {label : String × String} (h : PlainName label.1) :
    '\n' ∉ renderLabel label ∧ '\r' ∉ renderLabel label := by
  have hvalue := not_mem_escapeLabelValue label.2.toList
  have hname : '\n' ∉ label.1.toList ∧ '\r' ∉ label.1.toList :=
    ⟨fun hc => h _ hc (by simp), fun hc => h _ hc (by simp)⟩
  simp [renderLabel, hvalue, hname]

theorem not_mem_intercalate {labels : Labels} (h : PlainLabels labels) :
    '\n' ∉ List.intercalate [','] (labels.map renderLabel) ∧
      '\r' ∉ List.intercalate [','] (labels.map renderLabel) := by
  induction labels with
  | nil => simp
  | cons label labels ih =>
    have hlabel := not_mem_renderLabel (h label (by simp))
    have hrest := ih fun l hl => h l (by simp [hl])
    cases labels with
    | nil => simpa using hlabel
    | cons next labels =>
      rw [List.map_cons, List.map_cons, List.intercalate_cons_cons, ← List.map_cons]
      simp only [List.mem_append, hlabel, hrest]
      decide

theorem renderSeries_line {name : String} {labels : Labels} (hname : PlainName name)
    (hplain : PlainLabels labels) (value : ℤ) :
    ∃ body, renderSeries name labels value = body ++ ['\n'] ∧ '\n' ∉ body ∧
      '\r' ∉ renderSeries name labels value := by
  have hname' : '\n' ∉ name.toList ∧ '\r' ∉ name.toList :=
    ⟨fun hc => hname _ hc (by simp), fun hc => hname _ hc (by simp)⟩
  have hlabels := not_mem_intercalate hplain
  have htext : '\n' ∉ seriesText name labels ∧ '\r' ∉ seriesText name labels := by
    unfold seriesText
    split_ifs <;> simp [hname', hlabels]
  have hvalue : '\n' ∉ value.repr.toList ∧ '\r' ∉ value.repr.toList :=
    ⟨fun hc => (not_mem_repr hc).1 rfl, fun hc => (not_mem_repr hc).2 rfl⟩
  refine ⟨seriesText name labels ++ value.repr.toList, by simp [renderSeries], ?_, ?_⟩
  · simp [htext, hvalue]
  · simp [renderSeries, htext, hvalue]

theorem scanLines_renderAll {name : String} (hname : PlainName name)
    {series : List (Labels × ℤ)} (hplain : ∀ e ∈ series, PlainLabels e.1) (rest : List Char) :
    scanLines series.length (renderAll name series ++ rest) =
      some (series.map fun e => (name, e.1, e.2), rest) := by
  induction series with
  | nil => rfl
  | cons e series ih =>
    have hrest := ih fun e' he' => hplain e' (by simp [he'])
    rw [renderAll, List.flatMap_cons, List.append_assoc, ← renderAll, List.length_cons, scanLines,
      scanLine_renderSeries hname (hplain e (by simp))]
    simp [hrest]

theorem labels_eq_of_seriesText {name : String} {labels labels' : Labels} (hname : PlainName name)
    (h : PlainLabels labels) (h' : PlainLabels labels')
    (hp : seriesText name labels <+: seriesText name labels') : labels = labels' := by
  obtain ⟨more, hmore⟩ := hp
  have hscan := scanSeries_seriesText hname h more
  have hscan' := scanSeries_seriesText hname h' []
  rw [List.append_nil, ← hmore, hscan] at hscan'
  simpa using congrArg (Option.map fun x => x.1.2) hscan'

/-- Rendering is safe and invertible: every series is one line, the scanner reads
every line and every rendered metric back, and label sets are told apart before
the value. -/
theorem exposition_invertible (name : String) (hname : PlainName name) :
    (∀ labels, PlainLabels labels → ∀ value,
      (∃ body, renderSeries name labels value = body ++ ['\n'] ∧ '\n' ∉ body ∧
        '\r' ∉ renderSeries name labels value) ∧
      scanLine (renderSeries name labels value) = some ((name, labels, value), [])) ∧
    (∀ labels labels', PlainLabels labels → PlainLabels labels' → labels ≠ labels' →
      ¬ seriesText name labels <+: seriesText name labels' ∧
        ∀ value value', ¬ renderSeries name labels value <+: renderSeries name labels' value') ∧
    ∀ (V : Type) (shown : V → ℤ) (m : LabeledMetric V) (kind help what overflowKind : String),
      (∀ labels ∈ m.series, PlainLabels labels) →
      ∃ before after : List Char,
        m.render shown name kind help what overflowKind =
          before ++ renderAll name (m.shownSeries shown) ++ after ∧
        scanLines (m.shownSeries shown).length (renderAll name (m.shownSeries shown) ++ after) =
          some ((m.shownSeries shown).map fun e => (name, e.1, e.2), after) := by
  refine ⟨?_, ?_, ?_⟩
  · intro labels hplain value
    have hscan := scanLine_renderSeries hname hplain value []
    rw [List.append_nil] at hscan
    exact ⟨renderSeries_line hname hplain value, hscan⟩
  · intro labels labels' h h' hne
    refine ⟨fun hp => hne (labels_eq_of_seriesText hname h h' hp), ?_⟩
    rintro value value' ⟨more, hmore⟩
    have hscan := scanLine_renderSeries hname h value more
    have hscan' := scanLine_renderSeries hname h' value' []
    rw [List.append_nil, ← hmore, hscan] at hscan'
    exact hne (by simpa using congrArg (Option.map fun x => x.1.2.1) hscan')
  · intro V shown m kind help what overflowKind hplain
    have hseries : ∀ e ∈ m.shownSeries shown, PlainLabels e.1 := by
      intro e he
      obtain ⟨entry, hentry, rfl⟩ := List.mem_map.mp he
      exact hplain entry.1 (List.mem_map_of_mem hentry)
    rw [LabeledMetric.render]
    generalize LabeledMetric.renderHead name kind help = head
    generalize LabeledMetric.renderOverflow name what overflowKind (shown m.overflow) = after
    split_ifs with hempty
    · refine ⟨head ++ s!"{name} 0\n".toList, after, ?_, scanLines_renderAll hname hseries after⟩
      rw [hempty.1, renderAll, List.flatMap_nil, List.append_nil]
    · exact ⟨head, after, rfl, scanLines_renderAll hname hseries after⟩

/-- A producer id with quote, comma, brace, backslash and both line breaks. -/
def hostileLabels : Labels := [("producer_id", "a\",b=\"\x7d 1\n\r\\")]

theorem exposition_invertible_hostile :
    PlainLabels hostileLabels ∧
      scanLine (renderSeries "otk_sequence_gaps_total" hostileLabels 2) =
        some (("otk_sequence_gaps_total", hostileLabels, 2), []) := by
  have hname : PlainName "otk_sequence_gaps_total" := List.all_iff_forall_prop.mp (by decide)
  have hlabels : PlainLabels hostileLabels := by
    intro label hlabel
    obtain rfl := List.mem_singleton.mp hlabel
    exact List.all_iff_forall_prop.mp (by decide)
  exact ⟨hlabels, ((exposition_invertible _ hname).1 hostileLabels hlabels 2).2⟩

end OtkCore
