import Jevt.Diagnostics.Export
import Jevt.Library.Exposition

/-!
# The Prometheus export

`to_prometheus` of `src/diagnostics.cpp` in the classic locale, a text put together line by line
(`DiagnosticsSnapshot.toPrometheus`), and the lines it is meant to be (`exportLines`). The escapes
of `prometheus_escape` are escapes of the text format, so that a reader of the format finds the
samples of these lines, whatever bytes the names of the decisions are made of.
-/

namespace Jevt

open Library Library.Exposition

/-! ## The text -/

/-- The turn of the loop of `prometheus_escape` for one byte. -/
def prometheusEscapeByte (c : UInt8) : Bytes :=
  (if c = 0x5c ∨ c = 0x22 then [0x5c] else []) ++ if c = 0x0a then lit "\\n" else [c]

/-- `prometheus_escape`. -/
def prometheusEscape (value : Bytes) : Bytes :=
  value.flatMap prometheusEscapeByte

/-- The loop over the buckets, from number `i` on. -/
def bucketsText (boundsMs : List Floating) : Nat → Nat → List Nat → Bytes
  | _, _, [] => []
  | i, cumulative, count :: rest =>
    lit "jevt_latency_milliseconds_histogram_bucket\x7ble=\"" ++
      (match boundsMs[i]? with
        | some bound => doubleText bound
        | none => lit "+Inf") ++
      lit "\"\x7d " ++ decimal (cumulative + count) ++ lit "\n" ++
      bucketsText boundsMs (i + 1) (cumulative + count) rest

/-- The turn of the loop over the decisions. -/
def decisionText (d : DecisionSnapshot) : Bytes :=
  let name := prometheusEscape d.decision
  lit "jevt_decision_calls_total\x7bdecision=\"" ++ name ++ lit "\"\x7d " ++
    decimal d.stats.calls ++ lit "\n" ++
    (lit "jevt_decision_outcomes_total\x7bdecision=\"" ++ name ++
    lit "\",outcome=\"success\"\x7d " ++ decimal d.stats.successes ++ lit "\n") ++
    (lit "jevt_decision_outcomes_total\x7bdecision=\"" ++ name ++
    lit "\",outcome=\"error\"\x7d " ++ decimal d.stats.errors ++ lit "\n") ++
    (lit "jevt_decision_outcomes_total\x7bdecision=\"" ++ name ++
    lit "\",outcome=\"abstain\"\x7d " ++ decimal d.stats.abstains ++ lit "\n") ++
    (lit "jevt_decision_latency_milliseconds\x7bdecision=\"" ++ name ++
    lit "\",quantile=\"0.95\"\x7d " ++ doubleText d.stats.latencyP95Ms ++ lit "\n")

/-- The lines before the loop over the buckets. -/
def totalText (total : CounterSnapshot) : Bytes :=
  [lit "# HELP jevt_calls_total Total evaluated calls.\n",
    lit "# TYPE jevt_calls_total counter\n",
    lit "jevt_calls_total " ++ decimal total.calls ++ lit "\n",
    lit "# HELP jevt_input_tokens_total Observed input usage across evaluations, " ++
      lit "not provider billing totals.\n",
    lit "# TYPE jevt_input_tokens_total counter\n",
    lit "jevt_input_tokens_total " ++ decimal total.inputTokens.toNat ++ lit "\n",
    lit "# HELP jevt_output_tokens_total Observed output usage across evaluations, " ++
      lit "not provider billing totals.\n",
    lit "# TYPE jevt_output_tokens_total counter\n",
    lit "jevt_output_tokens_total " ++ decimal total.outputTokens.toNat ++ lit "\n",
    lit "# HELP jevt_outcomes_total Evaluated calls by outcome.\n",
    lit "# TYPE jevt_outcomes_total counter\n",
    lit "jevt_outcomes_total\x7boutcome=\"success\"\x7d " ++ decimal total.successes ++ lit "\n",
    lit "jevt_outcomes_total\x7boutcome=\"error\"\x7d " ++ decimal total.errors ++ lit "\n",
    lit "jevt_outcomes_total\x7boutcome=\"abstain\"\x7d " ++ decimal total.abstains ++ lit "\n",
    lit "# HELP jevt_latency_milliseconds Approximate latency quantiles.\n",
    lit "# TYPE jevt_latency_milliseconds gauge\n",
    lit "jevt_latency_milliseconds\x7bquantile=\"0.5\"\x7d " ++ doubleText total.latencyP50Ms ++
      lit "\n",
    lit "jevt_latency_milliseconds\x7bquantile=\"0.95\"\x7d " ++ doubleText total.latencyP95Ms ++
      lit "\n",
    lit "jevt_latency_milliseconds\x7bquantile=\"0.99\"\x7d " ++ doubleText total.latencyP99Ms ++
      lit "\n",
    lit "# HELP jevt_latency_milliseconds_histogram Call latency distribution.\n",
    lit "# TYPE jevt_latency_milliseconds_histogram histogram\n"].flatten

/-- `to_prometheus`, of a snapshot. -/
def DiagnosticsSnapshot.toPrometheus (arith : Arithmetic) (snap : DiagnosticsSnapshot) : Bytes :=
  totalText snap.total ++
    bucketsText snap.total.latencyHistogram.boundsMs 0 0 snap.total.latencyHistogram.counts ++
    (lit "jevt_latency_milliseconds_histogram_sum " ++
      doubleText (.mul arith.double snap.total.latencyMeanMs (arith.double snap.total.calls)) ++
      lit "\n" ++
      lit "jevt_latency_milliseconds_histogram_count " ++ decimal snap.total.calls ++ lit "\n") ++
    snap.decisions.flatMap decisionText ++
    (lit "jevt_dropped_decisions_total " ++ decimal snap.droppedDecisions ++ lit "\n")

/-- `to_prometheus`. -/
def Diagnostics.toPrometheus (arith : Arithmetic) (now : Int) (d : Diagnostics) : Bytes :=
  (d.snapshot arith now).toPrometheus arith

/-! ## The lines -/

/-- The counter of an outcome. -/
def CounterSnapshot.count (stats : CounterSnapshot) : CallOutcome → Nat
  | .success => stats.successes
  | .error => stats.errors
  | .abstain => stats.abstains

/-- The lines before the buckets. -/
def totalLines (total : CounterSnapshot) : List Line :=
  let outcome (o : CallOutcome) : Line :=
    .sample ⟨lit "jevt_outcomes_total", [(lit "outcome", o.toString)], decimal (total.count o)⟩
  let latency (quantile : Bytes) (value : Floating) : Line :=
    .sample ⟨lit "jevt_latency_milliseconds", [(lit "quantile", quantile)], doubleText value⟩
  [.comment (lit " HELP jevt_calls_total Total evaluated calls."),
    .comment (lit " TYPE jevt_calls_total counter"),
    .sample ⟨lit "jevt_calls_total", [], decimal total.calls⟩,
    .comment (lit " HELP jevt_input_tokens_total Observed input usage across evaluations, " ++
      lit "not provider billing totals."),
    .comment (lit " TYPE jevt_input_tokens_total counter"),
    .sample ⟨lit "jevt_input_tokens_total", [], decimal total.inputTokens.toNat⟩,
    .comment (lit " HELP jevt_output_tokens_total Observed output usage across evaluations, " ++
      lit "not provider billing totals."),
    .comment (lit " TYPE jevt_output_tokens_total counter"),
    .sample ⟨lit "jevt_output_tokens_total", [], decimal total.outputTokens.toNat⟩,
    .comment (lit " HELP jevt_outcomes_total Evaluated calls by outcome."),
    .comment (lit " TYPE jevt_outcomes_total counter"),
    outcome .success, outcome .error, outcome .abstain,
    .comment (lit " HELP jevt_latency_milliseconds Approximate latency quantiles."),
    .comment (lit " TYPE jevt_latency_milliseconds gauge"),
    latency (lit "0.5") total.latencyP50Ms, latency (lit "0.95") total.latencyP95Ms,
    latency (lit "0.99") total.latencyP99Ms,
    .comment (lit " HELP jevt_latency_milliseconds_histogram Call latency distribution."),
    .comment (lit " TYPE jevt_latency_milliseconds_histogram histogram")]

/-- The bound of a bucket. -/
def boundText (boundsMs : List Floating) (i : Nat) : Bytes :=
  (boundsMs[i]?.map doubleText).getD (lit "+Inf")

/-- The sample of a bucket. -/
def bucketSample (bound : Bytes) (cumulative : Nat) : Sample :=
  ⟨lit "jevt_latency_milliseconds_histogram_bucket", [(lit "le", bound)], decimal cumulative⟩

/-- The samples of the buckets, from number `i` on. -/
def bucketSamples (boundsMs : List Floating) : Nat → Nat → List Nat → List Sample
  | _, _, [] => []
  | i, cumulative, count :: rest =>
    bucketSample (boundText boundsMs i) (cumulative + count) ::
      bucketSamples boundsMs (i + 1) (cumulative + count) rest

/-- The number of calls of a decision. -/
def callsSample (name : Bytes) (calls : Nat) : Sample :=
  ⟨lit "jevt_decision_calls_total", [(lit "decision", name)], decimal calls⟩

/-- The number of calls of a decision with an outcome. -/
def outcomeSample (name : Bytes) (outcome : CallOutcome) (calls : Nat) : Sample :=
  ⟨lit "jevt_decision_outcomes_total",
    [(lit "decision", name), (lit "outcome", outcome.toString)], decimal calls⟩

/-- A latency of a decision. -/
def latencySample (name : Bytes) (latency : Floating) : Sample :=
  ⟨lit "jevt_decision_latency_milliseconds",
    [(lit "decision", name), (lit "quantile", lit "0.95")], doubleText latency⟩

/-- The samples of a decision. -/
def decisionSamples (d : DecisionSnapshot) : List Sample :=
  [callsSample d.decision d.stats.calls,
    outcomeSample d.decision .success d.stats.successes,
    outcomeSample d.decision .error d.stats.errors,
    outcomeSample d.decision .abstain d.stats.abstains,
    latencySample d.decision d.stats.latencyP95Ms]

/-- The samples of the sum and the number of the latencies. -/
def sumSamples (arith : Arithmetic) (total : CounterSnapshot) : List Sample :=
  [⟨lit "jevt_latency_milliseconds_histogram_sum", [],
      doubleText (.mul arith.double total.latencyMeanMs (arith.double total.calls))⟩,
    ⟨lit "jevt_latency_milliseconds_histogram_count", [], decimal total.calls⟩]

/-- The sample of the dropped calls. -/
def droppedSample (dropped : Nat) : Sample :=
  ⟨lit "jevt_dropped_decisions_total", [], decimal dropped⟩

/-- The lines of an export. -/
def exportLines (arith : Arithmetic) (snap : DiagnosticsSnapshot) : List Line :=
  totalLines snap.total ++
    (bucketSamples snap.total.latencyHistogram.boundsMs 0 0 snap.total.latencyHistogram.counts ++
      sumSamples arith snap.total ++ snap.decisions.flatMap decisionSamples ++
      [droppedSample snap.droppedDecisions]).map .sample

/-! ## The text is the lines, written -/

/-- The lines before the buckets. -/
theorem totalText_eq_render (total : CounterSnapshot) :
    totalText total = render prometheusEscapeByte (totalLines total) := by
  rw [totalText, render, List.flatMap_def]
  refine congrArg List.flatten ?_
  simp only [totalLines, List.map_cons, List.map_nil, CallOutcome.toString]
  iterate 21
    refine congrArg₂ List.cons ?_ ?_
    · repeat rw [lit_ofList]
      rfl
  rfl

/-- A number in a stream is a value. -/
theorem isValue_doubleText (v : Floating) : isValue (doubleText v) = true := by
  cases v with
  | finite q =>
    rw [isValue, doubleText, isNumber_generalText (by decide)]
    rfl
  | infinite negative => cases negative <;> decide
  | nan => decide

/-- A decimal number is a value. -/
theorem isValue_decimal (n : Nat) : isValue (decimal n) = true := by
  have hnumber := (numberParts_decimal n).isNumber
  rw [List.append_nil] at hnumber
  rw [isValue, hnumber, Bool.true_or]

/-- Values have nothing to escape. -/
theorem flatMap_of_isValue {value : Bytes} (h : isValue value = true) :
    value.flatMap prometheusEscapeByte = value := by
  obtain ⟨-, hbytes⟩ := isValue_bytes h
  have hself : ∀ b ∈ value, prometheusEscapeByte b = [b] := by
    intro b hb
    obtain ⟨hspace, -, hquote, hslash⟩ := hbytes b hb
    have hfeed : b ≠ 0x0a := by
      rintro rfl
      cases hspace
    rw [prometheusEscapeByte, if_neg (not_or.2 ⟨hslash, hquote⟩), if_neg hfeed, List.nil_append]
  rw [List.flatMap_congr hself, List.flatMap_singleton']

/-- A bound of the histogram is a value. -/
theorem isValue_boundText (boundsMs : List Floating) (i : Nat) :
    isValue (boundText boundsMs i) = true := by
  rw [boundText]
  cases boundsMs[i]? with
  | some bound => exact isValue_doubleText bound
  | none => decide

/-- The lines of the buckets. -/
theorem bucketsText_eq_render (boundsMs : List Floating) (i cumulative : Nat) (counts : List Nat) :
    bucketsText boundsMs i cumulative counts = render prometheusEscapeByte
      ((bucketSamples boundsMs i cumulative counts).map .sample) := by
  induction counts generalizing i cumulative with
  | nil => rfl
  | cons count rest ih =>
    have hbound : (match boundsMs[i]? with
        | some bound => doubleText bound
        | none => lit "+Inf") = (boundText boundsMs i).flatMap prometheusEscapeByte := by
      rw [flatMap_of_isValue (isValue_boundText boundsMs i), boundText]
      cases boundsMs[i]? <;> rfl
    rw [bucketsText, hbound, ih, bucketSamples, List.map_cons, render_cons, bucketSample, text_one]
    simp only [List.append_assoc, List.cons_append]
    repeat rw [lit_ofList]
    rfl

/-- The line of the calls of a decision. -/
theorem callsSample_line (name : Bytes) (calls : Nat) :
    lit "jevt_decision_calls_total\x7bdecision=\"" ++ prometheusEscape name ++ lit "\"\x7d " ++
      decimal calls ++ lit "\n" =
    (Line.sample (callsSample name calls)).text prometheusEscapeByte ++ [0x0a] := by
  rw [callsSample, text_one, prometheusEscape]
  simp only [List.append_assoc]
  repeat rw [lit_ofList]
  rfl

/-- The line of the calls of a decision with an outcome. -/
theorem outcomeSample_line (name : Bytes) (outcome : CallOutcome) (calls : Nat) :
    lit "jevt_decision_outcomes_total\x7bdecision=\"" ++ prometheusEscape name ++
      (match outcome with
        | .success => lit "\",outcome=\"success\"\x7d "
        | .error => lit "\",outcome=\"error\"\x7d "
        | .abstain => lit "\",outcome=\"abstain\"\x7d ") ++ decimal calls ++ lit "\n" =
    (Line.sample (outcomeSample name outcome calls)).text prometheusEscapeByte ++ [0x0a] := by
  rw [outcomeSample, text_two, prometheusEscape]
  simp only [List.append_assoc]
  cases outcome
  all_goals
    rw [CallOutcome.toString]
    repeat rw [lit_ofList]
    rfl

/-- The line of a latency of a decision. -/
theorem latencySample_line (name : Bytes) (latency : Floating) :
    lit "jevt_decision_latency_milliseconds\x7bdecision=\"" ++ prometheusEscape name ++
      lit "\",quantile=\"0.95\"\x7d " ++ doubleText latency ++ lit "\n" =
    (Line.sample (latencySample name latency)).text prometheusEscapeByte ++ [0x0a] := by
  rw [latencySample, text_two, prometheusEscape]
  simp only [List.append_assoc]
  repeat rw [lit_ofList]
  rfl

/-- The lines of a decision. -/
theorem decisionText_eq_render (d : DecisionSnapshot) :
    decisionText d = render prometheusEscapeByte ((decisionSamples d).map .sample) := by
  have hsuccess := outcomeSample_line d.decision .success d.stats.successes
  have herror := outcomeSample_line d.decision .error d.stats.errors
  have habstain := outcomeSample_line d.decision .abstain d.stats.abstains
  dsimp only at hsuccess herror habstain
  rw [decisionText, callsSample_line, hsuccess, herror, habstain, latencySample_line]
  simp only [decisionSamples, List.map_cons, List.map_nil, render_cons, List.append_assoc]
  rfl

/-- The lines of the sum and the number of the latencies. -/
theorem sumSamples_eq_render (arith : Arithmetic) (total : CounterSnapshot) :
    lit "jevt_latency_milliseconds_histogram_sum " ++
      doubleText (.mul arith.double total.latencyMeanMs (arith.double total.calls)) ++ lit "\n" ++
      lit "jevt_latency_milliseconds_histogram_count " ++ decimal total.calls ++ lit "\n" =
    render prometheusEscapeByte ((sumSamples arith total).map .sample) := by
  simp only [sumSamples, List.map_cons, List.map_nil, render_cons, text_zero, List.append_assoc,
    List.cons_append]
  repeat rw [lit_ofList]
  rfl

/-- The line of the dropped calls. -/
theorem droppedSample_eq_render (dropped : Nat) :
    lit "jevt_dropped_decisions_total " ++ decimal dropped ++ lit "\n" =
      render prometheusEscapeByte ([droppedSample dropped].map .sample) := by
  simp only [droppedSample, List.map_cons, List.map_nil, render_cons, text_zero, List.append_assoc,
    List.cons_append]
  repeat rw [lit_ofList]
  rfl

/-- **The export is its lines, written.** -/
theorem toPrometheus_eq_render (arith : Arithmetic) (snap : DiagnosticsSnapshot) :
    snap.toPrometheus arith = render prometheusEscapeByte (exportLines arith snap) := by
  have hdecisions : render prometheusEscapeByte
      ((snap.decisions.flatMap decisionSamples).map .sample) =
      snap.decisions.flatMap decisionText := by
    rw [List.map_flatMap, render, List.flatMap_assoc]
    exact List.flatMap_congr fun d _ => (decisionText_eq_render d).symm
  rw [DiagnosticsSnapshot.toPrometheus, totalText_eq_render, bucketsText_eq_render,
    sumSamples_eq_render, droppedSample_eq_render, exportLines, ← hdecisions]
  simp only [List.map_append, render_append, List.append_assoc]

/-! ## The lines are well formed -/

/-- The escapes are escapes of the format. -/
theorem escapes_prometheusEscapeByte (b : UInt8) : Escapes b (prometheusEscapeByte b) := by
  unfold prometheusEscapeByte
  split_ifs with hescape hfeed hfeed
  · subst hfeed
    exact absurd hescape (by decide)
  · refine .escaped ?_
    rw [unescapeByte, if_pos hescape.symm]
  · subst hfeed
    exact .escaped rfl
  · rw [not_or] at hescape
    exact .raw hescape.2 hescape.1 hfeed

/-- A sample whose names are plain to see, with a value. -/
theorem wellFormed_sample {s : Sample}
    (hnames : (isName isMetricByte s.metric &&
      s.labels.all fun label => isName isLabelByte label.1) = true)
    (hvalue : isValue s.value = true) : (Line.sample s).WellFormed := by
  rw [Bool.and_eq_true, List.all_eq_true] at hnames
  exact ⟨hnames.1, hnames.2, hvalue⟩

/-- A comment whose text has no line feed. -/
theorem wellFormed_comment {text : Bytes} (h : text.all (· ≠ 0x0a) = true) :
    (Line.comment text).WellFormed := fun hfeed =>
  of_decide_eq_true (List.all_eq_true.1 h _ hfeed) rfl

/-- The lines before the buckets are well formed. -/
theorem wellFormed_totalLines (total : CounterSnapshot) :
    ∀ line ∈ totalLines total, line.WellFormed := by
  simp only [totalLines]
  iterate 21
    refine List.forall_mem_cons.2 ⟨?_, ?_⟩
    · first
      | refine wellFormed_comment ?_
        repeat rw [lit_ofList]
        rfl
      | refine wellFormed_sample ?_ ?_
        on_goal 2 => first | exact isValue_decimal _ | exact isValue_doubleText _
        dsimp only
        repeat rw [lit_ofList]
        rfl
  exact List.forall_mem_nil _

/-- The samples of the buckets are well formed. -/
theorem wellFormed_bucketSamples (boundsMs : List Floating) (i cumulative : Nat)
    (counts : List Nat) : ∀ s ∈ bucketSamples boundsMs i cumulative counts,
      (Line.sample s).WellFormed := by
  induction counts generalizing i cumulative with
  | nil => exact List.forall_mem_nil _
  | cons count rest ih =>
    refine List.forall_mem_cons.2 ⟨wellFormed_sample ?_ (isValue_decimal _), ih _ _⟩
    rw [bucketSample]
    dsimp only
    repeat rw [lit_ofList]
    rfl

/-- The samples of a decision are well formed. -/
theorem wellFormed_decisionSamples (d : DecisionSnapshot) :
    ∀ s ∈ decisionSamples d, (Line.sample s).WellFormed := by
  have houtcome : ∀ outcome calls,
      (Line.sample (outcomeSample d.decision outcome calls)).WellFormed := by
    intro outcome calls
    refine wellFormed_sample ?_ (isValue_decimal _)
    rw [outcomeSample]
    repeat rw [lit_ofList]
    rfl
  simp only [decisionSamples, List.forall_mem_cons]
  refine ⟨wellFormed_sample ?_ (isValue_decimal _), houtcome _ _, houtcome _ _, houtcome _ _,
    wellFormed_sample ?_ (isValue_doubleText _), List.forall_mem_nil _⟩
  · rw [callsSample]
    repeat rw [lit_ofList]
    rfl
  · rw [latencySample]
    dsimp only
    repeat rw [lit_ofList]
    rfl

/-- The samples of the sum and the number of the latencies are well formed. -/
theorem wellFormed_sumSamples (arith : Arithmetic) (total : CounterSnapshot) :
    ∀ s ∈ sumSamples arith total, (Line.sample s).WellFormed := by
  simp only [sumSamples, List.forall_mem_cons]
  refine ⟨wellFormed_sample ?_ (isValue_doubleText _),
    wellFormed_sample ?_ (isValue_decimal _), List.forall_mem_nil _⟩
  all_goals
    dsimp only
    repeat rw [lit_ofList]
    rfl

/-- The sample of the dropped calls is well formed. -/
theorem wellFormed_droppedSample (dropped : Nat) :
    (Line.sample (droppedSample dropped)).WellFormed := by
  refine wellFormed_sample ?_ (isValue_decimal _)
  rw [droppedSample]
  repeat rw [lit_ofList]
  rfl

/-! ## What a reader finds -/

/-- The samples of an export. -/
def exportSamples (arith : Arithmetic) (snap : DiagnosticsSnapshot) : List Sample :=
  (totalLines snap.total).filterMap Line.sample? ++
    (bucketSamples snap.total.latencyHistogram.boundsMs 0 0 snap.total.latencyHistogram.counts ++
      sumSamples arith snap.total ++ snap.decisions.flatMap decisionSamples ++
      [droppedSample snap.droppedDecisions])

/-- **The samples of an export are read back.** -/
theorem parse_toPrometheus (arith : Arithmetic) (snap : DiagnosticsSnapshot) :
    parse (snap.toPrometheus arith) = some (exportSamples arith snap) := by
  have hlines : ∀ line ∈ exportLines arith snap, line.WellFormed := by
    rw [exportLines, List.forall_mem_append]
    refine ⟨wellFormed_totalLines snap.total, ?_⟩
    simp only [List.forall_mem_map, List.forall_mem_append, List.forall_mem_flatMap]
    exact ⟨⟨⟨wellFormed_bucketSamples _ _ _ _, wellFormed_sumSamples arith snap.total⟩,
      fun d _ => wellFormed_decisionSamples d⟩,
      List.forall_mem_singleton.2 (wellFormed_droppedSample _)⟩
  have hself : ∀ samples : List Sample,
      (samples.map Line.sample).filterMap Line.sample? = samples := by
    intro samples
    rw [List.filterMap_map]
    exact List.filterMap_some
  rw [toPrometheus_eq_render, parse_render escapes_prometheusEscapeByte hlines, exportLines,
    List.filterMap_append, hself, exportSamples]

end Jevt
