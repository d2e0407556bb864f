import Jevt.Diagnostics.Prometheus
import Jevt.Library.Keyed

/-!
# What a scrape finds

A reader of the export of a registry finds the counters of every stored decision once, under its own
name, and no other decision (`toPrometheus_exports`). The buckets of the histogram are the sums of
the buckets up to each bound, so that they do not decrease and end at the number of calls.
-/

namespace Jevt

open Library Library.Exposition

/-- The counter of an outcome. -/
def Counters.count (counters : Counters) : CallOutcome → Nat
  | .success => counters.successes
  | .error => counters.errors
  | .abstain => counters.abstains

/-- The name of the decision a sample belongs to. -/
def decisionOf (s : Sample) : Option Bytes :=
  s.label (lit "decision")

/-- What the samples of an export say of a registry. -/
structure Exports (d : Diagnostics) (samples : List Sample) : Prop where
  calls : ∀ entry ∈ d.decisions,
    (samples.filter fun s => s.metric = lit "jevt_decision_calls_total" ∧
      decisionOf s = some entry.1) = [callsSample entry.1 entry.2.calls]
  outcomes : ∀ entry ∈ d.decisions, ∀ outcome : CallOutcome,
    (samples.filter fun s => s.metric = lit "jevt_decision_outcomes_total" ∧
      decisionOf s = some entry.1 ∧ s.label (lit "outcome") = some outcome.toString) =
        [outcomeSample entry.1 outcome (entry.2.count outcome)]
  series : ((samples.filter fun s => (decisionOf s).isSome).map Sample.series).Nodup
  decisions : ∀ s ∈ samples, ∀ name, decisionOf s = some name → name ∈ d.decisions.map Prod.fst
  buckets : (samples.filter fun s => s.metric = lit "jevt_latency_milliseconds_histogram_bucket") =
    (List.range (d.options.histogramBoundsMs.length + 1)).map fun i =>
      bucketSample (boundText d.options.histogramBoundsMs i) (d.total.buckets.take (i + 1)).sum
  mono : ∀ i j, i ≤ j → (d.total.buckets.take i).sum ≤ (d.total.buckets.take j).sum
  total : (d.total.buckets.take (d.options.histogramBoundsMs.length + 1)).sum = d.total.calls

/-! ## Whose sample it is -/

/-- The names of the metrics of decisions and buckets differ. -/
theorem metrics_ne :
    lit "jevt_decision_outcomes_total" ≠ lit "jevt_decision_calls_total" ∧
    lit "jevt_decision_latency_milliseconds" ≠ lit "jevt_decision_calls_total" ∧
    lit "jevt_decision_latency_milliseconds" ≠ lit "jevt_decision_outcomes_total" ∧
    lit "jevt_decision_calls_total" ≠ lit "jevt_latency_milliseconds_histogram_bucket" ∧
    lit "jevt_decision_outcomes_total" ≠ lit "jevt_latency_milliseconds_histogram_bucket" ∧
    lit "jevt_decision_latency_milliseconds" ≠
      lit "jevt_latency_milliseconds_histogram_bucket" := by
  repeat rw [lit_ofList]
  decide

/-- A sample that is neither of a decision nor of a bucket. -/
def IsGeneral (s : Sample) : Prop :=
  decisionOf s = none ∧ s.metric ≠ lit "jevt_latency_milliseconds_histogram_bucket"

/-- The samples before the buckets are general. -/
theorem general_totalLines (total : CounterSnapshot) :
    ∀ s ∈ (totalLines total).filterMap Line.sample?, IsGeneral s := by
  simp only [totalLines, List.filterMap_cons, Line.sample?, List.filterMap_nil]
  iterate 9
    refine List.forall_mem_cons.2 ⟨⟨?_, ?_⟩, ?_⟩
    · rfl
    · dsimp only
      repeat rw [lit_ofList]
      decide
  exact List.forall_mem_nil _

/-- The samples of the sum and the number of the latencies are general. -/
theorem general_sumSamples (arith : Arithmetic) (total : CounterSnapshot) :
    ∀ s ∈ sumSamples arith total, IsGeneral s := by
  simp only [sumSamples, List.forall_mem_cons]
  refine ⟨⟨rfl, ?_⟩, ⟨rfl, ?_⟩, List.forall_mem_nil _⟩
  all_goals
    dsimp only
    repeat rw [lit_ofList]
    decide

/-- The sample of the dropped calls is general. -/
theorem general_droppedSample (dropped : Nat) : IsGeneral (droppedSample dropped) := by
  refine ⟨rfl, ?_⟩
  rw [droppedSample]
  dsimp only
  repeat rw [lit_ofList]
  decide

/-- The samples of the buckets, bucket by bucket. -/
theorem bucketSamples_eq_map (boundsMs : List Floating) (i cumulative : Nat) (counts : List Nat) :
    bucketSamples boundsMs i cumulative counts = (List.range counts.length).map fun j =>
      bucketSample (boundText boundsMs (i + j)) (cumulative + (counts.take (j + 1)).sum) := by
  induction counts generalizing i cumulative with
  | nil => rfl
  | cons count rest ih =>
    rw [bucketSamples, ih, List.length_cons, List.range_succ_eq_map, List.map_cons, List.map_map]
    simp [Function.comp_def, Nat.add_assoc, Nat.add_comm 1]

/-- The samples of a decision belong to it, and none is of a bucket. -/
theorem decisionOf_decisionSamples (d : DecisionSnapshot) : ∀ s ∈ decisionSamples d,
    decisionOf s = some d.decision ∧
      s.metric ≠ lit "jevt_latency_milliseconds_histogram_bucket" := by
  have hself : ∀ more : List (Bytes × Bytes), ∀ metric value,
      decisionOf ⟨metric, (lit "decision", d.decision) :: more, value⟩ = some d.decision := by
    intro more metric value
    simp [decisionOf, Sample.label]
  obtain ⟨-, -, -, hcalls, houtcomes, hlatency⟩ := metrics_ne
  simp only [decisionSamples, List.forall_mem_cons]
  exact ⟨⟨hself _ _ _, hcalls⟩, ⟨hself _ _ _, houtcomes⟩, ⟨hself _ _ _, houtcomes⟩,
    ⟨hself _ _ _, houtcomes⟩, ⟨hself _ _ _, hlatency⟩, List.forall_mem_nil _⟩

/-- The samples of the buckets belong to no decision. -/
theorem decisionOf_bucketSamples {boundsMs : List Floating} {i cumulative : Nat}
    {counts : List Nat} :
    ∀ s ∈ bucketSamples boundsMs i cumulative counts, decisionOf s = none ∧
      s.metric = lit "jevt_latency_milliseconds_histogram_bucket" := by
  rw [bucketSamples_eq_map]
  intro s hs
  obtain ⟨j, -, rfl⟩ := List.mem_map.1 hs
  exact ⟨rfl, rfl⟩

/-! ## The samples of an export -/

section
variable {arith : Arithmetic} {snap : DiagnosticsSnapshot} {p : Sample → Bool}

/-- What no general sample has is found among the samples of the buckets and of the decisions. -/
theorem filter_exportSamples (hp : ∀ s, IsGeneral s → ¬p s = true) :
    (exportSamples arith snap).filter p =
      (bucketSamples snap.total.latencyHistogram.boundsMs 0 0
        snap.total.latencyHistogram.counts).filter p ++
      (snap.decisions.flatMap decisionSamples).filter p := by
  have hnone : ∀ samples : List Sample, (∀ s ∈ samples, IsGeneral s) → samples.filter p = [] :=
    fun samples hgeneral => List.filter_eq_nil_iff.2 fun s hs => hp s (hgeneral s hs)
  simp only [exportSamples, List.filter_append, hnone _ (general_totalLines snap.total),
    hnone _ (general_sumSamples arith snap.total), hnone [droppedSample snap.droppedDecisions]
      (List.forall_mem_singleton.2 (general_droppedSample _)), List.nil_append, List.append_nil]

/-- What only samples of decisions have is found among them. -/
theorem filter_of_decisionOf (hp : ∀ s, p s = true → (decisionOf s).isSome = true) :
    (exportSamples arith snap).filter p = (snap.decisions.flatMap decisionSamples).filter p := by
  have hnone : ∀ s, decisionOf s = none → ¬p s = true := by
    intro s hs hps
    have hsome := hp s hps
    rw [hs] at hsome
    cases hsome
  rw [filter_exportSamples fun s hs => hnone s hs.1, List.filter_eq_nil_iff.2 fun s hs =>
    hnone s (decisionOf_bucketSamples s hs).1, List.nil_append]

/-- What only samples of one decision have is found among its samples. -/
theorem filter_of_decision (hnodup : (snap.decisions.map DecisionSnapshot.decision).Nodup)
    {d : DecisionSnapshot} (hd : d ∈ snap.decisions)
    (hp : ∀ s, p s = true → decisionOf s = some d.decision) :
    (exportSamples arith snap).filter p = (decisionSamples d).filter p := by
  rw [filter_of_decisionOf fun s hs => by rw [hp s hs]; rfl]
  refine filter_flatMap_key hnodup hd fun x _ hne => List.filter_eq_nil_iff.2 fun s hs hps => hne ?_
  have hself := (decisionOf_decisionSamples x s hs).1
  rw [hp s hps] at hself
  exact (Option.some.inj hself).symm

/-- The calls of a decision are found once. -/
theorem filter_calls (hnodup : (snap.decisions.map DecisionSnapshot.decision).Nodup)
    {d : DecisionSnapshot} (hd : d ∈ snap.decisions) :
    ((exportSamples arith snap).filter fun s => s.metric = lit "jevt_decision_calls_total" ∧
      decisionOf s = some d.decision) = [callsSample d.decision d.stats.calls] := by
  rw [filter_of_decision hnodup hd fun s hs => (of_decide_eq_true hs).2]
  obtain ⟨houtcomes, hlatency, -⟩ := metrics_ne
  simp [decisionSamples, callsSample, outcomeSample, latencySample, houtcomes, hlatency,
    decisionOf, Sample.label]

/-- The calls of a decision with an outcome are found once. -/
theorem filter_outcomes (hnodup : (snap.decisions.map DecisionSnapshot.decision).Nodup)
    {d : DecisionSnapshot} (hd : d ∈ snap.decisions) (outcome : CallOutcome) :
    ((exportSamples arith snap).filter fun s => s.metric = lit "jevt_decision_outcomes_total" ∧
      decisionOf s = some d.decision ∧ s.label (lit "outcome") = some outcome.toString) =
        [outcomeSample d.decision outcome (d.stats.count outcome)] := by
  rw [filter_of_decision hnodup hd fun s hs => (of_decide_eq_true hs).2.1]
  obtain ⟨hcalls, -, hlatency, -⟩ := metrics_ne
  have hlabels : lit "decision" ≠ lit "outcome" := by decide
  have houtcomes : lit "success" ≠ lit "error" ∧ lit "success" ≠ lit "abstain" ∧
      lit "error" ≠ lit "abstain" := by decide
  obtain ⟨hsuccess, habstain, herror⟩ := houtcomes
  cases outcome
  all_goals
    simp [decisionSamples, callsSample, outcomeSample, latencySample, hcalls.symm, hlatency,
      decisionOf, Sample.label, hlabels, CallOutcome.toString, CounterSnapshot.count, hsuccess,
      habstain, herror, hsuccess.symm, habstain.symm, herror.symm]

/-- The series of the samples of decisions are distinct. -/
theorem nodup_series (hnodup : (snap.decisions.map DecisionSnapshot.decision).Nodup) :
    (((exportSamples arith snap).filter fun s => (decisionOf s).isSome).map
      Sample.series).Nodup := by
  have hall : (snap.decisions.flatMap decisionSamples).filter (fun s => (decisionOf s).isSome) =
      snap.decisions.flatMap decisionSamples := by
    refine List.filter_eq_self.2 fun s hs => ?_
    obtain ⟨d, -, hs⟩ := List.mem_flatMap.1 hs
    rw [(decisionOf_decisionSamples d s hs).1]
    rfl
  rw [filter_of_decisionOf fun s hs => hs, hall, List.map_flatMap, List.nodup_flatMap]
  constructor
  · intro d _
    obtain ⟨houtcomes, hlatency, hlatency', -⟩ := metrics_ne
    have htexts : lit "success" ≠ lit "error" ∧ lit "success" ≠ lit "abstain" ∧
        lit "error" ≠ lit "abstain" := by decide
    simp [decisionSamples, callsSample, outcomeSample, latencySample, Sample.series,
      houtcomes.symm, hlatency.symm, hlatency'.symm, CallOutcome.toString, htexts]
  · refine (List.pairwise_map.1 hnodup).imp fun {d d'} hne => ?_
    intro series hseries hseries'
    obtain ⟨s, hs, rfl⟩ := List.mem_map.1 hseries
    obtain ⟨s', hs', heq⟩ := List.mem_map.1 hseries'
    have hlabels : s'.labels = s.labels := congrArg Prod.snd heq
    have hsame : decisionOf s' = decisionOf s := by rw [decisionOf, decisionOf, Sample.label,
      Sample.label, hlabels]
    rw [(decisionOf_decisionSamples d' s' hs').1, (decisionOf_decisionSamples d s hs).1] at hsame
    exact hne (Option.some.inj hsame).symm

/-- A decision that is found is stored. -/
theorem mem_of_decisionOf {s : Sample} (hs : s ∈ exportSamples arith snap) {name : Bytes}
    (hname : decisionOf s = some name) : name ∈ snap.decisions.map DecisionSnapshot.decision := by
  have hfound : s ∈ (exportSamples arith snap).filter fun s => (decisionOf s).isSome :=
    List.mem_filter.2 ⟨hs, by rw [hname]; rfl⟩
  rw [filter_of_decisionOf fun s hs => hs] at hfound
  obtain ⟨d, hd, hs⟩ := List.mem_flatMap.1 (List.mem_filter.1 hfound).1
  rw [(decisionOf_decisionSamples d s hs).1] at hname
  exact List.mem_map.2 ⟨d, hd, Option.some.inj hname⟩

/-- The samples of the buckets are found in their order. -/
theorem filter_buckets : ((exportSamples arith snap).filter fun s =>
      s.metric = lit "jevt_latency_milliseconds_histogram_bucket") =
    bucketSamples snap.total.latencyHistogram.boundsMs 0 0 snap.total.latencyHistogram.counts := by
  have hdecisions : ∀ s ∈ snap.decisions.flatMap decisionSamples,
      ¬decide (s.metric = lit "jevt_latency_milliseconds_histogram_bucket") = true := by
    intro s hs
    obtain ⟨d, -, hs⟩ := List.mem_flatMap.1 hs
    exact fun hps => (decisionOf_decisionSamples d s hs).2 (of_decide_eq_true hps)
  rw [filter_exportSamples fun s hs hps => hs.2 (of_decide_eq_true hps),
    List.filter_eq_nil_iff.2 hdecisions, List.append_nil]
  exact List.filter_eq_self.2 fun s hs => decide_eq_true (decisionOf_bucketSamples s hs).2

end

/-- The sums of longer and longer parts of a list do not decrease. -/
theorem sum_take_mono (counts : List Nat) {i j : Nat} (h : i ≤ j) :
    (counts.take i).sum ≤ (counts.take j).sum := by
  obtain ⟨k, rfl⟩ := Nat.exists_eq_add_of_le h
  rw [List.take_add, List.sum_append]
  exact Nat.le_add_right _ _

/-- **A scrape finds what a registry holds.** For all accepted options, in every arithmetic, after
all operations and at every time: the text of the export is read back as samples, and these have,
for each stored decision, one sample of its calls and one of its calls with each outcome, and none
of another decision; the series of the samples of decisions are distinct; and the samples of the
buckets are the sums of the buckets up to each bound, which do not decrease and end at the number of
calls. -/
theorem Diagnostics.toPrometheus_exports (arith : Arithmetic) {options : DiagnosticsOptions}
    {d : Diagnostics} (h : create options = .ok d) (ops : List DiagnosticsOp) (now : Int) :
    ∃ samples, parse ((ops.foldl (Diagnostics.apply arith) d).toPrometheus arith now) =
      some samples ∧ Exports (ops.foldl (Diagnostics.apply arith) d) samples := by
  obtain ⟨-, hempty⟩ : ValidBounds options.histogramBoundsMs ∧ Tracks arith options [] d :=
    create_eq_ok h
  have htracks := hempty.foldl ops
  set d' := ops.foldl (Diagnostics.apply arith) d
  have hnames : (d'.snapshot arith now).decisions.map DecisionSnapshot.decision =
      d'.decisions.map Prod.fst := List.map_map
  have hnodup : ((d'.snapshot arith now).decisions.map DecisionSnapshot.decision).Nodup := by
    rw [hnames]
    exact htracks.table.sorted.imp fun hlt heq => absurd (heq ▸ hlt) (List.lt_irrefl _)
  have hentry : ∀ entry ∈ d'.decisions,
      (DecisionSnapshot.mk entry.1 (makeSnapshot arith entry.2 d'.options.histogramBoundsMs)) ∈
        (d'.snapshot arith now).decisions := fun entry hmem => List.mem_map.2 ⟨entry, hmem, rfl⟩
  have hlength : d'.total.buckets.length = d'.options.histogramBoundsMs.length + 1 := by
    rw [htracks.total_eq, htracks.options_eq, countersOf_buckets_length]
  refine ⟨_, parse_toPrometheus arith _, ⟨fun entry hmem => filter_calls hnodup (hentry entry hmem),
    fun entry hmem outcome => ?_, nodup_series hnodup, fun s hs name hname => ?_, ?_,
    fun i j hij => sum_take_mono _ hij, ?_⟩⟩
  · rw [filter_outcomes hnodup (hentry entry hmem) outcome]
    cases outcome <;> rfl
  · rw [← hnames]
    exact mem_of_decisionOf hs hname
  · rw [filter_buckets, bucketSamples_eq_map]
    change (List.range d'.total.buckets.length).map _ = _
    simp only [hlength, Nat.zero_add]
    rfl
  · rw [← hlength, List.take_length, htracks.total_eq, countersOf_buckets_sum]
    exact (countersOf_counts arith options.histogramBoundsMs _).1.symm

/-- A registry with a decision whose name has all that is escaped. -/
def quotedOps : List DiagnosticsOp :=
  [.recordCall ⟨lit "a\"\\\n", .success, 2000000, none, {}, 1⟩]

/-- The exported text has one series for this decision, under the name it was recorded with. -/
theorem Diagnostics.toPrometheus_exports_quoted :
    ∃ samples, parse ((quotedOps.foldl (Diagnostics.apply .exact)
      { options := narrowOptions, total := .empty [.finite 1, .finite 5] }).toPrometheus .exact 9) =
        some samples ∧
      (samples.filter fun s => s.metric = lit "jevt_decision_calls_total" ∧
        decisionOf s = some (lit "a\"\\\n")) = [callsSample (lit "a\"\\\n") 1] := by
  have hcreate : create narrowOptions =
      .ok { options := narrowOptions, total := .empty [.finite 1, .finite 5] } := by decide
  obtain ⟨samples, hparse, hexports⟩ := toPrometheus_exports .exact hcreate quotedOps 9
  exact ⟨samples, hparse, hexports.calls (lit "a\"\\\n", _) (.head _)⟩

end Jevt
