import Jevt.Core.Floating
import Jevt.Core.Request

/-!
# The diagnostics registry

`Diagnostics` of `include/jevt/diagnostics.hpp` and `src/diagnostics.cpp`: counters for all calls
and for each decision, a histogram of the latencies, and a bounded list of recent calls. The
registry locks a mutex in every operation, so that its state changes one call at a time. A
`std::map` is a list of pairs sorted by key, and the clock and the arithmetic are arguments.

The counters of calls are natural numbers; the counters of tokens wrap as `std::uint64_t` does.
-/

namespace Jevt

/-- `CallOutcome`. -/
inductive CallOutcome where
  | success
  | error
  | abstain
  deriving DecidableEq, Repr

/-- `DiagnosticsOptions`. -/
structure DiagnosticsOptions where
  recentCapacity : Nat := 256
  maxDecisions : Nat := 1024
  maxTagLength : Nat := 128
  histogramBoundsMs : List Floating
  recentSampleEvery : Nat := 1
  deriving DecidableEq

/-- `HistogramSnapshot`. -/
structure HistogramSnapshot where
  boundsMs : List Floating
  counts : List Nat
  deriving DecidableEq

/-- `CounterSnapshot`. -/
structure CounterSnapshot where
  calls : Nat
  successes : Nat
  errors : Nat
  abstains : Nat
  latencyMeanMs : Floating
  latencyP50Ms : Floating
  latencyP95Ms : Floating
  latencyP99Ms : Floating
  latencyHistogram : HistogramSnapshot
  inputTokens : UInt64
  outputTokens : UInt64
  deriving DecidableEq

/-- `DecisionSnapshot`. -/
structure DecisionSnapshot where
  decision : Bytes
  stats : CounterSnapshot
  deriving DecidableEq

/-- `RecentCall`. -/
structure RecentCall where
  sequence : Nat
  unixTimeMs : Int
  decision : Bytes
  outcome : CallOutcome
  latencyMs : Floating
  tag : Option Bytes
  deriving DecidableEq

/-- `DiagnosticsSnapshot`. -/
structure DiagnosticsSnapshot where
  generatedAtUnixMs : Int
  total : CounterSnapshot
  decisions : List DecisionSnapshot
  recentCalls : List RecentCall
  droppedDecisions : Nat
  deriving DecidableEq

/-- `Counters`. -/
structure Counters where
  calls : Nat := 0
  successes : Nat := 0
  errors : Nat := 0
  abstains : Nat := 0
  latencySumMs : Floating := .zero
  latencyMaxMs : Floating := .zero
  buckets : List Nat
  inputTokens : UInt64 := 0
  outputTokens : UInt64 := 0
  deriving DecidableEq

/-- The members of a `Diagnostics`. -/
structure Diagnostics where
  options : DiagnosticsOptions
  total : Counters
  decisions : List (Bytes × Counters) := []
  recent : List RecentCall := []
  droppedDecisions : Nat := 0
  deriving DecidableEq

/-- The arguments of a `record_call`, and the time it reads. Latencies are nanoseconds. -/
structure RecordedCall where
  decision : Bytes
  outcome : CallOutcome
  latency : Int
  tag : Option Bytes := none
  usage : TokenUsage := {}
  unixTimeMs : Int := 0
  deriving DecidableEq

/-! ## Counters -/

/-- Counters without a call, with one bucket for each bound and one above all bounds. -/
def Counters.empty (boundsMs : List Floating) : Counters :=
  { buckets := List.replicate (boundsMs.length + 1) 0 }

/-- `std::chrono::duration<double, std::milli>(latency).count()`, or `0.0` if that is greater. -/
def latencyMs (arith : Arithmetic) (latency : Int) : Floating :=
  Floating.max .zero (.div arith.double (arith.double latency) (arith.double 1000000))

/-- `std::lower_bound`: the position of the first bound that is not less than the latency. -/
def bucketOf (boundsMs : List Floating) (latency : Floating) : Nat :=
  boundsMs.findIdx fun bound => !bound.lt latency

/-- The lambda `update`. -/
def Counters.update (arith : Arithmetic) (boundsMs : List Floating) (counters : Counters)
    (call : RecordedCall) : Counters :=
  let latency := latencyMs arith call.latency
  { calls := counters.calls + 1
    successes := counters.successes + if call.outcome = .success then 1 else 0
    errors := counters.errors + if call.outcome = .error then 1 else 0
    abstains := counters.abstains + if call.outcome = .abstain then 1 else 0
    latencySumMs := .add arith.longDouble counters.latencySumMs
      (latency.convert arith.longDouble)
    latencyMaxMs := counters.latencyMaxMs.max latency
    buckets := counters.buckets.modify (bucketOf boundsMs latency) (· + 1)
    inputTokens := counters.inputTokens + call.usage.inputTokens
    outputTokens := counters.outputTokens + call.usage.outputTokens }

/-- `std::ceil` and the conversion to `std::uint64_t`, of values it is defined for. -/
def ceilCount : Floating → Nat
  | .finite value => value.ceil.toNat
  | _ => 0

/-- The loop of `percentile` over the buckets from number `i` on. -/
def percentileFrom (boundsMs : List Floating) (latencyMaxMs : Floating) (rank : Nat) :
    Nat → Nat → List Nat → Floating
  | _, _, [] => .zero
  | i, cumulative, count :: rest =>
    if rank ≤ cumulative + count then boundsMs.getD i latencyMaxMs
    else percentileFrom boundsMs latencyMaxMs rank (i + 1) (cumulative + count) rest

/-- `percentile`. -/
def percentile (arith : Arithmetic) (counters : Counters) (boundsMs : List Floating)
    (quantile : Floating) : Floating :=
  if counters.calls = 0 then .zero
  else
    let rank := ceilCount (.mul arith.double quantile (arith.double counters.calls))
    percentileFrom boundsMs counters.latencyMaxMs rank 0 0 counters.buckets

/-- `make_snapshot`. -/
def makeSnapshot (arith : Arithmetic) (source : Counters) (boundsMs : List Floating) :
    CounterSnapshot where
  calls := source.calls
  successes := source.successes
  errors := source.errors
  abstains := source.abstains
  latencyMeanMs :=
    if source.calls = 0 then .zero
    else (Floating.div arith.longDouble source.latencySumMs
      (arith.longDouble source.calls)).convert arith.double
  latencyP50Ms := percentile arith source boundsMs (arith.double (50 / 100))
  latencyP95Ms := percentile arith source boundsMs (arith.double (95 / 100))
  latencyP99Ms := percentile arith source boundsMs (arith.double (99 / 100))
  latencyHistogram := ⟨boundsMs, source.buckets⟩
  inputTokens := source.inputTokens
  outputTokens := source.outputTokens

/-! ## The operations -/

namespace Diagnostics

/-- `std::is_sorted`. -/
def isSorted : List Floating → Bool
  | a :: b :: rest => !b.lt a && isSorted (b :: rest)
  | _ => true

/-- Whether `std::adjacent_find` finds two equal neighbours. -/
def hasEqualNeighbours : List Floating → Bool
  | a :: b :: rest => a.eq b || hasEqualNeighbours (b :: rest)
  | _ => false

/-- The constructor. -/
def create (options : DiagnosticsOptions) : Except StdException Diagnostics :=
  let bounds := options.histogramBoundsMs
  if bounds = [] ∨ isSorted bounds = false ∨
      (bounds.any fun v => !v.isFinite || v.le .zero) ∨ hasEqualNeighbours bounds then
    .error (.invalidArgument
      (lit "histogram bounds must be finite, positive and strictly increasing"))
  else .ok { options, total := .empty bounds }

/-- `emplace` on the map: the new pair goes before the first greater name. -/
def emplace (name : Bytes) (counters : Counters) :
    List (Bytes × Counters) → List (Bytes × Counters)
  | [] => [(name, counters)]
  | entry :: rest =>
    if name < entry.1 then (name, counters) :: entry :: rest
    else entry :: emplace name counters rest

/-- The part of `record_call` that looks the decision up, or makes room for it if it may. -/
def countDecision (arith : Arithmetic) (d : Diagnostics) (call : RecordedCall) : Diagnostics :=
  let bounds := d.options.histogramBoundsMs
  match d.decisions.find? fun entry => entry.1 = call.decision with
  | some _ =>
    { d with decisions := d.decisions.map fun entry =>
        if entry.1 = call.decision then (entry.1, entry.2.update arith bounds call) else entry }
  | none =>
    if d.decisions.length < d.options.maxDecisions then
      { d with decisions :=
          emplace call.decision ((Counters.empty bounds).update arith bounds call) d.decisions }
    else { d with droppedDecisions := d.droppedDecisions + 1 }

/-- What `recent_calls` keeps of a call with a number. -/
def recentCall (arith : Arithmetic) (options : DiagnosticsOptions) (call : RecordedCall)
    (sequence : Nat) : RecentCall where
  sequence := sequence
  unixTimeMs := call.unixTimeMs
  decision := call.decision
  outcome := call.outcome
  latencyMs := latencyMs arith call.latency
  tag := call.tag.map fun tag => tag.take options.maxTagLength

/-- The part of `record_call` that keeps the call among the recent ones, if it is sampled. The
call has been counted already. -/
def keepRecent (arith : Arithmetic) (d : Diagnostics) (call : RecordedCall) : Diagnostics :=
  if d.options.recentCapacity ≠ 0 ∧ d.options.recentSampleEvery ≠ 0 ∧
      (d.total.calls - 1) % d.options.recentSampleEvery = 0 then
    let recent := recentCall arith d.options call d.total.calls :: d.recent
    { d with recent :=
        if d.options.recentCapacity < recent.length then recent.dropLast else recent }
  else d

/-- `record_call`. -/
def recordCall (arith : Arithmetic) (d : Diagnostics) (call : RecordedCall) : Diagnostics :=
  let counted := { d with total := d.total.update arith d.options.histogramBoundsMs call }
  keepRecent arith (countDecision arith counted call) call

/-- `reset`. -/
def reset (d : Diagnostics) : Diagnostics :=
  { d with
    total := .empty d.options.histogramBoundsMs
    decisions := []
    recent := []
    droppedDecisions := 0 }

/-- `snapshot`. -/
def snapshot (arith : Arithmetic) (now : Int) (d : Diagnostics) : DiagnosticsSnapshot where
  generatedAtUnixMs := now
  total := makeSnapshot arith d.total d.options.histogramBoundsMs
  decisions := d.decisions.map fun entry =>
    ⟨entry.1, makeSnapshot arith entry.2 d.options.histogramBoundsMs⟩
  recentCalls := d.recent
  droppedDecisions := d.droppedDecisions

end Diagnostics

/-- A call that changes a registry. -/
inductive DiagnosticsOp where
  | recordCall (call : RecordedCall)
  | reset
  deriving DecidableEq

/-- The registry a call leaves behind. -/
def Diagnostics.apply (arith : Arithmetic) (d : Diagnostics) : DiagnosticsOp → Diagnostics
  | .recordCall call => d.recordCall arith call
  | .reset => d.reset

end Jevt
