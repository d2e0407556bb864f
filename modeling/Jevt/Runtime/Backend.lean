import Jevt.Core.Floating
import Jevt.Core.Request
import Jevt.Diagnostics.Registry

/-!
# Backends, schemas and the frame of an evaluation

The rest of `include/jevt/core.hpp` that an evaluation of a bound decision needs: responses, the two
virtual functions of a backend, schemas and predicates. The three functions that evaluate a binding
begin alike, with a check of the deadline, the call of the backend and a second check, and go on
with the checks of their own; `evaluation` is that beginning.

A `std::shared_ptr` to a usage report is its address, and the reports are the contents of a heap
that nobody writes to. An enumerator is a value of the type `ν`.
-/

namespace Jevt

/-- `execution_metadata`. -/
structure ExecutionMetadata where
  provider : Bytes := []
  modelRevision : Bytes := []
  usage : Option Nat := none
  providerConfidence : Option Floating := none
  providerScore : Option Floating := none
  attempts : Nat := 1
  providerChoiceIndex : Option Nat := none
  deriving DecidableEq

/-- `inference_response`. -/
structure InferenceResponse where
  scores : List Floating
  modelId : Bytes
  metadata : ExecutionMetadata := {}
  deriving DecidableEq

/-- The usage reports at their addresses. -/
abbrev UsageHeap := Nat → TokenUsage

/-- The usage report of a response, if it has one. -/
def InferenceResponse.reported (heap : UsageHeap) (response : InferenceResponse) : TokenUsage :=
  response.metadata.usage.elim {} heap

/-- The responses of a batch with the usage reports they point to. -/
structure Predicted where
  output : List InferenceResponse
  reports : List TokenUsage
  deriving DecidableEq

/-- What a C++ function may throw. -/
inductive Thrown where
  | stdException (what : Bytes)
  | otherException
  deriving DecidableEq, Repr

/-- The two virtual functions of `backend` that answer requests, either of which may throw. -/
structure Backend where
  predict : InferenceRequest → Except Thrown (Result InferenceResponse)
  predictBatch : List InferenceRequest → Except Thrown (Result (List InferenceResponse))

/-! ## Schemas -/

/-- `option_definition`. -/
structure OptionDefinition (ν : Type) where
  value : ν
  description : Bytes
  metadata : ContentView

/-- `schema_definition`, with its static assertions. -/
structure SchemaDefinition (ν : Type) where
  name : Bytes
  options : List (OptionDefinition ν)
  nonempty : options ≠ []
  unique : (options.map OptionDefinition.value).Nodup

namespace SchemaDefinition

variable {ν : Type} (schema : SchemaDefinition ν)

/-- `size`. -/
def size : Nat := schema.options.length

/-- `values()`. -/
def values : List ν := schema.options.map OptionDefinition.value

/-- `descriptions()`. -/
def descriptions : List Bytes := schema.options.map OptionDefinition.description

/-- `criteria_metadata()`. -/
def criteriaMetadata : List ContentView := schema.options.map OptionDefinition.metadata

end SchemaDefinition

/-- `predicate_definition`. -/
structure PredicateDefinition where
  name : Bytes
  question : Bytes
  deriving DecidableEq, Repr

/-- `text_metadata`. -/
def textMetadata (value : Bytes) : ContentView := ⟨value, .text⟩

/-! ## Evaluations -/

/-- `evaluation_options`. -/
structure EvaluationOptions where
  deadline : Option Int := none
  cancellation : Option Nat := none
  deriving DecidableEq, Repr

/-- `execution_error` of evaluation options, which a request passes on as its own. -/
def EvaluationOptions.error (options : EvaluationOptions) (env : Environment) : Option Error :=
  executionError env { deadline := options.deadline, cancellation := options.cancellation }

/-- What an evaluation sees of the outside: the clock at its start, the two checks, and the clocks
it reads when it records a call. -/
structure Moments where
  started : Int
  before : Environment
  after : Environment
  finished : Int
  unixTimeMs : Int := 0

/-- What an evaluation does: the calls it records, and what it returns or throws. -/
structure Evaluated (ρ : Type) where
  recorded : List RecordedCall
  returned : Except Thrown (Result ρ)
  deriving DecidableEq

/-- The lambda `record`, with what it captures apart from the usage. -/
structure Recorder where
  attached : Bool
  decision : Bytes
  latency : Int
  tag : Option Bytes
  unixTimeMs : Int

/-- A call of `record`, which does nothing without a registry. -/
def Recorder.record (recorder : Recorder) (usage : TokenUsage) (outcome : CallOutcome) :
    List RecordedCall :=
  if recorder.attached then
    [⟨recorder.decision, outcome, recorder.latency, recorder.tag, usage, recorder.unixTimeMs⟩]
  else []

/-- How an evaluation begins: the check, the call of the backend, its usage, and the second check.
The rest of it is given the responses and what `record` does from then on. -/
def evaluation {σ ρ : Type} (recorder : Recorder) (execution : EvaluationOptions)
    (moments : Moments) (call : Except Thrown (Result σ)) (usageOf : σ → TokenUsage)
    (rest : (CallOutcome → List RecordedCall) → σ → List RecordedCall × Result ρ) :
    Evaluated ρ :=
  match execution.error moments.before with
  | some failure => ⟨recorder.record {} .error, .ok (.error failure)⟩
  | none =>
    match call with
    | .error thrown => ⟨[], .error thrown⟩
    | .ok (.error failure) => ⟨recorder.record {} .error, .ok (.error failure)⟩
    | .ok (.ok responses) =>
      let usage := usageOf responses
      match execution.error moments.after with
      | some failure => ⟨recorder.record usage .error, .ok (.error failure)⟩
      | none =>
        let (recorded, returned) := rest (recorder.record usage) responses
        ⟨recorded, .ok returned⟩

/-- An error of the code `invalid_backend_output`. -/
def invalidOutput (message : Bytes) : Error :=
  { code := .invalidBackendOutput, message }

end Jevt
