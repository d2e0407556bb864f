import Jevt.Runtime.Backend

/-!
# Bound decisions and predicates

`bound_decision::choose` and `bound_predicate::evaluate` of `include/jevt/runtime.hpp`. Every exit
of the two functions is here with the call of `record` that the source makes at it.
-/

namespace Jevt

variable {ν : Type}

/-- `decision_metadata`. -/
structure DecisionMetadata where
  modelId : Bytes
  confidence : Floating
  abstained : Bool
  execution : ExecutionMetadata
  deriving DecidableEq

/-- `decision_result`. -/
structure DecisionResult (ν : Type) where
  selected : Option ν
  scores : List Floating
  metadata : DecisionMetadata
  deriving DecidableEq

/-- `decision_result::abstained`. -/
def DecisionResult.abstained (result : DecisionResult ν) : Bool := !result.selected.isSome

/-- `predicate_result`. -/
structure PredicateResult where
  value : Option Bool
  confidence : Floating
  modelId : Bytes
  metadata : ExecutionMetadata
  deriving DecidableEq

/-- `predicate_result::abstained`. -/
def PredicateResult.abstained (result : PredicateResult) : Bool := !result.value.isSome

/-- The members of a `bound_decision`. -/
structure BoundDecision (ν : Type) where
  schema : SchemaDefinition ν
  backend : Backend
  threshold : Floating
  question : Bytes := []
  attached : Bool

/-- The members of a `bound_predicate`. -/
structure BoundPredicate where
  definition : PredicateDefinition
  backend : Backend
  threshold : Floating
  attached : Bool

/-- Whether a score is negative or not finite. -/
def invalidScore (v : Floating) : Bool := !v.isFinite || v.lt .zero

/-- The position of the highest score, or the provider's choice if it scores as high. -/
def bestChoice (scores : List Floating) (providerChoiceIndex : Option Nat) : Nat :=
  let best := Floating.maxElement scores
  match providerChoiceIndex with
  | some index =>
    if index < scores.length ∧ (scores.getD index .nan).eq (scores.getD best .nan) then index
    else best
  | none => best

/-! ## Decisions -/

namespace BoundDecision

variable (bound : BoundDecision ν)

/-- The request of `choose`. -/
def request (input : Bytes) (execution : EvaluationOptions) (inputKind : ContentKind) :
    InferenceRequest where
  decisionId := bound.schema.name
  question := bound.question
  input := input
  options := bound.schema.descriptions
  questionKind := .choice
  inputKind := inputKind
  instructions := textMetadata bound.question
  criteriaMetadata := bound.schema.criteriaMetadata
  deadline := execution.deadline
  cancellation := execution.cancellation

/-- `choose` after its second check. -/
def interpret (arith : Arithmetic) (record : CallOutcome → List RecordedCall)
    (response : InferenceResponse) : List RecordedCall × Result (DecisionResult ν) :=
  let scores := response.scores
  if scores.length ≠ bound.schema.size ∨ scores = [] then
    (record .error,
      .error (invalidOutput (lit "backend returned a score vector with the wrong size")))
  else if scores.any invalidScore then
    (record .error,
      .error (invalidOutput (lit "backend returned a negative or non-finite score")))
  else
    let best := bestChoice scores response.metadata.providerChoiceIndex
    let total := scores.foldl (.add arith.float) .zero
    if !Floating.zero.lt total || !total.isFinite then
      (record .error, .error (invalidOutput (lit "backend returned an invalid score total")))
    else
      let scores := scores.map fun score => score.div arith.float total
      let confidence := scores.getD best .nan
      let selected := if bound.threshold.le confidence then bound.schema.values[best]? else none
      (record (if selected.isSome then .success else .abstain),
        .ok ⟨selected, scores, ⟨response.modelId, confidence, !selected.isSome, response.metadata⟩⟩)

/-- `choose`. -/
def choose (arith : Arithmetic) (heap : UsageHeap) (input : Bytes) (diagnosticTag : Option Bytes)
    (execution : EvaluationOptions) (inputKind : ContentKind) (moments : Moments) :
    Evaluated (DecisionResult ν) :=
  let recorder : Recorder := ⟨bound.attached, bound.schema.name, moments.finished - moments.started,
    diagnosticTag, moments.unixTimeMs⟩
  evaluation recorder execution moments
    (bound.backend.predict (bound.request input execution inputKind))
    (InferenceResponse.reported heap) (bound.interpret arith)

end BoundDecision

/-! ## Predicates -/

namespace BoundPredicate

variable (bound : BoundPredicate)

/-- The request of `evaluate`. -/
def request (input : Bytes) (execution : EvaluationOptions) (inputKind : ContentKind) :
    InferenceRequest where
  decisionId := bound.definition.name
  question := bound.definition.question
  input := input
  options := [lit "false", lit "true"]
  questionKind := .noul
  inputKind := inputKind
  instructions := textMetadata bound.definition.question
  deadline := execution.deadline
  cancellation := execution.cancellation

/-- `evaluate` after its second check. -/
def interpret (arith : Arithmetic) (record : CallOutcome → List RecordedCall)
    (response : InferenceResponse) : List RecordedCall × Result PredicateResult :=
  match response.scores with
  | [falseMass, trueMass] =>
    if [falseMass, trueMass].any invalidScore then
      (record .error,
        .error (invalidOutput (lit "predicate backend returned a negative or non-finite score")))
    else
      let total := falseMass.add arith.float trueMass
      if !Floating.zero.lt total || !total.isFinite then
        (record .error, .error (invalidOutput (lit "invalid predicate scores")))
      else
        let falseScore := falseMass.div arith.float total
        let trueScore := trueMass.div arith.float total
        let value := falseScore.le trueScore
        let confidence := trueScore.max falseScore
        let selected := if bound.threshold.le confidence then some value else none
        (record (if selected.isSome then .success else .abstain),
          .ok ⟨selected, confidence, response.modelId, response.metadata⟩)
  | _ =>
    (record .error, .error (invalidOutput (lit "predicate backend must return two scores")))

/-- `evaluate`. -/
def evaluate (arith : Arithmetic) (heap : UsageHeap) (input : Bytes) (diagnosticTag : Option Bytes)
    (execution : EvaluationOptions) (inputKind : ContentKind) (moments : Moments) :
    Evaluated PredicateResult :=
  let recorder : Recorder := ⟨bound.attached, bound.definition.name,
    moments.finished - moments.started, diagnosticTag, moments.unixTimeMs⟩
  evaluation recorder execution moments
    (bound.backend.predict (bound.request input execution inputKind))
    (InferenceResponse.reported heap) (bound.interpret arith)

end BoundPredicate

end Jevt
