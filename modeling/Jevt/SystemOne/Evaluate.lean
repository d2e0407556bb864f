import Jevt.Runtime.Decision
import Jevt.SystemOne.Model

/-!
# The evaluation of a decision model

The answers of `include/jevt/system_one.hpp` and `bound_system_one::evaluate`, which asks a backend
for one response for each field and normalizes the scores of each. Every exit is here with the call
of `record` that the source makes at it.
-/

namespace Jevt

variable {ν : Type}

/-! ## Answers -/

/-- `entropy_confidence`. -/
def entropyConfidence (arith : Arithmetic) (probabilities : List Floating) : Floating :=
  if probabilities.length ≤ 1 then .finite 1
  else
    let entropy := probabilities.foldl (fun (entropy : Floating) p =>
      if Floating.zero.lt p then
        entropy.sub arith.double
          (.mul arith.double (p.convert arith.double) ((arith.logFloat p).convert arith.double))
      else entropy) .zero
    let size := arith.logDouble (arith.double probabilities.length)
    ((Floating.sub arith.double (.finite 1) (entropy.div arith.double size)).clamp .zero
      (.finite 1)).convert arith.float

/-- `enum_answer`. -/
structure EnumAnswer (ν : Type) where
  selected : Option ν
  probabilities : List Floating
  legend : List Bytes
  modelId : Bytes
  confidence : Floating
  score : Floating
  metadata : ExecutionMetadata
  deriving DecidableEq

/-- The constructor of `enum_answer`. -/
def EnumAnswer.create (arith : Arithmetic) (field : EnumField ν) (probabilities : List Floating)
    (modelId : Bytes) (metadata : ExecutionMetadata) : EnumAnswer ν :=
  let confidence := entropyConfidence arith probabilities
  let index := match field.kind with
    | .choice => bestChoice probabilities metadata.providerChoiceIndex
    | .score => Floating.maxElement probabilities
  { selected :=
      if field.abstainThreshold.le confidence then field.criteria.values[index]? else none
    probabilities := probabilities
    legend := field.criteria.descriptions
    modelId := modelId
    confidence := confidence
    score := probabilities.zipIdx.foldl (fun (score : Floating) p =>
      score.add arith.float (.mul arith.float (arith.float p.2) p.1)) .zero
    metadata := metadata }

/-- `binary_answer`, with the kind of its field. -/
structure BinaryAnswer where
  kind : BinaryKind
  selected : Option Bool
  probabilities : Floating × Floating
  modelId : Bytes
  metadata : ExecutionMetadata
  deriving DecidableEq

/-- The constructor of `binary_answer`, for two probabilities. -/
def BinaryAnswer.create (field : BinaryField) (probabilities : List Floating) (modelId : Bytes)
    (metadata : ExecutionMetadata) : BinaryAnswer :=
  let falseMass := probabilities.getD 0 .nan
  let trueMass := probabilities.getD 1 .nan
  { kind := field.kind
    selected :=
      if field.policy.trueThreshold.le trueMass then some true
      else if trueMass.le field.policy.falseThreshold then some false
      else none
    probabilities := (falseMass, trueMass)
    modelId := modelId
    metadata := metadata }

/-- `field_answer`. -/
inductive FieldAnswer (ν : Type) where
  | enumAnswer (answer : EnumAnswer ν)
  | binaryAnswer (answer : BinaryAnswer)
  deriving DecidableEq

/-- `abstained` of an answer. -/
def FieldAnswer.abstained : FieldAnswer ν → Bool
  | enumAnswer answer => !answer.selected.isSome
  | binaryAnswer answer => match answer.kind with
    | .probability => false
    | .noul => !answer.selected.isSome

/-- The constructor of the `field_answer` of a field. -/
def FieldAnswer.create (arith : Arithmetic) (field : FieldDefinition ν)
    (probabilities : List Floating) (modelId : Bytes) (metadata : ExecutionMetadata) :
    FieldAnswer ν :=
  match field with
  | .enumField field => .enumAnswer (.create arith field probabilities modelId metadata)
  | .binaryField field => .binaryAnswer (.create field probabilities modelId metadata)

/-- `system_one_result`. -/
structure SystemOneResult (ν : Type) where
  answers : List (FieldAnswer ν)
  deriving DecidableEq

/-- `system_one_result::abstained`. -/
def SystemOneResult.abstained (result : SystemOneResult ν) : Bool :=
  result.answers.any FieldAnswer.abstained

/-! ## Evaluation -/

/-- The members of a `bound_system_one`. -/
structure BoundSystemOne (ν : Type) where
  model : DecisionModel ν
  backend : Backend
  attached : Bool

/-- The loop over the usage reports: `reports` are those that have been added to `usage`. -/
def addReports (heap : UsageHeap) (usage : TokenUsage) (reports : List Nat) :
    List InferenceResponse → TokenUsage
  | [] => usage
  | response :: rest =>
    match response.metadata.usage with
    | none => addReports heap usage reports rest
    | some report =>
      if report ∈ reports then addReports heap usage reports rest
      else
        addReports heap
          ⟨usage.inputTokens + (heap report).inputTokens,
            usage.outputTokens + (heap report).outputTokens⟩ (reports ++ [report]) rest

/-- The turn of the loop over the fields: it records an error and leaves `evaluate` with it, or
goes on with the probabilities of the field. -/
def normalize (arith : Arithmetic) (record : CallOutcome → List RecordedCall) (size : Nat)
    (probabilities : List Floating) : Except (List RecordedCall × Error) (List Floating) :=
  if probabilities.length ≠ size then
    .error (record .error, invalidOutput (lit "System One field has wrong probability count"))
  else if probabilities.any invalidScore then
    .error (record .error,
      invalidOutput (lit "System One probabilities must be finite and nonnegative"))
  else
    let total := probabilities.foldl (.add arith.double) .zero
    if !Floating.zero.lt total then
      .error (record .error, invalidOutput (lit "System One probabilities have zero mass"))
    else
      .ok (probabilities.map fun p =>
        ((p.convert arith.double).div arith.double total).convert arith.float)

namespace BoundSystemOne

variable (bound : BoundSystemOne ν)

/-- `request`. -/
def request (state : StateValue) (execution : EvaluationOptions) : SystemOneRequest :=
  makeSystemOneRequest bound.model state execution

/-- The loop over the fields and their responses, and the answers made of them. -/
def answers (arith : Arithmetic) (record : CallOutcome → List RecordedCall) :
    List (FieldDefinition ν) → List InferenceResponse →
      Except (List RecordedCall × Error) (List (FieldAnswer ν))
  | field :: fields, response :: responses =>
    match normalize arith record field.size response.scores with
    | .error exit => .error exit
    | .ok probabilities =>
      (answers arith record fields responses).map
        (.create arith field probabilities response.modelId response.metadata :: ·)
  | _, _ => .ok []

/-- `evaluate` after its second check. -/
def interpret (arith : Arithmetic) (record : CallOutcome → List RecordedCall)
    (responses : List InferenceResponse) : List RecordedCall × Result (SystemOneResult ν) :=
  if responses.length ≠ bound.model.fields.length then
    (record .error,
      .error (invalidOutput (lit "System One backend returned wrong number of answers")))
  else
    match answers arith record bound.model.fields responses with
    | .error (recorded, failure) => (recorded, .error failure)
    | .ok answers =>
      let answer : SystemOneResult ν := ⟨answers⟩
      (record (if answer.abstained then .abstain else .success), .ok answer)

/-- `evaluate`. -/
def evaluate (arith : Arithmetic) (heap : UsageHeap) (state : StateValue)
    (execution : EvaluationOptions) (moments : Moments) : Evaluated (SystemOneResult ν) :=
  let recorder : Recorder := ⟨bound.attached, bound.model.id, moments.finished - moments.started,
    none, moments.unixTimeMs⟩
  evaluation recorder execution moments
    (bound.backend.predictBatch (bound.request state execution).requests)
    (addReports heap {} []) (bound.interpret arith)

end BoundSystemOne

end Jevt
