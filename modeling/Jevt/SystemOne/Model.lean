import Jevt.Decision.Node
import Jevt.Knowledge.Context
import Jevt.Runtime.Backend

/-!
# Decision models and their requests

The definitions of `include/jevt/system_one.hpp`: the fields of a decision model, and the request
`make_system_one_request` makes of a model and a state, one inference request for each field. The
enumerators of all fields of a model are values of one type `ν`.
-/

namespace Jevt

variable {ν : Type}

/-- `noul_policy`. -/
structure NoulPolicy where
  falseThreshold : Floating
  trueThreshold : Floating
  deriving DecidableEq

/-- The two kinds of an `enum_field_definition`. -/
inductive EnumKind where
  | choice
  | score
  deriving DecidableEq, Repr

/-- The two kinds of a `binary_field_definition`. -/
inductive BinaryKind where
  | noul
  | probability
  deriving DecidableEq, Repr

/-- `enum_field_definition`. -/
structure EnumField (ν : Type) where
  name : Bytes
  kind : EnumKind
  description : Bytes
  criteria : SchemaDefinition ν
  abstainThreshold : Floating
  instructions : ContentView := {}

/-- `binary_field_definition`. The criteria are for false and for true. -/
structure BinaryField where
  name : Bytes
  kind : BinaryKind
  description : Bytes
  policy : NoulPolicy
  instructions : ContentView := {}
  criteriaMetadata : ContentView × ContentView := ({}, {})

/-- A field of a decision model. -/
inductive FieldDefinition (ν : Type) where
  | enumField (field : EnumField ν)
  | binaryField (field : BinaryField)

namespace FieldDefinition

/-- `name`. -/
def name : FieldDefinition ν → Bytes
  | enumField field => field.name
  | binaryField field => field.name

/-- `size`. -/
def size : FieldDefinition ν → Nat
  | enumField field => field.criteria.size
  | binaryField _ => 2

/-- `description`. -/
def description : FieldDefinition ν → Bytes
  | enumField field => field.description
  | binaryField field => field.description

/-- `instructions`. -/
def instructions : FieldDefinition ν → ContentView
  | enumField field => field.instructions
  | binaryField field => field.instructions

end FieldDefinition

/-- `decision_model_definition`, with its static assertions. -/
structure DecisionModel (ν : Type) where
  id : Bytes
  description : Bytes
  fields : List (FieldDefinition ν)
  instructions : ContentView := {}
  nonempty : fields ≠ []
  unique : (fields.map FieldDefinition.name).Nodup

/-! ## Requests -/

/-- The turn of the loop of `json_content` for one byte. -/
def jsonContentByte (c : UInt8) : Bytes :=
  if c = 0x22 ∨ c = 0x5c then [0x5c, c]
  else if c < 0x20 then lit "\\u00" ++ [hexDigit (c.toNat / 16), hexDigit (c.toNat % 16)]
  else [c]

/-- `json_content`. -/
def jsonContent (value : ContentView) : Bytes :=
  match value.kind with
  | .json => value.content
  | .text => lit "\"" ++ value.content.flatMap jsonContentByte ++ lit "\""

/-- `system_one_request::field`. -/
structure RequestField where
  id : Bytes
  description : Bytes
  question : Bytes
  criteria : List Bytes
  kind : QuestionKind
  instructions : ContentView
  criteriaMetadata : List ContentView
  deriving DecidableEq, Repr

/-- `system_one_request`. -/
structure SystemOneRequest where
  decisionId : Bytes
  description : Bytes
  state : StateValue
  fields : List RequestField
  execution : EvaluationOptions := {}
  deriving DecidableEq, Repr

/-- Instructions, or a description as text where there are none. -/
def orDescription (instructions : ContentView) (description : Bytes) : ContentView :=
  if instructions.content = [] then textMetadata description else instructions

namespace FieldDefinition

/-- The criteria of the request for a field. -/
def criteria : FieldDefinition ν → List Bytes
  | enumField field => field.criteria.descriptions
  | binaryField _ => [lit "false", lit "true"]

/-- The question kind of the request for a field. -/
def questionKind : FieldDefinition ν → QuestionKind
  | enumField field => match field.kind with
    | .choice => .choice
    | .score => .score
  | binaryField _ => .noul

/-- The metadata of the criteria of the request for a field. -/
def requestMetadata : FieldDefinition ν → List ContentView
  | enumField field => field.criteria.options.map fun option =>
      orDescription option.metadata option.description
  | binaryField field => [field.criteriaMetadata.1, field.criteriaMetadata.2]

end FieldDefinition

/-- The lambda of `make_system_one_request` for one field. -/
def requestField (model : DecisionModel ν) (field : FieldDefinition ν) : RequestField :=
  let question := model.description ++ lit "\n\n" ++ field.description
  let modelMetadata := orDescription model.instructions model.description
  let fieldMetadata := orDescription field.instructions field.description
  { id := model.id ++ lit "." ++ field.name
    description := field.description
    question := question
    criteria := field.criteria
    kind := field.questionKind
    instructions :=
      if modelMetadata.kind = .text ∧ fieldMetadata.kind = .text then ⟨question, .text⟩
      else ⟨lit "\x7b\"model\":" ++ jsonContent modelMetadata ++ lit ",\"field\":" ++
        jsonContent fieldMetadata ++ lit "\x7d", .json⟩
    criteriaMetadata := field.requestMetadata }

/-- `make_system_one_request`. -/
def makeSystemOneRequest (model : DecisionModel ν) (state : StateValue)
    (execution : EvaluationOptions) : SystemOneRequest where
  decisionId := model.id
  description := model.description
  state := state
  fields := model.fields.map (requestField model)
  execution := execution

/-- `views().requests()`. -/
def SystemOneRequest.requests (owner : SystemOneRequest) : List InferenceRequest :=
  owner.fields.map fun field =>
    { decisionId := field.id
      question := field.question
      input := owner.state.content
      options := field.criteria
      questionKind := field.kind
      inputKind := owner.state.kind
      instructions := field.instructions
      criteriaMetadata := field.criteriaMetadata
      deadline := owner.execution.deadline
      cancellation := owner.execution.cancellation }

end Jevt
