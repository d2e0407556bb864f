import Mathlib.Data.List.Sort
import Jevt.Knowledge.Fact

/-!
# The model context compiler

`compile_knowledge_context` of `include/jevt/knowledge.hpp`: it renders a question, an observation
and as many whole facts as a token budget allows into the input document of a model. The token
counter is a parameter and any function at all; the formatter of a typed observation is a
parameter too, and it may throw.
-/

namespace Jevt

/-- `knowledge_context_request`, with its default member initializers. An empty `std::function`
is `none`. -/
structure KnowledgeContextRequest where
  question : Bytes := []
  schemaId : Bytes := []
  schemaRevision : Bytes := []
  promptRevision : Bytes := []
  observation : Bytes := []
  facts : List KnowledgeFact := []
  tokenBudget : Nat := 0
  countTokens : Option (Bytes → Nat) := none
  typedJsonObservation : Bool := false
  formatTypedJsonObservation : Option (Bytes → Except StdException Bytes) := none

/-- `compiled_knowledge_context`, with its default member initializers. -/
structure CompiledKnowledgeContext where
  question : Bytes := []
  input : Bytes := []
  schemaRevision : Bytes := []
  promptRevision : Bytes := []
  admittedFactIds : List Bytes := []
  omittedFactIds : List Bytes := []
  tokenCount : Nat := 0
  inputDigest : Bytes := []
  tokenizedInputDigest : Bytes := []
  digestAlgorithm : Bytes := lit "fnv1a64-noncryptographic"
  deriving DecidableEq, Repr

/-! ## Digests and escapes -/

/-- A digit of the table `"0123456789abcdef"`. -/
def hexDigit (n : Nat) : UInt8 :=
  (lit "0123456789abcdef").getD n 0

/-- `knowledge_detail::digest`: the 64-bit FNV-1a hash in sixteen hexadecimal digits. -/
def digest (text : Bytes) : Bytes :=
  let value := text.foldl
    (fun value byte => (value ^^^ byte.toUInt64) * 1099511628211) (14695981039346656037 : UInt64)
  (List.range 16).map fun index => hexDigit ((value.toNat >>> ((16 - index - 1) * 4)) % 16)

/-- The turn of the loop of `escape` for one byte. -/
def escapeByte (c : UInt8) : Bytes :=
  if c = 0x22 then lit "\\\""
  else if c = 0x5c then lit "\\\\"
  else if c = 0x08 then lit "\\b"
  else if c = 0x0c then lit "\\f"
  else if c = 0x0a then lit "\\n"
  else if c = 0x0d then lit "\\r"
  else if c = 0x09 then lit "\\t"
  else if c < 0x20 then lit "\\u00" ++ [hexDigit (c.toNat / 16), hexDigit (c.toNat % 16)]
  else [c]

/-- The lambda `escape`. -/
def escape (text : Bytes) : Bytes :=
  lit "\"" ++ text.flatMap escapeByte ++ lit "\""

/-! ## The input document -/

/-- The label the model sees for the evidence of a fact. -/
def evidenceLabel (evidence : KnowledgeEvidence) : Bytes :=
  if evidence = .modelHypothesis then lit "hypothesis"
  else if evidence = .verifiedOutcome then lit "confirmed"
  else lit "observed"

/-- The turn of the loop of `make_input` for one fact. -/
def renderFact (fact : KnowledgeFact) : Bytes :=
  lit "\x7b\"subject\":" ++ escape fact.subject ++ lit ",\"relation\":" ++ escape fact.relation ++
    lit ",\"object\":" ++ escape fact.object ++ lit ",\"evidence\":" ++
    escape (evidenceLabel fact.evidence) ++
    (if fact.attributesJson = [] then [] else lit ",\"attributes\":" ++ escape fact.attributesJson)
    ++ lit "\x7d"

/-- The lambda `make_input`. A typed observation is pasted in as the formatter returned it. -/
def makeInput (schemaId observation : Bytes) (typed : Bool) (admitted : List KnowledgeFact) :
    Bytes :=
  lit "\x7b\"schema\":" ++ escape schemaId ++ lit ",\"observation\":" ++
    (if typed then observation else escape observation) ++ lit ",\"knowledge\":[" ++
    (lit ",").intercalate (admitted.map renderFact) ++ lit "]\x7d"

/-! ## Ranking and admission -/

/-- The comparator of the sort: higher priority first, then the younger fact. -/
def ranksBefore (left right : KnowledgeFact) : Bool :=
  if left.priority ≠ right.priority then decide (right.priority < left.priority)
  else decide (right.tick < left.tick)

/-- `std::stable_sort` of the facts of a request. -/
def rankedFacts (facts : List KnowledgeFact) : List KnowledgeFact :=
  facts.insertionSort fun left right => ranksBefore right left = false

/-- What the loop over the candidates updates. -/
structure Admission where
  admitted : List KnowledgeFact
  input : Bytes
  tokenCount : Nat
  admittedFactIds : List Bytes
  omittedFactIds : List Bytes

/-- One turn of the loop over the candidates: render and measure the document with the candidate
appended, and take the candidate back if that exceeds the budget. -/
def Admission.consider (render : List KnowledgeFact → Bytes) (measure : Bytes → Nat)
    (tokenBudget : Nat) (acc : Admission) (candidate : KnowledgeFact) : Admission :=
  let proposed := render (acc.admitted ++ [candidate])
  if tokenBudget < measure proposed then
    { acc with omittedFactIds := acc.omittedFactIds ++ [candidate.id] }
  else
    { acc with
      admitted := acc.admitted ++ [candidate]
      input := proposed
      tokenCount := measure proposed
      admittedFactIds := acc.admittedFactIds ++ [candidate.id] }

namespace KnowledgeContextRequest

/-- The largest observation, in bytes. -/
def maxObservation : Nat := 1048576

/-- The argument checks of `compile_knowledge_context`, with what they establish: the token
counter, and the observation as the document takes it. -/
def checkArguments (request : KnowledgeContextRequest) :
    Except StdException ((Bytes → Nat) × Bytes) :=
  match request.countTokens with
  | none => .error (.invalidArgument (lit "incomplete knowledge context contract"))
  | some countTokens =>
    if request.question = [] ∨ request.schemaId = [] ∨ request.schemaRevision = [] ∨
        request.promptRevision = [] ∨ request.observation = [] ∨ request.tokenBudget = 0 then
      .error (.invalidArgument (lit "incomplete knowledge context contract"))
    else if maxObservation < request.observation.length then
      .error (.invalidArgument (lit "knowledge observation exceeds 1 MiB"))
    else if request.typedJsonObservation = false then .ok (countTokens, request.observation)
    else match request.formatTypedJsonObservation with
      | none =>
        .error (.invalidArgument (lit "typed JSON observation requires a validating formatter"))
      | some format =>
        match format request.observation with
        | .error failure => .error failure
        | .ok observation =>
          if observation = [] ∨ maxObservation < observation.length then
            .error (.invalidArgument
              (lit "typed JSON formatter returned empty or oversized JSON"))
          else .ok (countTokens, observation)

/-- The document `make_input` renders for a request whose observation has been prepared. -/
def document (request : KnowledgeContextRequest) (observation : Bytes)
    (admitted : List KnowledgeFact) : Bytes :=
  makeInput request.schemaId observation request.typedJsonObservation admitted

/-- The lambda `measure`, on a given counter. -/
def measure (request : KnowledgeContextRequest) (countTokens : Bytes → Nat) (input : Bytes) : Nat :=
  countTokens (request.question ++ lit "\n" ++ input)

/-- The loop over the ranked candidates. -/
def admission (request : KnowledgeContextRequest) (countTokens : Bytes → Nat)
    (observation : Bytes) : Admission :=
  let empty := request.document observation []
  (rankedFacts request.facts).foldl
    (Admission.consider (request.document observation) (request.measure countTokens)
      request.tokenBudget)
    ⟨[], empty, request.measure countTokens empty, [], []⟩

end KnowledgeContextRequest

/-- `compile_knowledge_context`. -/
def compileKnowledgeContext (request : KnowledgeContextRequest) :
    Except StdException CompiledKnowledgeContext := do
  let (countTokens, observation) ← request.checkArguments
  if request.tokenBudget < request.measure countTokens (request.document observation []) then
    throw (.lengthError (lit "mandatory prompt, schema or observation exceeds model token budget"))
  let result := request.admission countTokens observation
  return {
    question := request.question
    input := result.input
    schemaRevision := request.schemaRevision
    promptRevision := request.promptRevision
    admittedFactIds := result.admittedFactIds
    omittedFactIds := result.omittedFactIds
    tokenCount := result.tokenCount
    inputDigest := digest result.input
    tokenizedInputDigest := digest (request.question ++ lit "\n" ++ result.input) }

end Jevt
