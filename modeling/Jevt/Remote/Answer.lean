import Jevt.Remote.Payload
import Jevt.Remote.Send

/-!
# Replies and their answers

The second half of `typesafe_backend::predict_batch` of `src/remote.cpp`: what is read from the
reply to the payload of a group, and from the answer to each of its questions. Every exception on
the way ends in the same error, so a function that may throw is one to an `Option`.
-/

namespace Jevt

open Library

/-! ## Values -/

/-- `unit`. -/
def unit (arith : Arithmetic) (value : JsonValue) : Option Floating := do
  let number ← value.getDouble arith
  if !number.isFinite || number.lt .zero || Floating.lt (.finite 1) number then none
  else some (number.convert arith.float)

/-- `tokens`. -/
def tokens : JsonValue → Option UInt64
  | .unsigned value => some value
  | .integer value => if value < 0 then none else some (UInt64.ofNat value.toNat)
  | _ => none

/-! ## The answer to a question -/

/-- The loop over the probabilities of an answer, which reads the scores. -/
def probabilityScores (arith : Arithmetic) (key : Nat → Bytes) (count : Nat)
    (probabilities : List (Bytes × JsonValue)) : Option (List Floating) :=
  (List.range count).mapM fun i => do unit arith (← probabilities.lookup (key i))

/-- The sum `total` of the scores. -/
def totalMass (arith : Arithmetic) (scores : List Floating) : Floating :=
  scores.foldl (fun (total : Floating) p => total.add arith.double (p.convert arith.double)) .zero

/-- The sum `expected` of the scores, each times its level. -/
def expectedLevel (arith : Arithmetic) (scores : List Floating) : Floating :=
  scores.zipIdx.foldl (fun (expected : Floating) entry =>
    expected.add arith.double
      (.mul arith.double (arith.double entry.2) (entry.1.convert arith.double))) .zero

/-- The option an answer names: the last one with the key, and one too many without it. -/
def selectedIndex (count : Nat) (selected : Bytes) : Nat :=
  (List.range count).foldl (fun index i => if selected = optionKey i then i else index) count

/-- What the answer to a Choice adds: the option it names, which must have a maximal score. -/
def providerChoice (count : Nat) (answer : JsonValue) (scores : List Floating) : Option Nat := do
  let selected ← (← answer.member (lit "choice")).getString
  let index := selectedIndex count selected
  if index = count ∨
      (scores.getD index .nan).lt (scores.getD (Floating.maxElement scores) .nan) = true then none
  else some index

/-- What the answer to a Score adds: its score, which must be that of the probabilities, with a
legend of all levels. -/
def providerScore (arith : Arithmetic) (count : Nat) (answer : JsonValue)
    (scores : List Floating) : Option Floating := do
  let score ← (← answer.member (lit "score")).getDouble arith
  let mean := (expectedLevel arith scores).div arith.double (totalMass arith scores)
  if !score.isFinite || score.lt .zero || (arith.double (sizeSub count 1)).lt score ||
      (arith.double (1 / 1000)).lt (score.sub arith.double mean).abs then none
  else
    let legend ← (← answer.member (lit "legend")).getMembers count
    if (List.range count).all fun i => (legend.lookup (decimal i)).any JsonValue.isContent then
      some (score.convert arith.float)
    else none

/-- The turn of the loop that decodes the answer to a request: `blank` is the response with all that
the answers of a reply have in common. -/
def decodeAnswer (arith : Arithmetic) (request : InferenceRequest) (answer : JsonValue)
    (blank : InferenceResponse) : Option InferenceResponse := do
  let type ← (← answer.member (lit "type")).getString
  let count := request.options.length
  match request.questionKind with
  | .noul =>
    if type ≠ lit "noul" then none
    else
      let yes ← unit arith (← answer.member (lit "noul"))
      some { blank with scores := [Floating.sub arith.float (.finite 1) yes, yes] }
  | .choice =>
    if type ≠ lit "choice" then none
    else
      let confidence ← unit arith (← answer.member (lit "confidence"))
      let probabilities ← (← answer.member (lit "probabilities")).getMembers count
      let scores ← probabilityScores arith optionKey count probabilities
      if (arith.double (1 / 10000)).lt
          ((totalMass arith scores).sub arith.double (.finite 1)).abs then none
      else
        let index ← providerChoice count answer scores
        some { blank with
          scores := scores
          metadata := { blank.metadata with
            providerConfidence := some confidence
            providerChoiceIndex := some index } }
  | .score =>
    if type ≠ lit "score" then none
    else
      let confidence ← unit arith (← answer.member (lit "confidence"))
      let probabilities ← (← answer.member (lit "probabilities")).getMembers count
      let scores ← probabilityScores arith decimal count probabilities
      if (arith.double (1 / 10000)).lt
          ((totalMass arith scores).sub arith.double (.finite 1)).abs then none
      else
        let score ← providerScore arith count answer scores
        some { blank with
          scores := scores
          metadata := { blank.metadata with
            providerConfidence := some confidence
            providerScore := some score } }

/-- The scores of an answer do not depend on what the answers of its reply have in common. -/
theorem scores_decodeAnswer (arith : Arithmetic) (request : InferenceRequest) (answer : JsonValue)
    (blank blank' : InferenceResponse) :
    (decodeAnswer arith request answer blank).map InferenceResponse.scores =
      (decodeAnswer arith request answer blank').map InferenceResponse.scores := by
  unfold decodeAnswer
  cases request.questionKind <;>
    simp only [Option.bind_eq_bind, Option.map_bind, Function.comp_def,
      apply_ite (Option.map InferenceResponse.scores), Option.map_some]

/-- Nor does whether it is decoded. -/
theorem isSome_decodeAnswer (arith : Arithmetic) (request : InferenceRequest) (answer : JsonValue)
    (blank blank' : InferenceResponse) :
    (decodeAnswer arith request answer blank).isSome =
      (decodeAnswer arith request answer blank').isSome := by
  have hscores := congrArg Option.isSome (scores_decodeAnswer arith request answer blank blank')
  rwa [Option.isSome_map, Option.isSome_map] at hscores

/-! ## The reply to a payload -/

/-- What a reply says of all its answers. -/
structure Reply where
  model : Bytes
  answers : List (Bytes × JsonValue)
  usage : TokenUsage
  deriving DecidableEq

/-- What is read of a reply with a given number of answers. -/
def readReply (codec : JsonCodec) (size : Nat) (body : Bytes) : Option Reply := do
  let parsed ← codec.parse body
  let model ← (← parsed.member (lit "model")).getString
  if model = [] then none
  else
    let answers ← (← parsed.member (lit "answers")).getMembers size
    let usage ← parsed.member (lit "usage")
    let inputTokens ← tokens (← usage.member (lit "input_tokens"))
    let outputTokens ← tokens (← usage.member (lit "output_tokens"))
    some ⟨model, answers, ⟨inputTokens, outputTokens⟩⟩

namespace TypesafeBackend

/-- What the responses to one reply have in common; the usage report is at a given address. -/
def blankResponse (backend : TypesafeBackend) (reply : Reply) (attempts usage : Nat) :
    InferenceResponse where
  scores := []
  modelId := reply.model
  metadata :=
    { provider := match backend.options.provider with
        | .typesafe => lit "typesafe"
        | .openrouter => lit "openrouter"
      modelRevision := reply.model
      usage := some usage
      attempts := attempts }

/-- The loop over the rows of a group, which writes the responses to their places in the output. -/
def decodeRows (arith : Arithmetic) (requests : List InferenceRequest) (reply : Reply)
    (blank : InferenceResponse) : List (Nat × Nat) → List InferenceResponse →
      Option (List InferenceResponse)
  | [], output => some output
  | (index, row) :: rest, output => do
    let answer ← reply.answers.lookup (questionKey row)
    let response ← decodeAnswer arith (requests.getD index {}) answer blank
    decodeRows arith requests reply blank rest (output.set index response)

/-- The output after the reply to the payload of a group, with the usage it reports. -/
def decodeGroup (backend : TypesafeBackend) (arith : Arithmetic) (codec : JsonCodec)
    (requests : List InferenceRequest) (group : List Nat) (sent : SentResponse) (usage : Nat)
    (output : List InferenceResponse) : Option (List InferenceResponse × TokenUsage) := do
  let reply ← readReply codec group.length sent.value.body
  let output ← decodeRows arith requests reply (backend.blankResponse reply sent.attempts usage)
    group.zipIdx output
  some (output, reply.usage)

end TypesafeBackend

end Jevt
