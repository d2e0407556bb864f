import Jevt.Core.Floating
import Jevt.Core.Request
import Jevt.Library.Decimal
import Jevt.Library.Replace

/-!
# Heads and sequences

How `src/laya.cpp` turns a request into token ids: the head, which holds the question and the
options (`computeHead` is `prepare_head` without its cache), and the sequence, in which the state
follows the head (`buildSequence`). Every marker is the position of the mark of an option.

The tokenizer is a function. The subtraction of `std::size_t` is an argument `sub`, so that what the
functions compute can be compared for two subtractions; the adapter has `sizeSub`.
-/

namespace Jevt

open Library

/-- What an adapter has read from a bundle, with the options its sequences depend on. -/
structure LayaBundle where
  encode : Bytes → List Int
  maskToken : Bytes
  clsId : Int
  sepId : Int
  maskId : Int
  padId : Int
  maxLen : Nat
  headMaxLen : Nat
  contextTokenLimit : Nat := 0
  temperatures : Fin 3 → Floating := fun _ => .finite 1
  bucketTemperatures : List (Bytes × Floating) := []
  modelId : Bytes := lit "laya-onnx"

/-- `prepared_head`. -/
structure PreparedHead where
  ids : List Int
  markers : List Nat
  deriving DecidableEq, Repr

/-- The name of a question kind in a head. -/
def QuestionKind.typeName : QuestionKind → Bytes
  | .noul => lit "noul"
  | .score => lit "score"
  | .choice => lit "choice"

/-- What a question kind is in the tensors. -/
def QuestionKind.qtype : QuestionKind → Fin 3
  | .noul => 2
  | .score => 1
  | .choice => 0

/-- `bucket`. -/
def bucket (count : Nat) : Bytes :=
  if count ≤ 2 then lit "2"
  else if count ≤ 5 then lit "3-5"
  else if count ≤ 10 then lit "6-10"
  else lit "11+"

/-- The number of ids of all options. -/
def optionTotal (options : List (List Int)) : Nat :=
  (options.map List.length).sum

/-- The loop that puts the options behind each other, with a marker at the start of each. -/
def layOut : List Int → List Nat → List (List Int) → List Int × List Nat
  | sequence, markers, [] => (sequence, markers)
  | sequence, markers, encoded :: rest =>
    layOut (sequence ++ encoded) (markers ++ [sequence.length]) rest

namespace LayaBundle

variable (sub : Nat → Nat → Nat) (bundle : LayaBundle)

/-- A text without the mask token. -/
def scrub (text : Bytes) : Bytes :=
  replaceAll bundle.maskToken (lit " ") text

/-! ## Heads -/

/-- The ids of an option: its mark, and at most 48 of its own. -/
def encodeOption (option : Bytes) : List Int :=
  bundle.maskId :: (bundle.encode (lit " " ++ bundle.scrub option)).take 48

/-- How many ids an option may keep in a head that is too long. -/
def perOption (count : Nat) : Nat :=
  max 4 (sub bundle.headMaxLen (min bundle.headMaxLen 16) / max 1 count)

/-- The options of a head, cut where they leave less than 16 ids to the question. -/
def limitOptions (options : List (List Int)) : List (List Int) :=
  if bundle.headMaxLen < optionTotal options + 16 then
    options.map (List.take (bundle.perOption sub options.length))
  else options

/-- How many ids of a head the options leave to the question. -/
def headBudget (total : Nat) : Nat :=
  if total < bundle.headMaxLen then sub bundle.headMaxLen total else 8

/-- The ids of a question as far as they fit next to the options. -/
def questionIds (kind : QuestionKind) (question : Bytes) (options : List (List Int)) : List Int :=
  (bundle.encode (kind.typeName ++ lit " question: " ++ bundle.scrub question)).take
    (max 8 (bundle.headBudget sub (optionTotal options)))

/-- `prepare_head`, as far as it makes a head. -/
def computeHead (kind : QuestionKind) (question : Bytes) (options : List Bytes) : PreparedHead :=
  let options := bundle.limitOptions sub (options.map bundle.encodeOption)
  let start := bundle.clsId :: bundle.questionIds sub kind question options ++ [bundle.sepId]
  let (sequence, markers) := layOut start [] options
  ⟨sequence ++ [bundle.sepId], markers⟩

/-! ## Sequences -/

/-- `encode_state`. -/
def encodeState (input : Bytes) : List Int :=
  let limit :=
    if bundle.contextTokenLimit ≠ 0 then min bundle.maxLen bundle.contextTokenLimit
    else bundle.maxLen
  (bundle.encode (bundle.scrub input)).take limit

/-- How many ids of a sequence its head leaves to the state. -/
def room (head : PreparedHead) : Nat :=
  if head.ids.length + 1 < bundle.maxLen then sub (sub bundle.maxLen head.ids.length) 1 else 0

/-- How many ids of the state a sequence takes. -/
def stateBudget (head : PreparedHead) : Nat :=
  if bundle.contextTokenLimit ≠ 0 then min (bundle.room sub head) bundle.contextTokenLimit
  else bundle.room sub head

/-- `build_sequence`, behind `prepare_head`. -/
def buildSequence (head : PreparedHead) (state : List Int) : List Int × List Nat :=
  let sequence := head.ids ++ state.take (bundle.stateBudget sub head) ++ [bundle.sepId]
  let sequence := sequence.take bundle.maxLen
  (sequence, head.markers.filter fun marker => marker < sequence.length)

end LayaBundle

/-! ## Rows -/

/-- An option of a choice or score as text. -/
def renderOption (kind : QuestionKind) (i : Nat) (option : Bytes) : Bytes :=
  let rendered := if option = [] then lit "option " ++ decimal i else option
  if kind = .score then lit "level " ++ decimal i ++ lit ": " ++ rendered else rendered

/-- The error of an exception that leaves the `try` of `predict_batch`. -/
def layaError : StdException → Error
  | .invalidArgument what => { code := .invalidRequest, message := what }
  | failure => { code := .backendFailure, message := lit "Laya backend: " ++ failure.what }

/-- The options of a row as texts, with the checks of `predict_batch` before them. -/
def renderOptions (request : InferenceRequest) : Result (List Bytes) :=
  match request.questionKind with
  | .noul => (localNoulCriteria request).mapError layaError
  | kind =>
    if request.options = [] then
      .error
        { code := .invalidRequest, message := lit "Laya question requires at least one option" }
    else if kind = .score ∧ (request.options.length < 2 ∨ 10 < request.options.length) then
      .error
        { code := .invalidRequest, message := lit "Laya score requires between 2 and 10 levels" }
    else .ok (request.options.mapIdx (renderOption kind))

/-- The `item` of `predict_batch`. -/
structure LayaItem where
  options : List Bytes
  ids : List Int
  markers : List Nat
  qtype : Fin 3
  temperature : Floating
  deriving DecidableEq

/-- The usage a row reports. -/
def LayaItem.usage (item : LayaItem) : TokenUsage :=
  { inputTokens := UInt64.ofNat item.ids.length }

/-- The temperature of a row. -/
def LayaBundle.temperature (bundle : LayaBundle) (kind : QuestionKind) (count : Nat) : Floating :=
  (bundle.bucketTemperatures.lookup (kind.typeName ++ lit ":" ++ bucket count)).getD
    (bundle.temperatures kind.qtype)

namespace LayaBundle

variable (sub : Nat → Nat → Nat) (bundle : LayaBundle)

/-- The rest of the turn of the first loop of `predict_batch`, for a request with its options, its
head and its state. -/
def makeItem (request : InferenceRequest) (options : List Bytes) (head : PreparedHead)
    (state : List Int) : Result LayaItem :=
  let (ids, markers) := bundle.buildSequence sub head state
  if markers.length ≠ options.length then
    .error
      { code := .invalidRequest, message := lit "Laya options do not fit inside head_max_len" }
  else
    .ok ⟨options, ids, markers, request.questionKind.qtype,
      bundle.temperature request.questionKind options.length⟩

/-- The turn of the first loop of `predict_batch` for a request. -/
def item (request : InferenceRequest) : Result LayaItem :=
  match renderOptions request with
  | .error failure => .error failure
  | .ok options =>
    bundle.makeItem sub request options
      (bundle.computeHead sub request.questionKind request.question options)
      (bundle.encodeState request.input)

end LayaBundle

end Jevt
