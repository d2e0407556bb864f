import Jevt.Laya.Batch
import Jevt.Library.Keyed

/-!
# Batches of the native adapter

`predict_batch` of `src/laya_native.cpp`. The loop over the requests answers a choice with one
option at once and makes rows of the others (`collect`); the rows are laid out in flat vectors
(`layOutRows`), and the scores of a row go back to the response of its request (`decodeRows`).

The positions in the vectors are computed in `int`. A result that is not an `int` has undefined
behaviour, which is the outer `none` of what a call returns. The model is a function on the batch,
which may throw. The calls of one adapter follow each other, and a call reads the clock and the stop
sources once for each request in each of its four rounds of checks.
-/

namespace Jevt

open Library

/-- A result in `int`, unless the behaviour is undefined. -/
def checkedInt (n : Int) : Option Int :=
  if -(intMax : Int) - 1 ≤ n ∧ n ≤ intMax then some n else none

/-- `laya::batch`, as far as the adapter sets it. -/
structure NativeBatch where
  size : Int := 0
  length : Int := 8
  options : Int := 2
  lengths : List Int := []
  counts : List Int := []
  types : List Int := []
  ids : List Int := []
  markers : List Int := []
  deriving DecidableEq, Repr

/-- The variables of `predict_batch` that the loops share. The usage report of a response is at the
address that is the number of its request. -/
structure NativeLocals where
  responses : List InferenceResponse
  reports : List TokenUsage
  rows : List Nat := []
  sequences : List (List Int) := []
  markers : List (List Int) := []
  calibration : List Floating := []
  batch : NativeBatch := {}

/-- `laya_native_backend::impl`, as far as it does not change. -/
structure NativeBackend where
  bundle : LayaBundle
  limits : HeadLimits := {}
  arith : Arithmetic
  exp : Floating → Floating
  forward : NativeBatch → Except StdException (List Floating)

/-- What a call gets from outside: the environment of each check, and the capacities of the entries
it puts into the cache. -/
structure NativeCall where
  check : Nat → Environment
  capacities : Nat → Capacities

/-- The cache of a backend. -/
abbrev NativeStore := Fifo Bytes NativeHead

/-- `prepare_head`. -/
def nativePrepareHead (bundle : LayaBundle) (limits : HeadLimits) (store : NativeStore)
    (call : HeadCall) (capacities : Capacities) : Except StdException NativeHead × NativeStore :=
  let key := call.key QuestionKind.typeByte
  match if limits.cacheable key then store.table.lookup key else none with
  | some found => (.ok found, store)
  | none =>
    match bundle.nativeHeadOf call with
    | .error failure => (.error failure, store)
    | .ok head =>
      let size := capacities.recorded 4
      if limits.cacheable key ∧ size ≤ limits.bytes then
        (.ok head, store.insert sizeSub limits.entries limits.bytes size key head true)
      else (.ok head, store)

namespace LayaBundle

variable (bundle : LayaBundle)

/-- The state of an input, cut at the limit of the context. -/
def nativeState (input : Bytes) : List Int :=
  let limit :=
    if bundle.contextTokenLimit ≠ 0 then min bundle.maxLen bundle.contextTokenLimit
    else bundle.maxLen
  (bundle.nativeEncode input).take limit

/-- A head, as much of a state as there is room for, and a separator. -/
def joinState (head : NativeHead) (state : List Int) : List Int :=
  let room :=
    if head.ids.length + 1 < bundle.maxLen then sizeSub (sizeSub bundle.maxLen head.ids.length) 1
    else 0
  (head.ids ++ state.take room ++ [bundle.sepId]).take bundle.maxLen

/-- The row of a request with its labels, its head and its state. -/
def makeRow (kind : QuestionKind) (labels : List Bytes) (head : NativeHead) (state : List Int) :
    NativeRow :=
  let sequence := bundle.joinState head state
  ⟨labels, sequence, head.markers, kind, { inputTokens := UInt64.ofNat sequence.length },
    bundle.temperature kind labels.length⟩

end LayaBundle

namespace NativeLocals

/-- The variables before the loop over the requests. -/
def start (count : Nat) : NativeLocals where
  responses := List.replicate count { scores := [], modelId := [] }
  reports := List.replicate count {}

/-- Sets the response of a request, and its report. -/
def respond (modelId : Bytes) (index : Nat) (scores : List Floating) (report : TokenUsage)
    (locals : NativeLocals) : NativeLocals :=
  { locals with
    responses := locals.responses.set index
      { scores := scores
        modelId := modelId
        metadata := { provider := lit "laya.cpp", usage := some index } }
    reports := locals.reports.set index report }

/-- The end of the turn for a choice with one option. -/
def placeCertain (modelId : Bytes) (index : Nat) (locals : NativeLocals) : NativeLocals :=
  locals.respond modelId index [.finite 1] {}

/-- The end of the turn for a request with a row. -/
def placeRow (modelId : Bytes) (index : Nat) (row : NativeRow) (locals : NativeLocals) :
    NativeLocals :=
  let locals := locals.respond modelId index [] row.usage
  let batch := locals.batch
  { locals with
    rows := locals.rows ++ [index]
    sequences := locals.sequences ++ [row.ids]
    markers := locals.markers ++ [row.markers]
    calibration := locals.calibration ++ [row.calibration]
    batch :=
      { batch with
        length := max batch.length (int32 row.ids.length)
        options := max batch.options (int32 row.labels.length)
        lengths := batch.lengths ++ [int32 row.ids.length]
        counts := batch.counts ++ [int32 row.labels.length]
        types := batch.types ++ [(row.kind.qtype : Int)] } }

end NativeLocals

/-! ## The vectors -/

namespace NativeBatch

/-- Whether the markers of a row are as many as its options and inside its sequence. -/
def rowFits (batch : NativeBatch) (row : Nat) (markers : List Int) : Bool :=
  decide ((markers.length : Int) = batch.counts.getD row 0) &&
    markers.all fun marker => decide (0 ≤ marker ∧ marker < batch.lengths.getD row 0)

/-- The turn of the loop over the columns of a row. -/
def setMarker (batch : NativeBatch) (row : Nat) (markers : List Int) (cells : List Int)
    (col : Nat) : Option (List Int) := do
  let first ← checkedInt (row * batch.options)
  let position ← checkedInt (first + col)
  let start ← checkedInt (row * batch.length)
  let value ← checkedInt
    (start + if (col : Int) < batch.counts.getD row 0 then markers.getD col 0 else 0)
  return cells.set position.toNat value

/-- Copies a row into the vectors. -/
def copyRow (batch : NativeBatch) (row : Nat) (sequence markers : List Int) :
    Option NativeBatch := do
  let start ← checkedInt (row * batch.length)
  let cells ← (List.range batch.options.toNat).foldlM (batch.setMarker row markers) batch.markers
  return { batch with
    ids := writeAt start.toNat sequence batch.ids
    markers := cells }

/-- The error of a row whose markers do not fit. -/
def markersError : Error :=
  { code := .invalidRequest, message := lit "native option markers exceed their sequence" }

/-- The loop that copies the rows into the vectors, for `n` rows from a given one on. -/
def copyRows (locals : NativeLocals) : Nat → Nat → NativeBatch → Option (Result NativeBatch)
  | 0, _, batch => some (.ok batch)
  | n + 1, row, batch =>
    let markers := locals.markers.getD row []
    if !batch.rowFits row markers then some (.error markersError)
    else
      match batch.copyRow row (locals.sequences.getD row []) markers with
      | none => none
      | some batch => copyRows locals n (row + 1) batch

end NativeBatch

namespace NativeBackend

variable (backend : NativeBackend)

/-! ## The loop over the requests -/

/-- `states`: the state of an input, encoded where no earlier request has it. -/
def stateOf (states : List (Bytes × List Int)) (input : Bytes) :
    List Int × List (Bytes × List Int) :=
  recalled backend.bundle.nativeState states input

/-- The loop over the requests, from the request with a given number on. -/
def collect (capacities : Nat → Capacities) :
    Nat → List InferenceRequest → NativeLocals → NativeStore → List (Bytes × List Int) →
      Except StdException NativeLocals × NativeStore
  | _, [], locals, store, _ => (.ok locals, store)
  | index, request :: rest, locals, store, states =>
    match LayaBundle.nativeLabels request with
    | .error failure => (.error failure, store)
    | .ok labels =>
      if request.questionKind = .choice ∧ request.options.length = 1 then
        collect capacities (index + 1) rest (locals.placeCertain backend.bundle.modelId index) store
          states
      else
        match nativePrepareHead backend.bundle backend.limits store
            ⟨request.questionKind, request.question, labels⟩ (capacities index) with
        | (.error failure, store) => (.error failure, store)
        | (.ok head, store) =>
          let (state, states) := backend.stateOf states request.input
          let row := backend.bundle.makeRow request.questionKind labels head state
          collect capacities (index + 1) rest (locals.placeRow backend.bundle.modelId index row)
            store states

/-! ## The rows -/

/-- The error of a batch whose products are not `int`s. -/
def dimensionsError : Error :=
  { code := .invalidRequest, message := lit "native tensor dimensions exceed int limits" }

/-- Lays the rows out, behind the loop over the requests. -/
def layOutRows (locals : NativeLocals) : Option (Result NativeLocals) :=
  let batch := { locals.batch with size := int32 locals.rows.length }
  if (intMax : Int) / max batch.length batch.options < batch.size then
    some (.error dimensionsError)
  else
    let size := batch.size.toNat
    let batch :=
      { batch with
        ids := List.replicate (size * batch.length.toNat % sizeModulus) backend.bundle.padId
        markers := List.replicate (size * batch.options.toNat % sizeModulus) 0 }
    (NativeBatch.copyRows locals size 0 batch).map fun result =>
      result.map fun batch => { locals with batch := batch }

/-! ## Logits -/

/-- The error of logits that are not finite. -/
def finiteError : Error :=
  { code := .invalidBackendOutput,
    message := lit "native logits contain a non-finite active value" }

/-- The scores of the logits of a row. -/
def rowScores (logits : List Floating) (calibration : Floating) : Result (List Floating) :=
  if !logits.all Floating.isFinite then .error finiteError
  else
    let maximum := logits.getD (Floating.maxElement logits) .nan
    let round := backend.arith.float
    let scores := logits.map fun value =>
      backend.exp ((value.sub round maximum).div round calibration)
    let sum := scores.foldl (Floating.add round) .zero
    .ok (scores.map fun score => score.div round sum)

/-- The loop over the rows of the logits, for `n` rows from a given one on. -/
def decodeRows (locals : NativeLocals) (logits : List Floating) :
    Nat → Nat → List InferenceResponse → Option (Result (List InferenceResponse))
  | 0, _, responses => some (.ok responses)
  | n + 1, row, responses =>
    match checkedInt (row * locals.batch.options) with
    | none => none
    | some first =>
      let active := (logits.drop first.toNat).take (locals.batch.counts.getD row 0).toNat
      match backend.rowScores active (locals.calibration.getD row .nan) with
      | .error failure => some (.error failure)
      | .ok scores =>
        decodeRows locals logits n (row + 1)
          (responses.modify (locals.rows.getD row 0) fun response =>
            { response with scores := response.scores ++ scores })

/-- The error of logits with another shape. -/
def shapeError : Error :=
  { code := .invalidBackendOutput, message := lit "native logits have unexpected shape" }

/-- What is read off the logits. -/
def decode (locals : NativeLocals) (logits : List Floating) : Option (Result Predicted) :=
  let size := locals.batch.size.toNat
  if logits.length ≠ size * locals.batch.options.toNat % sizeModulus then some (.error shapeError)
  else
    (backend.decodeRows locals logits size 0 locals.responses).map fun result =>
      result.map fun responses => ⟨responses, locals.reports⟩

/-! ## Calls -/

/-- The error of a batch with too many requests. -/
def countError : Error :=
  { code := .invalidRequest, message := lit "native batch dimensions exceed int limits" }

/-- What `predict_batch` does between the loop over the requests and the call of the model. -/
def prepare (call : NativeCall) (requests : List InferenceRequest) (locals : NativeLocals) :
    Option (Result NativeLocals) :=
  if locals.rows = [] then some (.ok locals)
  else
    match backend.layOutRows locals with
    | some (.ok locals) =>
      match firstFailure call.check (2 * requests.length) requests with
      | some failure => some (.error failure)
      | none => some (.ok locals)
    | rejected => rejected

/-- The first half of `predict_batch`, up to the call of the model. -/
def admitBatch (call : NativeCall) (requests : List InferenceRequest) (store : NativeStore) :
    Option (Result NativeLocals) × NativeStore :=
  match firstFailure call.check 0 requests with
  | some failure => (some (.error failure), store)
  | none =>
    if intMax / backend.bundle.maxLen < requests.length then (some (.error countError), store)
    else
      match firstFailure call.check requests.length requests with
      | some failure => (some (.error failure), store)
      | none =>
        match backend.collect call.capacities 0 requests (.start requests.length) store [] with
        | (.error failure, store) => (some (.error (nativeError failure)), store)
        | (.ok locals, store) => (backend.prepare call requests locals, store)

/-- The second half of `predict_batch`. -/
def execute (call : NativeCall) (requests : List InferenceRequest) (locals : NativeLocals) :
    Option (Result Predicted) :=
  if locals.rows = [] then some (.ok ⟨locals.responses, locals.reports⟩)
  else
    match backend.forward locals.batch with
    | .error failure => some (.error (nativeError failure))
    | .ok logits =>
      match firstFailure call.check (3 * requests.length) requests with
      | some failure => some (.error failure)
      | none => backend.decode locals logits

/-- `predict_batch`. -/
def predictBatch (call : NativeCall) (requests : List InferenceRequest) (store : NativeStore) :
    Option (Result Predicted) × NativeStore :=
  if requests = [] then (some (.ok ⟨[], []⟩), store)
  else
    match backend.admitBatch call requests store with
    | (none, store) => (none, store)
    | (some (.error failure), store) => (some (.error failure), store)
    | (some (.ok locals), store) => (backend.execute call requests locals, store)

/-- `predict`. -/
def predict (call : NativeCall) (request : InferenceRequest) (store : NativeStore) :
    Option (Result Predicted) × NativeStore :=
  let (result, store) := backend.predictBatch call [request] store
  (result.map fun result =>
    result.map fun predicted => { predicted with output := predicted.output.take 1 }, store)

/-- The cache of a backend after some calls. -/
def after (history : List (NativeCall × List InferenceRequest)) : NativeStore :=
  history.foldl (fun store entry => (backend.predictBatch entry.1 entry.2 store).2) {}

end NativeBackend

end Jevt
