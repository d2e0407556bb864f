import Jevt.Laya.HeadCache
import Jevt.Library.Rows
import Jevt.Runtime.Backend

/-!
# Batches of the ONNX adapter

`predict_batch` of `src/laya.cpp`: the loop over the requests, the buffers that are taken from a
pool and given back, the five tensors in them, and the rows of the logits. The buffers are flat, and
row `i` of a matrix starts at `i` times its width.

The session is a function on the tensors. A call reads the clock and the stop sources once for each
request in each of its three rounds of checks. What `capacity()` reports is part of the call, and
the usage report of a row is at the address that is the number of the row.
-/

namespace Jevt

open Library

/-- What the session is given. -/
structure Tensors where
  batch : Nat
  length : Nat
  width : Nat
  inputIds : List Int
  attention : List Int
  positions : List Int
  mask : List Bool
  qtypes : List Int

/-- A value that the session returns. -/
inductive SessionValue where
  | tensor (float : Bool) (shape : List Nat) (values : List Floating)
  | other

/-- `buffers`. The length of the mask is `mask_capacity`. -/
structure Buffers where
  inputIds : List Int := []
  attention : List Int := []
  positions : List Int := []
  qtypes : List Int := []
  mask : List Bool := []

/-- The parts of `laya_backend::impl` that do not change. -/
structure LayaBackend where
  bundle : LayaBundle
  limits : HeadLimits := {}
  reusableBuffers : Nat := 2
  reusableBufferBytes : Nat := 8 * 1024 * 1024
  arith : Arithmetic
  exp : Floating → Floating
  session : Tensors → List SessionValue

/-- The parts of `laya_backend::impl` that a call may change. -/
structure LayaState where
  heads : HeadCache := {}
  pool : List Buffers := []
  bufferReuses : Nat := 0
  runs : Nat := 0

/-- What a call gets from outside: the environment of each check, the capacities of the entries it
puts into the cache, and those of the four vectors of its buffers. -/
structure LayaCall where
  check : Nat → Environment
  capacities : Nat → Capacities
  retained : Nat

/-- The first failure of a round of checks, whose first check has a given number. -/
def firstFailure (env : Nat → Environment) : Nat → List InferenceRequest → Option Error
  | _, [] => none
  | k, request :: rest =>
    match executionError (env k) request with
    | some failure => some failure
    | none => firstFailure env (k + 1) rest

/-! ## Buffers -/

/-- The buffers for a batch before its rows are written. -/
def Buffers.assign (bundle : LayaBundle) (batch length width : Nat) (buffers : Buffers) : Buffers :=
  let mask :=
    if buffers.mask.length < batch * width then List.replicate (batch * width) false
    else buffers.mask
  { inputIds := List.replicate (batch * length) bundle.padId
    attention := List.replicate (batch * length) 0
    positions := List.replicate (batch * width) 0
    mask := List.replicate (batch * width) false ++ mask.drop (batch * width)
    qtypes := List.replicate batch 0 }

/-- Writes a row. -/
def Buffers.writeItem (length width i : Nat) (item : LayaItem) (buffers : Buffers) : Buffers :=
  { inputIds := writeAt (i * length) item.ids buffers.inputIds
    attention := writeAt (i * length) (List.replicate item.ids.length 1) buffers.attention
    positions := writeAt (i * width) (item.markers.map Int.ofNat) buffers.positions
    mask := writeAt (i * width) (List.replicate item.markers.length true) buffers.mask
    qtypes := writeAt i [(item.qtype : Int)] buffers.qtypes }

/-- The loop that writes the rows. -/
def Buffers.writeItems (length width : Nat) : Nat → List LayaItem → Buffers → Buffers
  | _, [], buffers => buffers
  | i, item :: rest, buffers =>
    Buffers.writeItems length width (i + 1) rest (buffers.writeItem length width i item)

/-- `length`, behind the loop over the requests. -/
def batchLength (items : List LayaItem) : Nat :=
  items.foldl (fun length item => max length item.ids.length) 8

/-- `marker_width`, behind the loop over the requests. -/
def batchWidth (items : List LayaItem) : Nat :=
  items.foldl (fun width item => max width item.markers.length) 2

/-- The buffers with the rows of a batch. -/
def Buffers.fill (bundle : LayaBundle) (items : List LayaItem) (buffers : Buffers) : Buffers :=
  (buffers.assign bundle items.length (batchLength items) (batchWidth items)).writeItems
    (batchLength items) (batchWidth items) 0 items

/-- The tensors over the buffers of a batch. -/
def Buffers.tensors (items : List LayaItem) (buffers : Buffers) : Tensors where
  batch := items.length
  length := batchLength items
  width := batchWidth items
  inputIds := buffers.inputIds
  attention := buffers.attention
  positions := buffers.positions
  mask := buffers.mask.take (items.length * batchWidth items)
  qtypes := buffers.qtypes

namespace LayaBackend

variable (backend : LayaBackend)

/-- `acquire_buffers`. -/
def acquireBuffers (state : LayaState) : Buffers × LayaState :=
  match state.pool.getLast? with
  | none => ({}, state)
  | some buffers =>
    (buffers,
      { state with pool := state.pool.dropLast, bufferReuses := state.bufferReuses + 1 })

/-- The destructor of a lease. -/
def releaseBuffers (retained : Nat) (buffers : Buffers) (state : LayaState) : LayaState :=
  if backend.reusableBufferBytes < retained * 8 + buffers.mask.length then state
  else if state.pool.length < backend.reusableBuffers then
    { state with
      pool := state.pool ++
        [{ buffers with inputIds := List.replicate buffers.inputIds.length 0 }] }
  else state

/-! ## Logits -/

/-- `softmax`. -/
def softmax (logits : List Floating) (temperature : Floating) : Result (List Floating) :=
  if !Floating.lt .zero temperature || !temperature.isFinite then
    .error
      { code := .backendFailure
        message := lit "Laya backend: Laya temperature must be finite and positive" }
  else
    let maximum := logits.getD (Floating.maxElement logits) .nan
    let round := backend.arith.float
    let probabilities := logits.map fun value =>
      backend.exp (((value.sub round maximum)).div round temperature)
    let total := probabilities.foldl (Floating.add round) .zero
    .ok (probabilities.map fun value => value.div round total)

/-- A row of the logits. -/
def decodeRow (width : Nat) (values : List Floating) (i : Nat) (item : LayaItem) :
    Result InferenceResponse :=
  let logits := (values.drop (i * width)).take item.options.length
  match logits.findIdx? fun value => !value.isFinite with
  | some column =>
    .error
      { code := .invalidBackendOutput
        message := lit "Laya logits contain a non-finite value at active option [" ++ decimal i ++
          lit ", " ++ decimal column ++ lit "]" }
  | none =>
    (backend.softmax logits item.temperature).map fun scores =>
      { scores := scores
        modelId := backend.bundle.modelId
        metadata := { provider := lit "onnxruntime", usage := some i } }

/-- The loop over the rows of the logits. -/
def decodeRows (width : Nat) (values : List Floating) :
    Nat → List LayaItem → Result (List InferenceResponse)
  | _, [] => .ok []
  | i, item :: rest =>
    match backend.decodeRow width values i item with
    | .error failure => .error failure
    | .ok response => (decodeRows width values (i + 1) rest).map (response :: ·)

/-- The error of an output that is not one tensor. -/
def noTensor : Error :=
  { code := .invalidBackendOutput, message := lit "Laya logits output must be a tensor" }

/-- The error of logits with another type or shape. -/
def wrongShape (items : List LayaItem) : Error :=
  { code := .invalidBackendOutput
    message := lit "Laya logits must be FLOAT with exact shape [" ++ decimal items.length ++
      lit ", " ++ decimal (batchWidth items) ++ lit "] (batch, marker_width)" }

/-- What is read off the output of the session. -/
def decode (items : List LayaItem) (outputs : List SessionValue) : Result Predicted :=
  match outputs with
  | [.tensor float shape values] =>
    if float = false ∨ shape ≠ [items.length, batchWidth items] then .error (wrongShape items)
    else
      (backend.decodeRows (batchWidth items) values 0 items).map fun output =>
        ⟨output, items.map LayaItem.usage⟩
  | _ => .error noTensor

/-! ## Calls -/

/-- `states`: the state of an input, encoded where no earlier request has it. -/
def stateOf (states : List (Bytes × List Int)) (input : Bytes) :
    List Int × List (Bytes × List Int) :=
  match states.lookup input with
  | some state => (state, states)
  | none =>
    let state := backend.bundle.encodeState input
    (state, (input, state) :: states)

/-- The loop over the requests, from the request with a given number on. -/
def collect (capacities : Nat → Capacities) :
    Nat → List InferenceRequest → HeadCache → List (Bytes × List Int) →
      Result (List LayaItem) × HeadCache
  | _, [], heads, _ => (.ok [], heads)
  | i, request :: rest, heads, states =>
    match renderOptions request with
    | .error failure => (.error failure, heads)
    | .ok options =>
      let (state, states) := backend.stateOf states request.input
      let (head, heads) := prepareHead backend.bundle backend.limits heads
        ⟨request.questionKind, request.question, options⟩ (capacities i)
      match backend.bundle.makeItem sizeSub request options head state with
      | .error failure => (.error failure, heads)
      | .ok item =>
        let (items, heads) := collect capacities (i + 1) rest heads states
        (items.map (item :: ·), heads)

/-- The error of a batch that is too large. -/
def overflowError : Error :=
  { code := .invalidRequest, message := lit "Laya batch dimensions overflow" }

/-- Whether the dimensions of a batch overflow. -/
def overflows (items : List LayaItem) : Bool :=
  decide ((sizeModulus - 1) / max (batchLength items) (batchWidth items) < items.length)

/-- The second half of `predict_batch`, with the buffers of the batch. -/
def execute (call : LayaCall) (requests : List InferenceRequest) (items : List LayaItem)
    (buffers : Buffers) (state : LayaState) : Result Predicted × LayaState :=
  match firstFailure call.check requests.length requests with
  | some failure => (.error failure, state)
  | none =>
    let state := { state with runs := state.runs + 1 }
    let outputs := backend.session (buffers.tensors items)
    match firstFailure call.check (2 * requests.length) requests with
    | some failure => (.error failure, state)
    | none => (backend.decode items outputs, state)

/-- `predict_batch`. -/
def predictBatch (call : LayaCall) (requests : List InferenceRequest) (state : LayaState) :
    Result Predicted × LayaState :=
  if requests = [] then (.ok ⟨[], []⟩, state)
  else
    match firstFailure call.check 0 requests with
    | some failure => (.error failure, state)
    | none =>
      let (items, heads) := backend.collect call.capacities 0 requests state.heads []
      let state := { state with heads := heads }
      match items with
      | .error failure => (.error failure, state)
      | .ok items =>
        if overflows items then (.error overflowError, state)
        else
          let (buffers, state) := acquireBuffers state
          let buffers := buffers.fill backend.bundle items
          let (result, state) := backend.execute call requests items buffers state
          (result, backend.releaseBuffers call.retained buffers state)

/-- `predict`. -/
def predict (call : LayaCall) (request : InferenceRequest) (state : LayaState) :
    Result Predicted × LayaState :=
  let (result, state) := backend.predictBatch call [request] state
  (result.map fun predicted => { predicted with output := predicted.output.take 1 }, state)

end LayaBackend

end Jevt
