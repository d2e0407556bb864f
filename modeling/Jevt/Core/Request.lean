import Mathlib.Algebra.GroupWithZero.Nat
import Jevt.Text

/-!
# Requests and their execution

The part of `include/jevt/core.hpp` that every backend shares: a request with its deadline and its
stop token, the errors, and `backend::predict_batch`, which a backend inherits unless it has its
own. Nothing here looks into a response, so its type is a parameter.

Time is counted in nanoseconds. A stop source is a number, and `Environment` is what a thread sees
when it looks at the clock and at the stop sources.
-/

namespace Jevt

/-- `content_kind`. -/
inductive ContentKind where
  | text
  | json
  deriving DecidableEq, Repr

/-- `content_view`. -/
structure ContentView where
  content : Bytes := []
  kind : ContentKind := .text
  deriving DecidableEq, Repr

/-- `error_code`. -/
inductive ErrorCode where
  | invalidRequest
  | backendFailure
  | invalidBackendOutput
  | notInitialized
  | overloaded
  | shuttingDown
  | timeout
  | cancelled
  | authentication
  | rateLimited
  | connectionFailure
  | remoteError
  | unsupportedFeature
  deriving DecidableEq, Repr

/-- `error`. -/
structure Error where
  code : ErrorCode
  message : Bytes
  statusCode : Option Int := none
  deriving DecidableEq, Repr

/-- `result`: a value or an error. -/
abbrev Result (ρ : Type) := Except Error ρ

/-- `token_usage`. The counters are `std::uint64_t` and wrap. -/
structure TokenUsage where
  inputTokens : UInt64 := 0
  outputTokens : UInt64 := 0
  deriving DecidableEq, Repr

/-- `inference_request::kind`. -/
inductive QuestionKind where
  | choice
  | noul
  | score
  deriving DecidableEq, Repr

/-- `inference_request`. A default `std::stop_token` has no source. -/
structure InferenceRequest where
  decisionId : Bytes := []
  question : Bytes := []
  input : Bytes := []
  options : List Bytes := []
  questionKind : QuestionKind := .choice
  inputKind : ContentKind := .text
  instructions : ContentView := {}
  criteriaMetadata : List ContentView := []
  deadline : Option Int := none
  cancellation : Option Nat := none
  deriving DecidableEq, Repr

/-- `owned_inference_request::bytes`. -/
def InferenceRequest.bytes (request : InferenceRequest) : Nat :=
  request.decisionId.length + request.question.length + request.input.length +
    request.instructions.content.length + (request.options.map List.length).sum +
    (request.criteriaMetadata.map fun criterion => criterion.content.length).sum

/-! ## Cancellation and deadlines -/

/-- What `steady_clock::now()` and `stop_requested()` answer. -/
structure Environment where
  now : Int
  stopped : List Nat := []
  deriving DecidableEq, Repr

/-- Time has passed and more sources have been stopped. -/
structure Environment.Earlier (env env' : Environment) : Prop where
  now : env.now ≤ env'.now
  stopped : env.stopped ⊆ env'.stopped

/-- The error of a stopped request. -/
def cancelledError : Error := { code := .cancelled, message := lit "inference cancelled" }

/-- The error of a request after its deadline. -/
def timeoutError : Error := { code := .timeout, message := lit "inference deadline exceeded" }

/-- `execution_error`. -/
def executionError (env : Environment) (request : InferenceRequest) : Option Error :=
  if request.cancellation.any fun source => source ∈ env.stopped then some cancelledError
  else if request.deadline.any fun deadline => deadline ≤ env.now then some timeoutError
  else none

/-- `backend::predict_batch`, over what the backend predicts for one request: the requests are
predicted one after the other, and each is checked before and after. The check with number `k` sees
`env k`. -/
def predictBatch {ρ : Type} (env : Nat → Environment) (predict : InferenceRequest → Result ρ) :
    Nat → List InferenceRequest → Result (List ρ)
  | _, [] => .ok []
  | k, request :: rest =>
    match executionError (env k) request with
    | some failure => .error failure
    | none =>
      match predict request with
      | .error failure => .error failure
      | .ok response =>
        match executionError (env (k + 1)) request with
        | some failure => .error failure
        | none => (predictBatch env predict (k + 2) rest).map (response :: ·)

/-- The descriptions of false and of true, with the defaults where they are empty. -/
def noulDescriptions (no yes : Bytes) : List Bytes :=
  [lit "false: " ++ if no = [] then lit "no, the statement does not hold" else no,
    lit "true: " ++ if yes = [] then lit "yes, the statement holds" else yes]

/-- `local_noul_criteria`. -/
def localNoulCriteria (request : InferenceRequest) : Except StdException (List Bytes) :=
  match request.criteriaMetadata with
  | [] => .ok (noulDescriptions [] [])
  | [no, yes] => .ok (noulDescriptions no.content yes.content)
  | _ => .error (.invalidArgument (lit "Noul requires false and true criterion metadata"))

/-! ## What follows -/

theorem Environment.Earlier.refl (env : Environment) : env.Earlier env :=
  ⟨le_rfl, List.Subset.refl _⟩

theorem Environment.Earlier.trans {env env' env'' : Environment} (h : env.Earlier env')
    (h' : env'.Earlier env'') : env.Earlier env'' :=
  ⟨h.now.trans h'.now, fun _ hmem => h'.stopped (h.stopped hmem)⟩

/-- The error of a request is a cancellation or a timeout of its own. -/
theorem executionError_eq_some {env : Environment} {request : InferenceRequest} {failure : Error}
    (h : executionError env request = some failure) :
    (failure = cancelledError ∧ ∃ source ∈ request.cancellation, source ∈ env.stopped) ∨
      (failure = timeoutError ∧ ∃ deadline ∈ request.deadline, deadline ≤ env.now) := by
  unfold executionError at h
  split_ifs at h with hstopped hlate
  · exact .inl ⟨(Option.some.inj h).symm, by simpa [Option.any_eq_true] using hstopped⟩
  · exact .inr ⟨(Option.some.inj h).symm, by simpa [Option.any_eq_true] using hlate⟩

/-- A request without an error has neither been stopped nor run out of time. -/
theorem executionError_eq_none {env : Environment} {request : InferenceRequest} :
    executionError env request = none ↔
      (∀ source ∈ request.cancellation, source ∉ env.stopped) ∧
        ∀ deadline ∈ request.deadline, env.now < deadline := by
  have hcancelled : (request.cancellation.any fun source => source ∈ env.stopped) = true ↔
      ¬∀ source ∈ request.cancellation, source ∉ env.stopped := by
    simp [Option.any_eq_true]
  have hlate : (request.deadline.any fun deadline => deadline ≤ env.now) = true ↔
      ¬∀ deadline ∈ request.deadline, env.now < deadline := by
    simp [Option.any_eq_true]
  unfold executionError
  split_ifs with hstopped hpassed
  · exact ⟨nofun, fun h => absurd h.1 (hcancelled.1 hstopped)⟩
  · exact ⟨nofun, fun h => absurd h.2 (hlate.1 hpassed)⟩
  · rw [hcancelled, not_not] at hstopped
    rw [hlate, not_not] at hpassed
    exact ⟨fun _ => ⟨hstopped, hpassed⟩, fun _ => rfl⟩

/-- The inherited `predict_batch` answers requests that stay without errors one by one. -/
theorem predictBatch_eq_ok {ρ : Type} {env : Nat → Environment} {f : InferenceRequest → ρ} :
    ∀ {requests : List InferenceRequest} {k : Nat},
      (∀ request ∈ requests, ∀ i, executionError (env i) request = none) →
      predictBatch env (fun request => .ok (f request)) k requests = .ok (requests.map f)
  | [], _, _ => rfl
  | request :: rest, k, h => by
      obtain ⟨hrequest, hrest⟩ := List.forall_mem_cons.1 h
      unfold predictBatch
      rw [hrequest, hrequest, predictBatch_eq_ok hrest]
      rfl

end Jevt
