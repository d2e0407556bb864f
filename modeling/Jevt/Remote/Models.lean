import Jevt.Remote.Batch

/-!
# The catalog of models

`typesafe_backend::list_models` of `src/remote.cpp`, next to the transport calls it makes. Its
second request is the only one besides the posts of `predict_batch`.
-/

namespace Jevt

/-- `remote_model`. -/
structure RemoteModel where
  name : Bytes
  description : Bytes
  releaseDate : Bytes
  deriving DecidableEq, Repr

/-- The error of a provider without a catalog. -/
def unsupportedCatalog : Error :=
  { code := .unsupportedFeature
    message := lit "OpenRouter model discovery has a different contract" }

/-- The error of a reply that is not a catalog. -/
def invalidCatalog : Error :=
  { code := .invalidBackendOutput, message := lit "invalid model catalog response" }

/-- What is read of an entry of the catalog. -/
def readModel (value : JsonValue) : Option RemoteModel := do
  let name ← (← value.member (lit "name")).getString
  let description ← (← value.member (lit "description")).getString
  let releaseDate ← (← value.member (lit "release_date")).getString
  if name = [] then none else some ⟨name, description, releaseDate⟩

/-- What is read of a catalog. -/
def readModels (codec : JsonCodec) (body : Bytes) : Option (List RemoteModel) := do
  match ← (← codec.parse body).member (lit "models") with
  | .array items => items.mapM readModel
  | _ => none

namespace TypesafeBackend

variable (backend : TypesafeBackend) (w : World) (codec : JsonCodec)

/-- The deadline and the stop source of a request for the catalog. -/
def catalogExecution (options : EvaluationOptions) (now : Int) : RemoteExecution where
  deadline := options.deadline.elim (now + backend.options.callTimeout * 1000000)
    (min (now + backend.options.callTimeout * 1000000) ·)
  cancellation := options.cancellation.toList

/-- `list_models`, whose first reading has a given number. -/
def listModels (options : EvaluationOptions) (reading : Nat) :
    List Attempt × Result (List RemoteModel) :=
  if backend.options.provider = .openrouter then ([], .error unsupportedCatalog)
  else
    let execution := catalogExecution backend options (w.env reading).now
    let (attempts, sent) :=
      send backend w (lit "GET") (lit "/v1/models") [] execution (reading + 1)
    match sent with
    | .error failure => (attempts, .error failure)
    | .ok response =>
      match readModels codec response.value.body with
      | none => (attempts, .error invalidCatalog)
      | some models =>
        match execution.error (w.env (reading + 6 * attempts.length + 2)) with
        | some failure => (attempts, .error failure)
        | none => (attempts, .ok models)

/-- The calls of a request for the catalog are those of `send`, if the provider has one. -/
theorem listModels_attempts (options : EvaluationOptions) (reading : Nat) :
    (listModels backend w codec options reading).1 =
      if backend.options.provider = .openrouter then []
      else (send backend w (lit "GET") (lit "/v1/models") []
        (catalogExecution backend options (w.env reading).now) (reading + 1)).1 := by
  unfold listModels
  split
  · rfl
  · dsimp only
    split
    · rfl
    · split
      · rfl
      · split <;> rfl

end TypesafeBackend

end Jevt
