import Jevt.Core.Floating
import Jevt.Core.Request

/-!
# The remote backend and its options

The types of `include/jevt/remote.hpp` and the constructor of `typesafe_backend` in
`src/remote.cpp`. Durations of the options are in milliseconds, as in the source.

A `std::stop_token` is the list of the stop sources that stop it: the one of a call that serves
several requests is stopped by each of theirs.
-/

namespace Jevt

/-- `remote_provider`. -/
inductive RemoteProvider where
  | typesafe
  | openrouter
  deriving DecidableEq, Repr

/-- `remote_options`, with its default member initializers. -/
structure RemoteOptions where
  apiKey : Bytes
  baseUrl : Bytes := lit "https://api.typesafe.ai"
  model : Bytes := lit "jev-latest"
  provider : RemoteProvider := .typesafe
  callTimeout : Int := 30000
  attemptTimeout : Int := 10000
  maxRetries : Nat := 2
  initialBackoff : Int := 500
  maxBackoff : Int := 5000
  maxRequestBytes : Nat := 4 * 1024 * 1024
  maxResponseBytes : Nat := 4 * 1024 * 1024
  allowInsecureLoopback : Bool := false
  deriving DecidableEq, Repr

/-- `http_request`. -/
structure HttpRequest where
  method : Bytes
  url : Bytes
  headers : List (Bytes × Bytes)
  body : Bytes
  deadline : Int
  cancellation : List Nat
  maxResponseBytes : Nat := 4 * 1024 * 1024
  deriving DecidableEq, Repr

/-- `http_response`. The headers are in the order of the map. -/
structure HttpResponse where
  status : Int := 0
  body : Bytes := []
  headers : List (Bytes × Bytes) := []
  deriving DecidableEq, Repr

/-- The `evaluation_options` of a remote call, which always has a deadline. -/
structure RemoteExecution where
  deadline : Int
  cancellation : List Nat := []
  deriving DecidableEq, Repr

/-- `execution_error` of the options of a remote call. -/
def RemoteExecution.error (execution : RemoteExecution) (env : Environment) : Option Error :=
  if execution.cancellation.any fun source => source ∈ env.stopped then some cancelledError
  else if execution.deadline ≤ env.now then some timeoutError
  else none

/-- The number of milliseconds of `std::chrono::hours{24}`. -/
def dayMs : Int := 86400000

/-! ## The constructor -/

/-- The host of an authority as `validate_url` reads it for plain HTTP. -/
def loopbackHost (authority : Bytes) : Except StdException Bytes :=
  if authority.head? = some 0x5b then
    match authority.dropWhile (· ≠ 0x5d) with
    | [] => .error (.invalidArgument (lit "invalid loopback host"))
    | _ :: after =>
      if after.head?.any (· ≠ 0x3a) then
        .error (.invalidArgument (lit "invalid loopback host"))
      else .ok (authority.takeWhile (· ≠ 0x5d) ++ [0x5d])
  else .ok (authority.takeWhile (· ≠ 0x3a))

/-- `validate_url`. -/
def validateUrl (options : RemoteOptions) : Except StdException Unit :=
  let url := options.baseUrl
  let secure := (lit "https://").isPrefixOf url
  if !secure && !(lit "http://").isPrefixOf url then
    .error (.invalidArgument (lit "remote endpoint requires HTTPS"))
  else if url.any fun c => c ≤ 0x20 || 0x7f ≤ c || c = 0x5c then
    .error (.invalidArgument (lit "invalid remote endpoint character"))
  else if url.any fun c => c = 0x3f || c = 0x23 then
    .error (.invalidArgument (lit "endpoint must not contain query or fragment"))
  else
    let authority := (url.drop (if secure then 8 else 7)).takeWhile (· ≠ 0x2f)
    if authority = [] ∨ (0x40 : UInt8) ∈ authority then
      .error (.invalidArgument (lit "endpoint requires a host without user credentials"))
    else if secure then .ok ()
    else do
      let host ← loopbackHost authority
      if !options.allowInsecureLoopback ||
          !decide (host = lit "localhost" ∨ host = lit "127.0.0.1" ∨ host = lit "[::1]") then
        .error (.invalidArgument
          (lit "plain HTTP is restricted to explicitly enabled loopback tests"))
      else .ok ()

/-- The limits the constructor of `typesafe_backend` asks for. -/
def RemoteOptions.invalidLimits (options : RemoteOptions) : Bool :=
  decide (options.model = [] ∨ options.callTimeout ≤ 0 ∨ options.attemptTimeout ≤ 0 ∨
    dayMs < options.callTimeout ∨ dayMs < options.attemptTimeout ∨ 100 < options.maxRetries ∨
    options.initialBackoff < 0 ∨ options.maxBackoff < options.initialBackoff ∨
    dayMs < options.maxBackoff ∨ options.maxRequestBytes = 0 ∨ options.maxResponseBytes = 0)

/-- A `typesafe_backend` is its checked options; the transport belongs to the outside. -/
structure TypesafeBackend where
  options : RemoteOptions
  deriving DecidableEq, Repr

/-- The constructor of `typesafe_backend`. -/
def TypesafeBackend.create (options : RemoteOptions) : Except StdException TypesafeBackend :=
  if options.apiKey = [] then
    .error (.invalidArgument (lit "remote API key must be explicitly supplied"))
  else if options.apiKey.any fun c => c < 0x21 || 0x7e < c then
    .error (.invalidArgument (lit "invalid API key characters"))
  else if options.invalidLimits then
    .error (.invalidArgument (lit "invalid remote resource/time limits"))
  else do
    validateUrl options
    .ok ⟨{ options with
      baseUrl := (options.baseUrl.reverse.dropWhile (· = 0x2f)).reverse }⟩

/-- The default options with a key are accepted. -/
example : ∃ backend, TypesafeBackend.create { apiKey := lit "k" } = .ok backend :=
  ⟨_, rfl⟩

/-- What the constructor promises of the limits. -/
structure TypesafeBackend.Limited (backend : TypesafeBackend) : Prop where
  callTimeout : 0 < backend.options.callTimeout ∧ backend.options.callTimeout ≤ dayMs
  attemptTimeout : 0 < backend.options.attemptTimeout ∧ backend.options.attemptTimeout ≤ dayMs
  maxRetries : backend.options.maxRetries ≤ 100
  initialBackoff : 0 ≤ backend.options.initialBackoff
  backoff : backend.options.initialBackoff ≤ backend.options.maxBackoff
  maxBackoff : backend.options.maxBackoff ≤ dayMs

/-- An accepted backend is limited. -/
theorem TypesafeBackend.limited_of_create {options : RemoteOptions} {backend : TypesafeBackend}
    (h : create options = .ok backend) : backend.Limited := by
  unfold create at h
  split_ifs at h with hkey hcharacters hlimits
  obtain ⟨-, -, h⟩ := bind_eq_ok_iff.1 h
  obtain rfl := Except.ok.inj h
  simp only [RemoteOptions.invalidLimits, decide_eq_true_eq, not_or, not_lt, not_le] at hlimits
  obtain ⟨-, hcall, hattempt, hcallDay, hattemptDay, hretries, hinitial, hbackoff, hmax, -, -⟩ :=
    hlimits
  exact ⟨⟨hcall, hcallDay⟩, ⟨hattempt, hattemptDay⟩, hretries, hinitial, hbackoff, hmax⟩

/-! ## Checks -/

/-- An execution without an error has neither been stopped nor run out of time. -/
theorem RemoteExecution.error_eq_none {execution : RemoteExecution} {env : Environment} :
    execution.error env = none ↔
      (∀ source ∈ execution.cancellation, source ∉ env.stopped) ∧ env.now < execution.deadline := by
  unfold error
  split_ifs with hstopped hlate
  · refine ⟨nofun, fun h => ?_⟩
    obtain ⟨source, hsource, hmem⟩ := List.any_eq_true.1 hstopped
    exact absurd (of_decide_eq_true hmem) (h.1 source hsource)
  · exact ⟨nofun, fun h => absurd h.2 (not_lt.2 hlate)⟩
  · refine ⟨fun _ => ⟨fun source hsource hmem => hstopped ?_, not_le.1 hlate⟩, fun _ => rfl⟩
    exact List.any_eq_true.2 ⟨source, hsource, decide_eq_true hmem⟩

/-- An execution without an error had none before. -/
theorem RemoteExecution.error_eq_none_of_earlier {execution : RemoteExecution}
    {env env' : Environment} (h : env.Earlier env') (hnone : execution.error env' = none) :
    execution.error env = none := by
  obtain ⟨hstopped, hlate⟩ := error_eq_none.1 hnone
  exact error_eq_none.2
    ⟨fun source hsource hmem => hstopped source hsource (h.stopped hmem), h.now.trans_lt hlate⟩

end Jevt
