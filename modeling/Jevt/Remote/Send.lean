import Mathlib.Data.List.Chain
import Mathlib.Tactic.NormNum
import Jevt.Remote.Options

/-!
# The retry loop

`typesafe_backend::impl::send` of `src/remote.cpp`. What the loop sees of the outside is a `World`:
the clock and the stop sources at each of its readings, the transport, the randomness of the
jitter, and the two parsers of the standard library that read a `Retry-After` header. A turn of the
loop reads the clock six times, and the number of a turn's first reading names the turn.

The loop returns its result next to the transport calls it has made.
-/

namespace Jevt

/-- What a remote call sees of the outside. -/
structure World where
  env : Nat → Environment
  earlier : ∀ {i j : Nat}, i ≤ j → (env i).Earlier (env j)
  /-- `system_clock::now()`, in milliseconds. -/
  systemNow : Nat → Int
  /-- `perform` of the transport, which may throw. -/
  perform : Nat → HttpRequest → Option (Result HttpResponse)
  arith : Arithmetic
  binary64 : arith.Binary64
  /-- What `uniform_real_distribution` draws between 0.75 and 1. -/
  jitter : Nat → ℚ
  jitter_mem : ∀ k, 3 / 4 ≤ jitter k ∧ jitter k ≤ 1
  /-- `std::from_chars` on a whole text. -/
  fromChars : Bytes → Option Floating
  /-- `std::get_time` and the calendar: the milliseconds of an HTTP date. -/
  httpDate : Bytes → Option Int

/-- A world that stands still, around a transport. -/
def World.still (perform : Nat → HttpRequest → Option (Result HttpResponse)) : World where
  env := fun _ => { now := 0 }
  earlier := fun _ => .refl _
  systemNow := fun _ => 0
  perform := perform
  arith := .exact
  binary64 := Arithmetic.exact_binary64
  jitter := fun _ => 1
  jitter_mem := fun _ => by norm_num
  fromChars := fun _ => none
  httpDate := fun _ => none

/-! ## Replies -/

/-- `lower`. -/
def lower (text : Bytes) : Bytes :=
  text.map fun c => if 0x41 ≤ c ∧ c ≤ 0x5a then c + 0x20 else c

/-- The value of the last header with a name. -/
def header (response : HttpResponse) (name : Bytes) : Option Bytes :=
  (response.headers.filter fun entry => lower entry.1 = name).getLast?.map Prod.snd

/-- The lambda `numeric` of `retry_after`. -/
def numericDelay (w : World) (value : Bytes) (scale : ℚ) : Option Int :=
  match w.fromChars value with
  | none => none
  | some amount =>
    if !amount.isFinite || amount.lt .zero then none
    else match amount.mul w.arith.double (.finite scale) with
      | .finite q => some (min dayMs q.ceil)
      | _ => some dayMs

/-- `retry_after`. -/
def retryAfter (w : World) (reading : Nat) (response : HttpResponse) : Option Int :=
  match (header response (lit "retry-after-ms")).bind (numericDelay w · 1) with
  | some value => some value
  | none =>
    match header response (lit "retry-after") with
    | none => none
    | some seconds =>
      match numericDelay w seconds 1000 with
      | some value => some value
      | none => (w.httpDate seconds).map fun point =>
          max 0 (min dayMs (point - w.systemNow reading))

/-- `status_error`. -/
def statusError (status : Int) : Error where
  code :=
    if status = 400 ∨ status = 422 then .invalidRequest
    else if status = 429 then .rateLimited
    else if status = 401 ∨ status = 403 then .authentication
    else .remoteError
  message := lit "remote HTTP status " ++ lit (toString status)
  statusCode := some status

/-- `sent_response`. -/
structure SentResponse where
  value : HttpResponse
  attempts : Nat
  deriving DecidableEq, Repr

/-- What the loop makes of a reply: an exception is a connection failure. -/
def caught : Option (Result HttpResponse) → Result HttpResponse
  | none =>
    .error { code := .connectionFailure, message := lit "HTTP transport threw an exception" }
  | some response => response

/-- The error of an attempt that has taken too long. -/
def attemptTimeout : Error :=
  { code := .timeout, message := lit "HTTP attempt deadline exceeded" }

/-- Whether the loop tries again after a response. -/
def retryable : Result HttpResponse → Bool
  | .ok response =>
    decide (response.status = 408 ∨ response.status = 429 ∨
      (500 ≤ response.status ∧ response.status ≤ 599))
  | .error failure => decide (failure.code = .connectionFailure ∨ failure.code = .timeout)

/-- The failure a response stands for. -/
def failureOf : Result HttpResponse → Error
  | .ok response => statusError response.status
  | .error failure => failure

/-! ## The loop -/

/-- A transport call: the number of the first reading of its turn, the request, what the loop made
of the reply, the backoff at the time, and the wait after it if there was one. -/
structure Attempt where
  reading : Nat
  request : HttpRequest
  response : Result HttpResponse
  delay : Int
  wait : Option Int := none

namespace TypesafeBackend

variable (backend : TypesafeBackend) (w : World)

/-- The request every attempt is made with, up to its deadline. -/
def request (method path body : Bytes) (execution : RemoteExecution) : HttpRequest where
  method := method
  url := backend.options.baseUrl ++ path
  headers := [(lit "Accept", lit "application/json"),
    (lit "Authorization", lit "Bearer " ++ backend.options.apiKey),
    (lit "Content-Type", lit "application/json"), (lit "User-Agent", lit "jevtpp-remote/0.2")]
  body := body
  deadline := execution.deadline
  cancellation := execution.cancellation
  maxResponseBytes := backend.options.maxResponseBytes

/-- The wait before the next attempt, in milliseconds. -/
def waitAfter (reading : Nat) (delay : Int) (response : Result HttpResponse) : Int :=
  let backoff := (w.arith.double (delay * w.jitter reading)).toInteger
  match response with
  | .ok response => (retryAfter w reading response).getD backoff
  | .error _ => backoff

/-- The end of a turn: the result of the loop, or the wait before the next turn. -/
def verdict (execution : RemoteExecution) (attempt reading : Nat) (delay : Int)
    (response : Result HttpResponse) : Except (Result SentResponse) Int :=
  if response.toOption.any fun response =>
      decide (backend.options.maxResponseBytes < response.body.length) then
    .error (.error
      { code := .invalidBackendOutput, message := lit "HTTP response exceeds byte limit" })
  else
    match response.toOption.filter fun response =>
        decide (200 ≤ response.status ∧ response.status < 300) with
    | some value => .error (.ok ⟨value, attempt + 1⟩)
    | none =>
      if !retryable response || decide (backend.options.maxRetries ≤ attempt) then
        .error (.error (failureOf response))
      else
        let wait := waitAfter w reading delay response
        if execution.deadline - (w.env (reading + 4)).now ≤ wait * 1000000 then
          .error (.error (failureOf response))
        else .ok wait

/-- A turn that waits for the next one has had a retryable response and a retry left. -/
theorem verdict_eq_ok {execution : RemoteExecution} {attempt reading : Nat} {delay wait : Int}
    {response : Result HttpResponse}
    (h : verdict backend w execution attempt reading delay response = .ok wait) :
    retryable response = true ∧ attempt < backend.options.maxRetries ∧
      wait = waitAfter w reading delay response := by
  unfold verdict at h
  split at h
  · cases h
  · split at h
    · cases h
    · split at h
      · cases h
      · next hretry =>
        simp only [Bool.or_eq_true, Bool.not_eq_true', decide_eq_true_eq, not_or, not_le,
          Bool.not_eq_false] at hretry
        dsimp only at h
        split at h
        · cases h
        · exact ⟨hretry.1, hretry.2, (Except.ok.inj h).symm⟩

/-- The request of an attempt: its deadline is the earlier of the attempt's own and the overall
one. -/
def attemptRequest (execution : RemoteExecution) (base : HttpRequest) (reading : Nat) :
    HttpRequest :=
  { base with
    deadline := min execution.deadline
      ((w.env (reading + 1)).now + backend.options.attemptTimeout * 1000000) }

/-- What an attempt brings: a reply that comes too late is a timeout. -/
def attemptResponse (reading : Nat) (request : HttpRequest) : Result HttpResponse :=
  if request.deadline ≤ (w.env (reading + 3)).now then .error attemptTimeout
  else caught (w.perform reading request)

/-- The loop of `send`, from the turn with the number `attempt` on. -/
def sendLoop (execution : RemoteExecution) (base : HttpRequest) (attempt reading : Nat)
    (delay : Int) : List Attempt × Result SentResponse :=
  match execution.error (w.env reading) with
  | some failure => ([], .error failure)
  | none =>
    let request := attemptRequest backend w execution base reading
    let response := attemptResponse w reading request
    match execution.error (w.env (reading + 2)) with
    | some failure => ([⟨reading, request, response, delay, none⟩], .error failure)
    | none =>
      match _hverdict : verdict backend w execution attempt reading delay response with
      | .error result => ([⟨reading, request, response, delay, none⟩], result)
      | .ok wait =>
        let (attempts, result) := sendLoop execution base (attempt + 1) (reading + 6)
          (min backend.options.maxBackoff (delay * 2))
        (⟨reading, request, response, delay, some wait⟩ :: attempts, result)
termination_by backend.options.maxRetries - attempt
decreasing_by
  have hleft := (verdict_eq_ok backend w _hverdict).2.1
  omega

/-- `send`, whose first reading has a given number. -/
def send (method path body : Bytes) (execution : RemoteExecution) (reading : Nat) :
    List Attempt × Result SentResponse :=
  sendLoop backend w execution (backend.request method path body execution) 0 reading
    backend.options.initialBackoff

/-! ## What a turn does -/

variable {backend w} {execution : RemoteExecution} {base : HttpRequest} {attempt reading : Nat}
  {delay : Int}

/-- A turn that ends the loop with a success has had a response in time, of a 2xx status and within
the size limit. -/
theorem verdict_eq_success {response : Result HttpResponse} {sent : SentResponse}
    (h : verdict backend w execution attempt reading delay response = .error (.ok sent)) :
    response = .ok sent.value ∧ sent.attempts = attempt + 1 ∧
      200 ≤ sent.value.status ∧ sent.value.status < 300 ∧
      sent.value.body.length ≤ backend.options.maxResponseBytes := by
  unfold verdict at h
  split at h
  · cases h
  · next hsize =>
    split at h
    · next value hvalue =>
      obtain rfl := Except.ok.inj (Except.error.inj h)
      obtain ⟨hresponse, hstatus⟩ := Option.filter_eq_some_iff.1 hvalue
      cases response with
      | error failure => cases hresponse
      | ok response =>
        obtain rfl := Option.some.inj hresponse
        obtain ⟨hlow, hhigh⟩ := of_decide_eq_true hstatus
        refine ⟨rfl, rfl, hlow, hhigh, ?_⟩
        simpa [Except.toOption] using hsize
    · split at h
      · cases h
      · dsimp only at h
        split at h
        · cases h
        · cases h

/-- A response that comes in time is the reply of the transport. -/
theorem attemptResponse_eq_ok {request : HttpRequest} {response : HttpResponse}
    (h : attemptResponse w reading request = .ok response) :
    w.perform reading request = some (.ok response) ∧
      (w.env (reading + 3)).now < request.deadline := by
  unfold attemptResponse at h
  split at h
  · cases h
  · next hintime =>
    refine ⟨?_, not_le.1 hintime⟩
    cases hperform : w.perform reading request with
    | none =>
      rw [hperform] at h
      cases h
    | some reply =>
      rw [hperform] at h
      rw [show reply = .ok response from h]

/-! ## Runs of the loop -/

/-- The loop makes no more calls than it has retries left, and one. -/
theorem length_sendLoop_le (hleft : attempt ≤ backend.options.maxRetries) :
    (sendLoop backend w execution base attempt reading delay).1.length + attempt ≤
      backend.options.maxRetries + 1 := by
  fun_induction sendLoop backend w execution base attempt reading delay with
  | case1 => simp; omega
  | case2 => simp; omega
  | case3 => simp; omega
  | case4 attempt reading delay _ request response _ wait hverdict attempts result heq ih =>
    have hmore := ih (verdict_eq_ok backend w hverdict).2.1
    rw [heq] at hmore
    simp at hmore ⊢
    omega

/-- Every call is made with the request of its turn, after a check without an error. -/
theorem calls_sendLoop :
    ∀ a ∈ (sendLoop backend w execution base attempt reading delay).1,
      a.request = attemptRequest backend w execution base a.reading ∧
      a.response = attemptResponse w a.reading a.request ∧
      execution.error (w.env a.reading) = none := by
  fun_induction sendLoop backend w execution base attempt reading delay with
  | case1 => nofun
  | case2 attempt reading delay hbefore request response failure hafter =>
    exact List.forall_mem_singleton.2 ⟨rfl, rfl, hbefore⟩
  | case3 attempt reading delay hbefore request response hafter result hverdict =>
    exact List.forall_mem_singleton.2 ⟨rfl, rfl, hbefore⟩
  | case4 attempt reading delay hbefore request response hafter wait hverdict attempts result heq
      ih =>
    rw [heq] at ih
    exact List.forall_mem_cons.2 ⟨⟨rfl, rfl, hbefore⟩, ih⟩

/-- A call that another one follows has brought a retryable response. -/
theorem isChain_sendLoop :
    (sendLoop backend w execution base attempt reading delay).1.IsChain fun a _ =>
      retryable a.response = true := by
  fun_induction sendLoop backend w execution base attempt reading delay with
  | case1 => exact .nil
  | case2 => exact .singleton _
  | case3 => exact .singleton _
  | case4 attempt reading delay hbefore request response hafter wait hverdict attempts result heq
      ih =>
    rw [heq] at ih
    exact List.isChain_cons.2 ⟨fun _ _ => (verdict_eq_ok backend w hverdict).1, ih⟩

/-- A success is the response of the last call, and counts the calls. -/
theorem success_sendLoop {sent : SentResponse}
    (h : (sendLoop backend w execution base attempt reading delay).2 = .ok sent) :
    ∃ init a, (sendLoop backend w execution base attempt reading delay).1 = init ++ [a] ∧
      a.response = .ok sent.value ∧ execution.error (w.env (a.reading + 2)) = none ∧
      sent.attempts = attempt + (init.length + 1) ∧
      200 ≤ sent.value.status ∧ sent.value.status < 300 ∧
      sent.value.body.length ≤ backend.options.maxResponseBytes := by
  fun_induction sendLoop backend w execution base attempt reading delay with
  | case1 => cases h
  | case2 => cases h
  | case3 attempt reading delay hbefore request response hafter result hverdict =>
    obtain ⟨hresponse, hattempts, hstatus⟩ := verdict_eq_success (hverdict.trans (congrArg _ h))
    exact ⟨[], _, rfl, hresponse, hafter, hattempts, hstatus⟩
  | case4 attempt reading delay hbefore request response hafter wait hverdict attempts result heq
      ih =>
    rw [heq] at ih
    obtain ⟨init, a, rfl, hresponse, hcheck, hattempts, hstatus⟩ := ih h
    refine ⟨_ :: init, a, rfl, hresponse, hcheck, ?_, hstatus⟩
    rw [hattempts, List.length_cons]
    omega

/-- A turn whose reply is as it should be ends the loop with it. -/
theorem sendLoop_of_reply {response : HttpResponse}
    (hbefore : execution.error (w.env reading) = none)
    (hafter : execution.error (w.env (reading + 2)) = none)
    (hperform : w.perform reading (attemptRequest backend w execution base reading) =
      some (.ok response))
    (hintime : (w.env (reading + 3)).now <
      (attemptRequest backend w execution base reading).deadline)
    (hlow : 200 ≤ response.status) (hhigh : response.status < 300)
    (hsize : response.body.length ≤ backend.options.maxResponseBytes) :
    (sendLoop backend w execution base attempt reading delay).2 =
      .ok ⟨response, attempt + 1⟩ := by
  have hresponse : attemptResponse w reading (attemptRequest backend w execution base reading) =
      .ok response := by
    rw [attemptResponse, if_neg (not_le.2 hintime), hperform]
    rfl
  have hverdict : verdict backend w execution attempt reading delay (.ok response) =
      .error (.ok ⟨response, attempt + 1⟩) := by
    simp [verdict, Except.toOption, Option.filter, hlow, hhigh, hsize]
  unfold sendLoop
  rw [hbefore]
  dsimp only
  rw [hafter]
  dsimp only
  split
  · next result heq =>
    rw [hresponse, hverdict] at heq
    exact (Except.error.inj heq).symm
  · next wait heq =>
    rw [hresponse, hverdict] at heq
    cases heq

/-- A body whose first call brings a reply as it should be is sent with that call. -/
theorem send_of_reply {method path body : Bytes} {response : HttpResponse}
    (hbefore : execution.error (w.env reading) = none)
    (hafter : execution.error (w.env (reading + 2)) = none)
    (hperform : ∀ request : HttpRequest, request.body = body →
      w.perform reading request = some (.ok response))
    (hintime : (w.env (reading + 3)).now < min execution.deadline
      ((w.env (reading + 1)).now + backend.options.attemptTimeout * 1000000))
    (hlow : 200 ≤ response.status) (hhigh : response.status < 300)
    (hsize : response.body.length ≤ backend.options.maxResponseBytes) :
    (send backend w method path body execution reading).2 = .ok ⟨response, 1⟩ :=
  sendLoop_of_reply hbefore hafter (hperform _ rfl) hintime hlow hhigh hsize

/-- The backoff doubles from call to call until it reaches its maximum, and a wait is that of its
call. -/
theorem delay_sendLoop (hmax : backend.options.initialBackoff ≤ backend.options.maxBackoff)
    (hinitial : 0 ≤ backend.options.initialBackoff)
    (hdelay : delay =
      min backend.options.maxBackoff (backend.options.initialBackoff * 2 ^ attempt)) :
    ∀ (i : Nat) (a : Attempt),
      (sendLoop backend w execution base attempt reading delay).1[i]? = some a →
      a.delay =
        min backend.options.maxBackoff (backend.options.initialBackoff * 2 ^ (attempt + i)) ∧
      ∀ wait ∈ a.wait, wait = waitAfter w a.reading a.delay a.response := by
  fun_induction sendLoop backend w execution base attempt reading delay with
  | case1 => nofun
  | case2 attempt reading delay hbefore request response failure hafter =>
    intro i a ha
    cases i with
    | zero =>
      obtain rfl := Option.some.inj ha
      exact ⟨hdelay, nofun⟩
    | succ i => cases ha
  | case3 attempt reading delay hbefore request response hafter result hverdict =>
    intro i a ha
    cases i with
    | zero =>
      obtain rfl := Option.some.inj ha
      exact ⟨hdelay, nofun⟩
    | succ i => cases ha
  | case4 attempt reading delay hbefore request response hafter wait hverdict attempts result heq
      ih =>
    rw [heq] at ih
    intro i a ha
    cases i with
    | zero =>
      obtain rfl := Option.some.inj ha
      refine ⟨hdelay, fun wait' hwait => ?_⟩
      obtain rfl := Option.some.inj hwait
      exact (verdict_eq_ok backend w hverdict).2.2
    | succ i =>
      have hnext : min backend.options.maxBackoff (delay * 2) =
          min backend.options.maxBackoff (backend.options.initialBackoff * 2 ^ (attempt + 1)) := by
        rw [hdelay, pow_succ, ← mul_assoc]
        omega
      rw [← Nat.add_assoc, Nat.add_right_comm]
      exact ih hnext i a ha

/-! ## The main result -/

/-- What a remote call may do: the calls of the transport it makes and the result it returns. -/
structure Sends (backend : TypesafeBackend) (w : World) (execution : RemoteExecution)
    (base : HttpRequest) (attempts : List Attempt) (result : Result SentResponse) : Prop where
  /-- There are at most as many calls as retries, and one. -/
  bounded : attempts.length ≤ backend.options.maxRetries + 1
  /-- Every call carries the same request, up to its deadline. -/
  same : ∀ a ∈ attempts, { a.request with deadline := base.deadline } = base
  /-- No call is made after the deadline or a cancellation has been observed. -/
  unstopped : ∀ a ∈ attempts, ∀ i ≤ a.reading, execution.error (w.env i) = none
  /-- The deadline of a call is within the overall one and that of an attempt from its start on. -/
  deadlines : ∀ a ∈ attempts, a.request.deadline ≤ execution.deadline ∧
    ∀ start, (w.env (a.reading + 1)).now ≤ start →
      a.request.deadline ≤ start + backend.options.attemptTimeout * 1000000
  /-- Another call follows a connection failure, a timeout, or a status 408, 429 or 5xx only. -/
  retried : attempts.IsChain fun a _ =>
    (∃ failure, a.response = .error failure ∧
      (failure.code = .connectionFailure ∨ failure.code = .timeout)) ∨
    ∃ response, a.response = .ok response ∧
      (response.status = 408 ∨ response.status = 429 ∨
        (500 ≤ response.status ∧ response.status ≤ 599))
  /-- A response is that of the transport, unless it was too late. -/
  replied : ∀ a ∈ attempts, a.response = attemptResponse w a.reading a.request
  /-- A success is a 2xx reply of the last call, in time, not cancelled and within the size
  limit. -/
  success : ∀ sent, result = .ok sent → ∃ init a, attempts = init ++ [a] ∧
    w.perform a.reading a.request = some (.ok sent.value) ∧
    200 ≤ sent.value.status ∧ sent.value.status < 300 ∧
    (w.env (a.reading + 3)).now < a.request.deadline ∧
    (w.env (a.reading + 3)).now < execution.deadline ∧
    execution.error (w.env (a.reading + 2)) = none ∧
    sent.value.body.length ≤ backend.options.maxResponseBytes ∧
    sent.attempts = attempts.length
  /-- Without a usable `Retry-After` the wait before a retry is within the doubled backoff. -/
  backoff : ∀ i a, attempts[i]? = some a → ∀ wait ∈ a.wait,
    (∀ response, a.response = .ok response → retryAfter w a.reading response = none) →
    0 ≤ wait ∧
      wait ≤ min backend.options.maxBackoff (backend.options.initialBackoff * 2 ^ i)
  /-- Doubling the backoff stays within 64 bits. -/
  doubled : ∀ a ∈ attempts, 0 ≤ a.delay ∧ a.delay * 2 < 2 ^ 63

/-- A backoff with jitter is at most the backoff. -/
theorem waitAfter_mem {response : Result HttpResponse} (hdelay : 0 ≤ delay) (hday : delay ≤ dayMs)
    (hnone : ∀ value, response = .ok value → retryAfter w reading value = none) :
    0 ≤ waitAfter w reading delay response ∧ waitAfter w reading delay response ≤ delay := by
  obtain ⟨hlow, hhigh⟩ := w.jitter_mem reading
  have hdelayQ : (0 : ℚ) ≤ delay := by exact_mod_cast hdelay
  have hjitter : (0 : ℚ) ≤ w.jitter reading := le_trans (by norm_num) hlow
  have hwait : waitAfter w reading delay response =
      (w.arith.double (delay * w.jitter reading)).toInteger := by
    unfold waitAfter
    cases response with
    | error failure => rfl
    | ok value =>
      dsimp only
      rw [hnone value rfl, Option.getD_none]
  rw [hwait]
  refine w.binary64.toInteger_mem (mul_nonneg hdelayQ hjitter)
    (mul_le_of_le_one_right hdelayQ hhigh) ?_
  rw [abs_of_nonneg hdelay]
  unfold dayMs at hday
  omega

/-- **The retry loop.** With accepted options, whatever the clock, the stop sources and the
transport do, a remote call is one of those that `Sends` describes. -/
theorem send_spec {options : RemoteOptions} (hcreate : create options = .ok backend) (w : World)
    (method path body : Bytes) (execution : RemoteExecution) (reading : Nat) :
    Sends backend w execution (backend.request method path body execution)
      (send backend w method path body execution reading).1
      (send backend w method path body execution reading).2 := by
  have hlimited := limited_of_create hcreate
  have hcalls := @calls_sendLoop backend w execution
    (backend.request method path body execution) 0 reading backend.options.initialBackoff
  have hdelays := @delay_sendLoop backend w execution
    (backend.request method path body execution) 0 reading backend.options.initialBackoff
    hlimited.backoff hlimited.initialBackoff
    (by rw [pow_zero, mul_one, min_eq_right hlimited.backoff])
  have hdelay : ∀ (i : Nat) (a : Attempt),
      (send backend w method path body execution reading).1[i]? = some a →
      0 ≤ a.delay ∧ a.delay ≤ dayMs := by
    intro i a ha
    obtain ⟨heq, -⟩ := hdelays i a ha
    have hpow : 0 ≤ backend.options.initialBackoff * 2 ^ (0 + i) :=
      mul_nonneg hlimited.initialBackoff (pow_nonneg (by decide) _)
    have hmax := hlimited.maxBackoff
    have hinitial := hlimited.initialBackoff
    have hle := hlimited.backoff
    omega
  constructor
  case bounded => exact length_sendLoop_le (Nat.zero_le _)
  case same =>
    intro a ha
    rw [(hcalls a ha).1]
    rfl
  case unstopped =>
    intro a ha i hi
    exact RemoteExecution.error_eq_none_of_earlier (w.earlier hi) (hcalls a ha).2.2
  case deadlines =>
    intro a ha
    rw [(hcalls a ha).1]
    refine ⟨min_le_left _ _, fun start hstart => (min_le_right _ _).trans ?_⟩
    exact Int.add_le_add_right hstart _
  case retried =>
    refine isChain_sendLoop.imp fun a _ hretry => ?_
    cases hresponse : a.response with
    | error failure =>
      rw [hresponse] at hretry
      exact .inl ⟨failure, rfl, of_decide_eq_true hretry⟩
    | ok response =>
      rw [hresponse] at hretry
      exact .inr ⟨response, rfl, of_decide_eq_true hretry⟩
  case replied => exact fun a ha => (hcalls a ha).2.1
  case success =>
    intro sent hsent
    obtain ⟨init, a, heq, hresponse, hcheck, hattempts, hlow, hhigh, hsize⟩ :=
      success_sendLoop hsent
    have ha : a ∈ (send backend w method path body execution reading).1 := by
      rw [send, heq]
      simp
    obtain ⟨hrequest, hreplied, -⟩ := hcalls a ha
    obtain ⟨hperform, hintime⟩ := attemptResponse_eq_ok (hreplied.symm.trans hresponse)
    refine ⟨init, a, heq, hperform, hlow, hhigh, hintime, hintime.trans_le ?_, hcheck, hsize, ?_⟩
    · rw [hrequest]
      exact min_le_left _ _
    · rw [hattempts, send, heq, List.length_append, List.length_singleton, Nat.zero_add]
  case backoff =>
    intro i a ha wait hwait hnone
    obtain ⟨heq, hwaits⟩ := hdelays i a ha
    obtain ⟨hnonneg, hday⟩ := hdelay i a ha
    obtain ⟨hlow, hhigh⟩ := waitAfter_mem (w := w) hnonneg hday hnone
    rw [Nat.zero_add] at heq
    rw [hwaits wait hwait, ← heq]
    exact ⟨hlow, hhigh⟩
  case doubled =>
    intro a ha
    obtain ⟨i, hi⟩ := List.mem_iff_getElem?.1 ha
    obtain ⟨hnonneg, hday⟩ := hdelay i a hi
    refine ⟨hnonneg, ?_⟩
    unfold dayMs at hday
    omega

/-- A server that is unavailable, asked by a backend with the default options. -/
theorem send_spec_unavailable :
    let w := World.still fun _ _ => some (.ok { status := 503 })
    let backend : TypesafeBackend := ⟨{ apiKey := lit "k" }⟩
    let execution : RemoteExecution := { deadline := 30000000000 }
    create { apiKey := lit "k" } = .ok backend ∧
      Sends backend w execution (backend.request (lit "POST") (lit "/v1/predict") [] execution)
        (send backend w (lit "POST") (lit "/v1/predict") [] execution 0).1
        (send backend w (lit "POST") (lit "/v1/predict") [] execution 0).2 :=
  ⟨rfl, @send_spec _ { apiKey := lit "k" } rfl _ _ _ _ _ _⟩

end TypesafeBackend

end Jevt
