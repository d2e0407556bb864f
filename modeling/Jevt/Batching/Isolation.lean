import Jevt.Batching.Answers
import Jevt.Runtime.Backend

/-!
# Cancellation and strangers

A microbatch over a backend that inherits `predict_batch` has one result for all its rows: the loop
ends at the first row that is found cancelled or late, and the error of that row is delivered to
every row of the call. A row that fails its own preflight is not passed on, and a row that stops
after its own turn in the loop is not looked at again before it is finished, so neither reaches the
others. What is left is the time between the preflight of a row and the end of its turn
(`isolated_unless_stopped_in_call`).
-/

namespace Jevt

open Library

variable {ρ : Type} {options : BatchingOptions}

/-- An error that says that a request has been cancelled or has expired. -/
def Error.IsInterruption (e : Error) : Prop :=
  e.code = .cancelled ∨ e.code = .timeout

/-- A call of a backend that inherits `predict_batch`: what the checks of the loop see, by their
numbers, and how `predict` ends for the row between two checks. -/
structure InheritedCall (ρ : Type) where
  env : Nat → Environment
  predict : Nat → InferenceRequest → Except Thrown (Result ρ)

namespace InheritedCall

variable {call : InheritedCall ρ}

/-- `backend::predict_batch`, from the check with number `k` on. -/
def predictBatch (call : InheritedCall ρ) :
    Nat → List InferenceRequest → Except Thrown (Result (List ρ))
  | _, [] => .ok (.ok [])
  | k, request :: rest =>
    match executionError (call.env k) request with
    | some failure => .ok (.error failure)
    | none =>
      match call.predict k request with
      | .error thrown => .error thrown
      | .ok (.error failure) => .ok (.error failure)
      | .ok (.ok response) =>
        match executionError (call.env (k + 1)) request with
        | some failure => .ok (.error failure)
        | none => (call.predictBatch (k + 2) rest).map fun responses =>
            responses.map (response :: ·)

/-- How the call ends. -/
def answer (call : InheritedCall ρ) (views : List InferenceRequest) : Answer ρ :=
  match call.predictBatch 0 views with
  | .ok (.ok responses) => .responses responses
  | .ok (.error failure) => .failure failure
  | .error (.stdException what) => .stdException what
  | .error .otherException => .otherException

/-- The time passes during a call, which has ended by some moment, and `predict` says that a request
is cancelled or late only when it is. -/
structure Honest (call : InheritedCall ρ) (ended : Environment) : Prop where
  ordered : ∀ k, (call.env k).Earlier (call.env (k + 1))
  seen : ∀ k, (call.env k).Earlier ended
  own : ∀ k request e, call.predict k request = .ok (.error e) → e.IsInterruption →
    executionError (call.env (k + 1)) request ≠ none

/-- A call ends with an error when the loop does. -/
theorem predictBatch_of_answer {views : List InferenceRequest} {e : Error}
    (h : call.answer views = .failure e) : call.predictBatch 0 views = .ok (.error e) := by
  unfold answer at h
  split at h
  · cases h
  · next hresult => rw [hresult, Answer.failure.inj h]
  · cases h
  · cases h

end InheritedCall

/-- A request that has been stopped stays stopped. -/
theorem executionError_ne_none_of_earlier {env env' : Environment} (hle : env.Earlier env')
    {request : InferenceRequest} (h : executionError env request ≠ none) :
    executionError env' request ≠ none := by
  intro hnone
  obtain ⟨hstopped, hlate⟩ := executionError_eq_none.1 hnone
  exact h (executionError_eq_none.2
    ⟨fun source hsource hmem => hstopped source hsource (hle.stopped hmem),
      fun deadline hdeadline => lt_of_le_of_lt hle.now (hlate deadline hdeadline)⟩)

/-- A loop that ends with an error found it at the first row, before, in or after its prediction, or
goes on and ends with it. -/
theorem InheritedCall.predictBatch_cons_error {call : InheritedCall ρ} {k : Nat}
    {request : InferenceRequest} {rest : List InferenceRequest} {e : Error}
    (h : call.predictBatch k (request :: rest) = .ok (.error e)) :
    executionError (call.env k) request = some e ∨ call.predict k request = .ok (.error e) ∨
      executionError (call.env (k + 1)) request = some e ∨
      call.predictBatch (k + 2) rest = .ok (.error e) := by
  rw [predictBatch] at h
  cases hbefore : executionError (call.env k) request with
  | some failure =>
    rw [hbefore] at h
    exact .inl (congrArg some (Except.error.inj (Except.ok.inj h)))
  | none =>
    rw [hbefore] at h
    cases hpredict : call.predict k request with
    | error thrown =>
      rw [hpredict] at h
      cases h
    | ok result =>
      rw [hpredict] at h
      cases result with
      | error failure =>
        obtain rfl : failure = e := Except.error.inj (Except.ok.inj h)
        exact .inr (.inl rfl)
      | ok response =>
        cases hafter : executionError (call.env (k + 1)) request with
        | some failure =>
          rw [hafter] at h
          exact .inr (.inr (.inl (congrArg some (Except.error.inj (Except.ok.inj h)))))
        | none =>
          rw [hafter] at h
          cases hrest : call.predictBatch (k + 2) rest with
          | error thrown =>
            rw [hrest] at h
            cases h
          | ok result =>
            rw [hrest] at h
            cases result with
            | error failure =>
              obtain rfl : failure = e := Except.error.inj (Except.ok.inj h)
              exact .inr (.inr (.inr rfl))
            | ok responses => cases Except.ok.inj h

/-- The loop ends with an interruption at a row that is stopped by the end of its own turn. -/
theorem InheritedCall.Honest.stopped_row {call : InheritedCall ρ} {ended : Environment}
    (h : call.Honest ended) {e : Error} (he : e.IsInterruption) :
    ∀ {k : Nat} {rows : List InferenceRequest}, call.predictBatch k rows = .ok (.error e) →
      ∃ (j : Nat) (request : InferenceRequest), rows[j]? = some request ∧
        executionError (call.env (k + 2 * j + 1)) request ≠ none
  | _, [], hresult => by cases Except.ok.inj hresult
  | k, request :: rest, hresult => by
      rcases InheritedCall.predictBatch_cons_error hresult with
        hbefore | hpredict | hafter | hrest
      · exact ⟨0, request, rfl, executionError_ne_none_of_earlier (h.ordered k)
          (hbefore ▸ Option.some_ne_none e)⟩
      · exact ⟨0, request, rfl, h.own k request e hpredict he⟩
      · exact ⟨0, request, rfl, hafter ▸ Option.some_ne_none e⟩
      · obtain ⟨j, stopped, hj, hstopped⟩ := h.stopped_row he hrest
        refine ⟨j + 1, stopped, hj, ?_⟩
        rwa [show k + 2 * (j + 1) + 1 = k + 2 + 2 * j + 1 by omega]

namespace Pool

variable {pool : Pool ρ}

/-- The wrapped backend inherits `predict_batch`: the call number `n` of the history ended as the
`n`-th of the calls ends for the requests it was passed. -/
def Inherits (calls : Nat → InheritedCall ρ) (pool : Pool ρ) : Prop :=
  ∀ (n : Nat) (d : Dispatch ρ), pool.dispatches[n]? = some d →
    (calls n).Honest pool.environment ∧ d.answer = (calls n).answer d.views

/-- Of the ends of a call only an error of the wrapped backend can be an interruption. -/
theorem failure_of_element {d : Dispatch ρ} {position : Nat} {e : Error}
    (h : d.element position = some (.error e)) (he : e.IsInterruption) : d.answer = .failure e := by
  unfold Dispatch.element at h
  cases hanswer : d.answer with
  | failure e' =>
    rw [hanswer] at h
    rw [Except.error.inj (Option.some.inj h)]
  | responses rs =>
    simp only [hanswer] at h
    split_ifs at h
    · obtain rfl := Except.error.inj (Option.some.inj h)
      rcases he with he | he <;> cases he
    · obtain ⟨r, -, heq⟩ := Option.map_eq_some_iff.1 h
      cases heq
  | stdException what =>
    rw [hanswer] at h
    obtain rfl := Except.error.inj (Option.some.inj h)
    rcases he with he | he <;> cases he
  | otherException =>
    rw [hanswer] at h
    obtain rfl := Except.error.inj (Option.some.inj h)
    rcases he with he | he <;> cases he

/-- A job that cannot be stopped is interrupted only by another one of its microbatch that is
stopped by the end of its own turn in the call. -/
theorem interrupted_by_other (h : IsReachable options pool) {calls : Nat → InheritedCall ρ}
    (hcalls : Inherits calls pool) {c : Completion ρ} (hc : c ∈ pool.completions)
    {request : InferenceRequest} (howns : pool.Owns c.job request)
    (hrequest : executionError pool.environment request = none) {e : Error}
    (hresponse : c.response = .error e) (he : e.IsInterruption) :
    ∃ (n : Nat) (d : Dispatch ρ), pool.dispatches[n]? = some d ∧ c.job ∈ d.jobs ∧
      ∃ (j other : Nat) (stopped : InferenceRequest), d.jobs[j]? = some other ∧ other ≠ c.job ∧
        pool.Owns other stopped ∧ executionError ((calls n).env (2 * j + 1)) stopped ≠ none := by
  have hrouted := h.routed
  obtain ⟨request', howns', hjustified⟩ := hrouted.completions c hc
  obtain rfl : request' = request := Option.some.inj (howns'.symm.trans howns)
  rcases hjustified with hinterrupted | ⟨d, hd, position, hposition, helement⟩
  · obtain ⟨hstopped, hlate⟩ := executionError_eq_none.1 hrequest
    rcases hinterrupted with ⟨-, source, hsource, hmem⟩ | ⟨-, deadline, hdeadline, hle⟩
    · exact absurd hmem (hstopped source hsource)
    · exact absurd hle (not_le.2 (hlate deadline hdeadline))
  · obtain ⟨n, hn⟩ := List.mem_iff_getElem?.1 hd
    obtain ⟨hhonest, hanswer⟩ := hcalls n d hn
    have hfailure : d.answer = .failure e := failure_of_element (hresponse ▸ helement) he
    obtain ⟨j, stopped, hj, hstopped⟩ := hhonest.stopped_row he
      (InheritedCall.predictBatch_of_answer (hanswer ▸ hfailure))
    obtain ⟨hlt, hget⟩ := List.getElem?_eq_some_iff.1 hj
    have hlt' : j < d.jobs.length := (hrouted.views d hd).length_eq ▸ hlt
    have hother := (List.forall₂_iff_get.1 (hrouted.views d hd)).2 j hlt' hlt
    rw [List.get_eq_getElem, List.get_eq_getElem, hget] at hother
    rw [Nat.zero_add] at hstopped
    refine ⟨n, d, hn, List.mem_of_getElem? hposition, j, d.jobs[j], stopped,
      List.getElem?_eq_getElem hlt', fun heq => ?_, hother, hstopped⟩
    -- The job itself is not stopped at the end of the run, so it was not stopped in the call.
    obtain rfl : stopped = request' := Option.some.inj (hother.symm.trans (heq ▸ howns))
    exact executionError_ne_none_of_earlier (hhonest.seen _) hstopped hrequest

/-- **Isolation.** A job without a deadline whose token is not triggered does not complete as
cancelled or late, if every other job it shares a call of the wrapped backend with is neither
cancelled nor late by the end of its own turn in that call. -/
theorem isolated_unless_stopped_in_call (h : IsReachable options pool)
    {calls : Nat → InheritedCall ρ} (hcalls : Inherits calls pool) {c : Completion ρ}
    (hc : c ∈ pool.completions) {request : InferenceRequest} (howns : pool.Owns c.job request)
    (hdeadline : request.deadline = none)
    (htoken : ∀ source ∈ request.cancellation, source ∉ pool.environment.stopped)
    (hothers : ∀ (n : Nat) (d : Dispatch ρ), pool.dispatches[n]? = some d → c.job ∈ d.jobs →
      ∀ (j other : Nat) (stranger : InferenceRequest), d.jobs[j]? = some other → other ≠ c.job →
        pool.Owns other stranger → executionError ((calls n).env (2 * j + 1)) stranger = none) :
    ∀ e, c.response = .error e → e.code ≠ .cancelled ∧ e.code ≠ .timeout := by
  intro e hresponse
  have hrequest : executionError pool.environment request = none :=
    executionError_eq_none.2 ⟨htoken, hdeadline ▸ nofun⟩
  rw [← not_or]
  intro he
  obtain ⟨n, d, hn, hjob, j, other, stranger, hj, hne, hother, hstopped⟩ :=
    interrupted_by_other h hcalls hc howns hrequest hresponse he
  exact hstopped (hothers n d hn hjob j other stranger hj hne hother)

/-- Two callers share a microbatch. The second stops its request, either when its preflight is over
and the wrapped backend has not looked at it yet, or when the wrapped backend has answered. -/
def strangerLabels (early : Bool) : List (Label Nat) :=
  [.enqueue [{}], .enqueue [{ cancellation := some 7 }], .work 0 .wake, .work 0 .extract,
    .work 0 .check, .work 0 .check, .work 0 .call] ++
  (if early then [.requestStop 7, .work 0 (.answer (.failure cancelledError))]
    else [.work 0 (.answer (.responses [5, 5])), .requestStop 7]) ++
  [.work 0 .finish, .work 0 .finish]

/-- The calls of the wrapped backend, which answers every row and sees the request of the second
caller stopped or not. -/
def strangerCalls (early : Bool) : Nat → InheritedCall Nat := fun _ =>
  { env := fun _ => { now := 0, stopped := if early then [7] else [] }
    predict := fun _ _ => .ok (.ok 5) }

/-- The calls are honest. -/
theorem strangerCalls_honest (early : Bool) (n : Nat) :
    (strangerCalls early n).Honest { now := 0, stopped := [7] } where
  ordered _ := .refl _
  seen _ := ⟨le_rfl, by cases early <;> simp [strangerCalls]⟩
  own _ _ _ h := by cases Except.ok.inj h

/-- The first caller is told that its request has been cancelled, when the second caller stops its
own after the preflight. -/
theorem cancelled_by_stranger : ∃ pool : Pool Nat,
    IsReachable { maxBatchSize := 2 } pool ∧ Inherits (strangerCalls true) pool ∧
      pool.Owns 0 {} ∧
      ∃ c ∈ pool.completions, c.job = 0 ∧ c.response = .error cancelledError := by
  have hrun : ∃ pool : Pool Nat, pool.environment = { now := 0, stopped := [7] } ∧
      pool.dispatches = [⟨[0, 1], [{}, { cancellation := some 7 }], .failure cancelledError⟩] ∧
      pool.admitted = [{}, { cancellation := some 7 }] ∧
      pool.completions = [⟨0, .promise, .error cancelledError⟩,
        ⟨1, .promise, .error cancelledError⟩] ∧
      IsReachable { maxBatchSize := 2 } pool :=
    ⟨_, rfl, rfl, rfl, rfl, true, { now := 0 }, _, rfl, strangerLabels true, rfl⟩
  obtain ⟨pool, henvironment, hdispatches, hadmitted, hcompletions, hreachable⟩ := hrun
  refine ⟨pool, hreachable, fun n d hd => ⟨henvironment ▸ strangerCalls_honest true n, ?_⟩, ?_,
    ⟨0, .promise, .error cancelledError⟩, ?_, rfl, rfl⟩
  · obtain rfl := List.mem_singleton.1 (hdispatches ▸ List.mem_of_getElem? hd)
    rfl
  · rw [Owns, hadmitted]
    rfl
  · rw [hcompletions]
    exact List.mem_cons_self

/-- The first caller gets its answer, when the second caller stops its request after the call. -/
theorem isolated_unless_stopped_in_call_late : ∃ (pool : Pool Nat) (c : Completion Nat),
    IsReachable { maxBatchSize := 2 } pool ∧ c ∈ pool.completions ∧ c.job = 0 ∧
      pool.environment.stopped = [7] ∧
      ∀ e, c.response = .error e → e.code ≠ .cancelled ∧ e.code ≠ .timeout := by
  have hrun : ∃ pool : Pool Nat, pool.environment = { now := 0, stopped := [7] } ∧
      pool.dispatches = [⟨[0, 1], [{}, { cancellation := some 7 }], .responses [5, 5]⟩] ∧
      pool.admitted = [{}, { cancellation := some 7 }] ∧
      pool.completions = [⟨0, .promise, .ok 5⟩, ⟨1, .promise, .error cancelledError⟩] ∧
      IsReachable { maxBatchSize := 2 } pool :=
    ⟨_, rfl, rfl, rfl, rfl, true, { now := 0 }, _, rfl, strangerLabels false, rfl⟩
  obtain ⟨pool, henvironment, hdispatches, hadmitted, hcompletions, hreachable⟩ := hrun
  have hcalls : Inherits (strangerCalls false) pool := fun n d hd => by
    obtain rfl := List.mem_singleton.1 (hdispatches ▸ List.mem_of_getElem? hd)
    exact ⟨henvironment ▸ strangerCalls_honest false n, rfl⟩
  have hc : (⟨0, .promise, .ok 5⟩ : Completion Nat) ∈ pool.completions :=
    hcompletions ▸ List.mem_cons_self
  have howns : pool.Owns 0 {} := by
    rw [Owns, hadmitted]
    rfl
  refine ⟨pool, _, hreachable, hc, rfl, henvironment ▸ rfl,
    isolated_unless_stopped_in_call hreachable hcalls hc howns rfl
      (fun source hsource => absurd hsource (Option.not_mem_none source)) ?_⟩
  intro n d _ _ j other stranger _ _ hother
  have hmem : stranger ∈ [({} : InferenceRequest), { cancellation := some 7 }] :=
    hadmitted ▸ List.mem_of_getElem? hother
  rcases List.mem_pair.1 hmem with rfl | rfl <;> rfl

end Pool

end Jevt
