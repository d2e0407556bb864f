import Mathlib.Data.UInt
import Jevt.Library.Distinct
import Jevt.SystemOne.Evaluate

/-!
# Evaluations are recorded once

Each of the three functions that evaluate a binding records one call at each of its exits, with the
outcome of what it returns there (`Settles`). What they begin with records one call too, at the
first check, after an error of the backend and at the second check, but the call of the backend
itself is not guarded: an exception leaves the evaluation without a record
(`evaluation_recordedOnce_iff`).
-/

namespace Jevt

open Library

variable {ν σ ρ : Type}

/-! ## What is to be recorded -/

/-- The outcome of an evaluation: an error unless it delivers a result, and then whether the result
abstains. -/
def outcomeOf (abstained : ρ → Bool) : Except Thrown (Result ρ) → CallOutcome
  | .ok (.ok value) => if abstained value then .abstain else .success
  | _ => .error

/-- The usage an evaluation can have seen: that of the responses, if it came to them. -/
def usageSeen (execution : EvaluationOptions) (moments : Moments)
    (call : Except Thrown (Result σ)) (usageOf : σ → TokenUsage) : TokenUsage :=
  match execution.error moments.before, call with
  | none, .ok (.ok responses) => usageOf responses
  | _, _ => {}

/-- An evaluation records exactly one call, for a decision and with a usage, whose outcome is that
of the evaluation. -/
def RecordedOnce (decision : Bytes) (abstained : ρ → Bool) (usage : TokenUsage)
    (evaluated : Evaluated ρ) : Prop :=
  ∃ call, evaluated.recorded = [call] ∧ call.decision = decision ∧
    call.outcome = outcomeOf abstained evaluated.returned ∧ call.usage = usage

/-- The evaluation has been stopped before the backend is called, or the call returns. -/
def Returns (execution : EvaluationOptions) (moments : Moments) (call : Except Thrown (Result σ)) :
    Prop :=
  (execution.error moments.before).isSome = true ∨ ∃ answer, call = .ok answer

/-- The sum of usage reports. -/
def totalUsage (heap : UsageHeap) (reports : List Nat) : TokenUsage :=
  ⟨(reports.map fun report => (heap report).inputTokens).sum,
    (reports.map fun report => (heap report).outputTokens).sum⟩

/-- The distinct usage reports that responses share. -/
def sharedReports (responses : List InferenceResponse) : List Nat :=
  (responses.filterMap fun response => response.metadata.usage).eraseDups

/-! ## The beginning of an evaluation -/

/-- The rest of an evaluation records one call, with the outcome of what it returns. -/
def Settles (abstained : ρ → Bool)
    (rest : (CallOutcome → List RecordedCall) → σ → List RecordedCall × Result ρ) : Prop :=
  ∀ record responses,
    (rest record responses).1 = record (outcomeOf abstained (.ok (rest record responses).2))

/-- **The frame of an evaluation.** It records one call exactly if the backend does not throw. -/
theorem evaluation_recordedOnce_iff {recorder : Recorder} (hattached : recorder.attached = true)
    {abstained : ρ → Bool}
    {rest : (CallOutcome → List RecordedCall) → σ → List RecordedCall × Result ρ}
    (hrest : Settles abstained rest) (execution : EvaluationOptions) (moments : Moments)
    (call : Except Thrown (Result σ)) (usageOf : σ → TokenUsage) :
    RecordedOnce recorder.decision abstained (usageSeen execution moments call usageOf)
        (evaluation recorder execution moments call usageOf rest) ↔
      Returns execution moments call := by
  have hrecord : ∀ usage outcome, recorder.record usage outcome =
      [⟨recorder.decision, outcome, recorder.latency, recorder.tag, usage, recorder.unixTimeMs⟩] :=
    fun usage outcome => if_pos hattached
  unfold evaluation usageSeen Returns
  cases hbefore : execution.error moments.before with
  | some failure => exact ⟨fun _ => .inl rfl, fun _ => ⟨_, hrecord _ _, rfl, rfl, rfl⟩⟩
  | none =>
    cases call with
    | error thrown =>
      constructor
      · rintro ⟨recorded, hnone, -⟩
        exact absurd hnone (List.cons_ne_nil _ _).symm
      · rintro (hstopped | ⟨answer, hanswer⟩)
        · cases hstopped
        · cases hanswer
    | ok answer =>
      refine ⟨fun _ => .inr ⟨answer, rfl⟩, fun _ => ?_⟩
      cases answer with
      | error failure => exact ⟨_, hrecord _ _, rfl, rfl, rfl⟩
      | ok responses =>
        cases hafter : execution.error moments.after with
        | some failure => exact ⟨_, hrecord _ _, rfl, rfl, rfl⟩
        | none => exact ⟨_, (hrest _ _).trans (hrecord _ _), rfl, rfl, rfl⟩

/-! ## The exits -/

/-- The outcome of a result is an abstention exactly if nothing is selected. -/
theorem outcome_selected {α : Type} (selected : Option α) :
    (if selected.isSome then CallOutcome.success else .abstain) =
      if !selected.isSome then .abstain else .success := by
  cases selected <;> rfl

/-- Every exit of `choose` records the outcome of what it returns. -/
theorem BoundDecision.interpret_settles (bound : BoundDecision ν) (arith : Arithmetic) :
    Settles DecisionResult.abstained (bound.interpret arith) := by
  intro record response
  unfold BoundDecision.interpret
  dsimp only
  split
  · rfl
  · split
    · rfl
    · split
      · rfl
      · exact congrArg record (outcome_selected _)

/-- Every exit of `evaluate` of a predicate records the outcome of what it returns. -/
theorem BoundPredicate.interpret_settles (bound : BoundPredicate) (arith : Arithmetic) :
    Settles PredicateResult.abstained (bound.interpret arith) := by
  intro record response
  unfold BoundPredicate.interpret
  dsimp only
  split
  · split
    · rfl
    · split
      · rfl
      · exact congrArg record (outcome_selected _)
  · rfl

/-- The loop over the fields leaves `evaluate` with a recorded error only. -/
theorem normalize_error {arith : Arithmetic} {record : CallOutcome → List RecordedCall} {size : Nat}
    {probabilities : List Floating} {exit : List RecordedCall × Error}
    (h : normalize arith record size probabilities = .error exit) : exit.1 = record .error := by
  unfold normalize at h
  dsimp only at h
  split_ifs at h <;> exact (Except.error.inj h) ▸ rfl

/-- The same of all its turns. -/
theorem BoundSystemOne.answers_error {arith : Arithmetic} {record : CallOutcome → List RecordedCall}
    {fields : List (FieldDefinition ν)} {responses : List InferenceResponse}
    {exit : List RecordedCall × Error}
    (h : BoundSystemOne.answers arith record fields responses = .error exit) :
    exit.1 = record .error := by
  induction fields generalizing responses with
  | nil => cases h
  | cons field fields ih =>
    cases responses with
    | nil => cases h
    | cons response responses =>
      rw [BoundSystemOne.answers] at h
      cases hfield : normalize arith record field.size response.scores with
      | error failed =>
        rw [hfield] at h
        obtain rfl : failed = exit := Except.error.inj h
        exact normalize_error hfield
      | ok probabilities =>
        rw [hfield] at h
        cases hrest : BoundSystemOne.answers arith record fields responses with
        | error failed =>
          rw [hrest] at h
          obtain rfl : failed = exit := Except.error.inj h
          exact ih hrest
        | ok answers =>
          rw [hrest] at h
          cases h

/-- Every exit of `evaluate` of a model records the outcome of what it returns. -/
theorem BoundSystemOne.interpret_settles (bound : BoundSystemOne ν) (arith : Arithmetic) :
    Settles SystemOneResult.abstained (bound.interpret arith) := by
  intro record responses
  unfold BoundSystemOne.interpret
  split
  · rfl
  · cases hanswers : BoundSystemOne.answers arith record bound.model.fields responses with
    | error exit => exact BoundSystemOne.answers_error hanswers
    | ok answers => rfl

/-! ## Usage reports -/

/-- One more report. -/
theorem totalUsage_concat (heap : UsageHeap) (reports : List Nat) (report : Nat) :
    totalUsage heap (reports ++ [report]) =
      ⟨(totalUsage heap reports).inputTokens + (heap report).inputTokens,
        (totalUsage heap reports).outputTokens + (heap report).outputTokens⟩ := by
  simp [totalUsage]

/-- The loop over the responses adds the reports it has not seen. -/
theorem addReports_eq (heap : UsageHeap) (seen : List Nat) (responses : List InferenceResponse) :
    addReports heap (totalUsage heap seen.eraseDups) seen.eraseDups responses =
      totalUsage heap
        (seen ++ responses.filterMap fun response => response.metadata.usage).eraseDups := by
  induction responses generalizing seen with
  | nil => rw [addReports, List.filterMap_nil, List.append_nil]
  | cons response responses ih =>
    rw [addReports, List.filterMap_cons]
    cases husage : response.metadata.usage with
    | none => exact ih seen
    | some report =>
      dsimp only
      rw [List.append_cons seen]
      by_cases hseen : report ∈ seen
      · rw [← ih, eraseDups_concat_of_mem hseen]
        exact if_pos (List.mem_eraseDups.2 hseen)
      · rw [← ih, eraseDups_concat_of_notMem hseen, totalUsage_concat]
        exact if_neg fun hmem => hseen (List.mem_eraseDups.1 hmem)

/-- Each shared report is added once. -/
theorem addReports_eq_totalUsage (heap : UsageHeap) :
    addReports heap {} [] = fun responses => totalUsage heap (sharedReports responses) :=
  funext fun responses => addReports_eq heap [] responses

/-! ## The three functions -/

/-- **Accounting.** With a registry, `choose`, the evaluation of a predicate and that of a model
record exactly one call exactly if they have been stopped before the backend is called or the
backend does not throw. The usage of a model is the sum of the distinct reports. -/
theorem recordedOnce_iff (arith : Arithmetic) (heap : UsageHeap) (execution : EvaluationOptions)
    (moments : Moments) :
    (∀ (ν : Type) (bound : BoundDecision ν) (input : Bytes) (tag : Option Bytes)
      (inputKind : ContentKind), bound.attached = true →
      let call := bound.backend.predict (bound.request input execution inputKind)
      (RecordedOnce bound.schema.name DecisionResult.abstained
          (usageSeen execution moments call (InferenceResponse.reported heap))
          (bound.choose arith heap input tag execution inputKind moments) ↔
        Returns execution moments call)) ∧
    (∀ (bound : BoundPredicate) (input : Bytes) (tag : Option Bytes) (inputKind : ContentKind),
      bound.attached = true →
      let call := bound.backend.predict (bound.request input execution inputKind)
      (RecordedOnce bound.definition.name PredicateResult.abstained
          (usageSeen execution moments call (InferenceResponse.reported heap))
          (bound.evaluate arith heap input tag execution inputKind moments) ↔
        Returns execution moments call)) ∧
    ∀ (ν : Type) (bound : BoundSystemOne ν) (state : StateValue), bound.attached = true →
      let call := bound.backend.predictBatch (bound.request state execution).requests
      (RecordedOnce bound.model.id SystemOneResult.abstained
          (usageSeen execution moments call fun responses =>
            totalUsage heap (sharedReports responses))
          (bound.evaluate arith heap state execution moments) ↔
        Returns execution moments call) := by
  refine ⟨fun ν bound input tag inputKind hattached => ?_,
    fun bound input tag inputKind hattached => ?_, fun ν bound state hattached => ?_⟩
  · exact evaluation_recordedOnce_iff hattached (bound.interpret_settles arith) _ _ _ _
  · exact evaluation_recordedOnce_iff hattached (bound.interpret_settles arith) _ _ _ _
  · rw [← addReports_eq_totalUsage]
    exact evaluation_recordedOnce_iff hattached (bound.interpret_settles arith) _ _ _ _

/-! ## An exception and a success -/

/-- Two options. -/
def routingSchema : SchemaDefinition Nat where
  name := lit "support.routing"
  options := [⟨0, lit "billing", {}⟩, ⟨1, lit "technical", {}⟩]
  nonempty := List.cons_ne_nil _ _
  unique := by decide

/-- A model with a choice and a noul field. -/
def ticketModel : DecisionModel Nat where
  id := lit "ticket"
  description := lit "A support ticket"
  fields := [
    .enumField ⟨lit "route", .choice, lit "Which team?", routingSchema, .zero, {}⟩,
    .binaryField ⟨lit "urgent", .noul, lit "Is it urgent?", ⟨.finite (1 / 4), .finite (3 / 4)⟩, {},
      ({}, {})⟩]
  nonempty := List.cons_ne_nil _ _
  unique := by decide

/-- A backend that throws. -/
def throwingBackend : Backend where
  predict _ := .error (.stdException (lit "model has been unloaded"))
  predictBatch _ := .error (.stdException (lit "model has been unloaded"))

/-- A backend that gives every request the same scores, and reports its usage once a call. -/
def constantBackend : Backend where
  predict _ := .ok (.ok ⟨[.finite 3, .finite 1], lit "constant", { usage := some 0 }⟩)
  predictBatch requests := .ok (.ok (requests.map fun _ =>
    ⟨[.finite 3, .finite 1], lit "constant", { usage := some 0 }⟩))

/-- One usage report. -/
def constantHeap : UsageHeap := fun _ => ⟨7, 2⟩

/-- An evaluation that takes a millisecond. -/
def promptly : Moments := ⟨0, { now := 0 }, { now := 1000000 }, 1000000, 0⟩

/-- When the backend throws, nothing is recorded, though a registry is attached. -/
theorem exception_not_recorded :
    let router : BoundDecision Nat := ⟨routingSchema, throwingBackend, .zero, [], true⟩
    let evaluated := router.choose .exact constantHeap (lit "Card charged twice") none {} .text
      promptly
    router.attached = true ∧ evaluated.recorded = [] ∧
      ∀ usage, ¬RecordedOnce router.schema.name DecisionResult.abstained usage evaluated := by
  refine ⟨rfl, rfl, fun usage => ?_⟩
  rintro ⟨call, hcall, -⟩
  exact absurd hcall (List.cons_ne_nil _ _).symm

/-- The three functions with a backend that does not throw; the two fields share a report. -/
theorem recordedOnce_iff_constant :
    RecordedOnce (lit "support.routing") DecisionResult.abstained ⟨7, 2⟩
        ((⟨routingSchema, constantBackend, .zero, [], true⟩ : BoundDecision Nat).choose .exact
          constantHeap (lit "Card charged twice") none {} .text promptly) ∧
      RecordedOnce (lit "refund") PredicateResult.abstained ⟨7, 2⟩
        ((⟨⟨lit "refund", lit "Is a refund due?"⟩, constantBackend, .zero, true⟩ :
          BoundPredicate).evaluate .exact constantHeap (lit "Card charged twice") none {} .text
            promptly) ∧
      RecordedOnce (lit "ticket") SystemOneResult.abstained ⟨7, 2⟩
        ((⟨ticketModel, constantBackend, true⟩ : BoundSystemOne Nat).evaluate .exact constantHeap
          ⟨lit "Card charged twice", .text⟩ {} promptly) := by
  obtain ⟨hchoose, hpredicate, hmodel⟩ := recordedOnce_iff .exact constantHeap {} promptly
  exact ⟨(hchoose Nat ⟨routingSchema, constantBackend, .zero, [], true⟩ _ none .text rfl).2
      (.inr ⟨_, rfl⟩),
    (hpredicate ⟨⟨lit "refund", lit "Is a refund due?"⟩, constantBackend, .zero, true⟩ _ none .text
      rfl).2 (.inr ⟨_, rfl⟩),
    (hmodel Nat ⟨ticketModel, constantBackend, true⟩ _ rfl).2 (.inr ⟨_, rfl⟩)⟩

end Jevt
