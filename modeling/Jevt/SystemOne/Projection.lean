import Jevt.Library.Traverse
import Jevt.SystemOne.Agreement
import Jevt.SystemOne.Instructions

/-!
# Projections of a decision model

`bound_system_one::select` keeps some fields of a model, and its evaluation asks the backend for
these only. Where the backend answers one request after the other (`backend::predict_batch`), an
evaluation is the evaluations of its fields one by one, and a projection has the answers that the
full evaluation has (`select_preserves_answers`).
-/

namespace Jevt

open Library

variable {ν : Type} {arith : Arithmetic} {bound projected : BoundSystemOne ν}
  {state : StateValue} {execution : EvaluationOptions} {env : Nat → Environment}
  {predict : InferenceRequest → Result InferenceResponse}

/-- `select`, with the static assertions of `select_fields`. -/
def BoundSystemOne.select (bound : BoundSystemOne ν) (names : List Bytes) :
    Option (BoundSystemOne ν) :=
  (selectFields bound.model names).map fun model => { bound with model }

/-- `get` of a result of a model. -/
def SystemOneResult.get (result : SystemOneResult ν) (model : DecisionModel ν) (name : Bytes) :
    Option (FieldAnswer ν) :=
  result.answers[fieldIndex model.fields name]?

/-! ## Rows -/

/-- A field of a model is answered: its row is predicted, and the scores are normalized. -/
def AnswersField (arith : Arithmetic) (model : DecisionModel ν)
    (predict : InferenceRequest → Result InferenceResponse) (state : StateValue)
    (execution : EvaluationOptions) (field : FieldDefinition ν) (answer : FieldAnswer ν) : Prop :=
  ∃ response probabilities,
    predict (rowOf state execution (requestField model field)) = .ok response ∧
      normalize arith (fun _ => []) field.size response.scores = .ok probabilities ∧
        answer = .create arith field probabilities response.modelId response.metadata

/-- Without failing checks the requests are predicted one after the other. -/
theorem predictBatch_eq_mapM {ρ : Type} {predict : InferenceRequest → Result ρ}
    {requests : List InferenceRequest}
    (h : ∀ k, ∀ request ∈ requests, executionError (env k) request = none) (k : Nat) :
    predictBatch env predict k requests = requests.mapM predict := by
  induction requests generalizing k with
  | nil => rfl
  | cons request rest ih =>
    have hchecks : ∀ k, executionError (env k) request = none := fun k =>
      h k request List.mem_cons_self
    rw [predictBatch, hchecks, List.mapM_cons]
    cases predict request with
    | error failure => rfl
    | ok response =>
      dsimp only
      rw [hchecks, ih fun k r hr => h k r (List.mem_cons_of_mem _ hr)]
      cases rest.mapM predict <;> rfl

/-- Scores are normalized alike, whatever is recorded. -/
theorem normalize_congr (record record' : CallOutcome → List RecordedCall) {size : Nat}
    {scores probabilities : List Floating}
    (h : normalize arith record size scores = .ok probabilities) :
    normalize arith record' size scores = .ok probabilities := by
  unfold normalize at h ⊢
  dsimp only at h ⊢
  split_ifs at h ⊢
  exact h

/-- The answers to responses are those of the fields one by one. -/
theorem answers_eq_ok_iff {model : DecisionModel ν} (record : CallOutcome → List RecordedCall)
    {fields : List (FieldDefinition ν)} {responses : List InferenceResponse}
    {answers : List (FieldAnswer ν)}
    (h : List.Forall₂ (fun field response =>
      predict (rowOf state execution (requestField model field)) = .ok response) fields responses) :
    BoundSystemOne.answers arith record fields responses = .ok answers ↔
      List.Forall₂ (AnswersField arith model predict state execution) fields answers := by
  induction h generalizing answers with
  | nil =>
    rw [List.forall₂_nil_left_iff]
    exact ⟨fun h => (Except.ok.inj h).symm, fun h => h ▸ rfl⟩
  | @cons field response fields responses hresponse _ ih =>
    rw [List.forall₂_cons_left_iff, BoundSystemOne.answers]
    constructor
    · intro hanswers
      split at hanswers
      · cases hanswers
      · next probabilities hprobabilities =>
        cases hrest : BoundSystemOne.answers arith record fields responses with
        | error exit =>
          rw [hrest] at hanswers
          cases hanswers
        | ok rest =>
          rw [hrest] at hanswers
          exact ⟨_, rest, ⟨response, probabilities, hresponse,
            normalize_congr _ _ hprobabilities, rfl⟩, ih.1 hrest, (Except.ok.inj hanswers).symm⟩
    · rintro ⟨answer, rest, ⟨response', probabilities, hresponse', hprobabilities, rfl⟩, hrest, rfl⟩
      obtain rfl := Except.ok.inj (hresponse.symm.trans hresponse')
      rw [normalize_congr _ record hprobabilities, ih.2 hrest]
      rfl

/-- Fields that are answered have been predicted. -/
theorem exists_responses {model : DecisionModel ν} {fields : List (FieldDefinition ν)}
    {answers : List (FieldAnswer ν)}
    (h : List.Forall₂ (AnswersField arith model predict state execution) fields answers) :
    ∃ responses, List.Forall₂ (fun field response =>
      predict (rowOf state execution (requestField model field)) = .ok response) fields
        responses := by
  induction h with
  | nil => exact ⟨[], .nil⟩
  | cons hanswer _ ih =>
    obtain ⟨response, -, hresponse, -⟩ := hanswer
    obtain ⟨responses, hresponses⟩ := ih
    exact ⟨response :: responses, .cons hresponse hresponses⟩

/-! ## Evaluations -/

/-- A backend that inherits `predict_batch`, and whose checks do not fail. -/
structure Inherits (backend : Backend) (env : Nat → Environment)
    (predict : InferenceRequest → Result InferenceResponse) (execution : EvaluationOptions) :
    Prop where
  predictBatch : ∀ requests,
    backend.predictBatch requests = .ok (predictBatch env predict 0 requests)
  live : ∀ k, execution.error (env k) = none

/-- The checks of an evaluation do not fail. -/
structure Moments.Pass (moments : Moments) (execution : EvaluationOptions) : Prop where
  before : execution.error moments.before = none
  after : execution.error moments.after = none

/-- The requests of a model are the rows of its fields. -/
theorem requests_eq (bound : BoundSystemOne ν) (state : StateValue)
    (execution : EvaluationOptions) :
    (bound.request state execution).requests = bound.model.fields.map
      fun field => rowOf state execution (requestField bound.model field) := by
  unfold BoundSystemOne.request
  rw [requests_makeSystemOneRequest, makeSystemOneRequest, List.map_map]
  rfl

/-- The backend predicts the rows of a model one by one. -/
theorem Inherits.predictBatch_requests
    (hbackend : Inherits bound.backend env predict execution) (state : StateValue) :
    bound.backend.predictBatch (bound.request state execution).requests =
      .ok ((bound.request state execution).requests.mapM predict) := by
  rw [hbackend.predictBatch, predictBatch_eq_mapM]
  intro k request hrequest
  rw [requests_eq] at hrequest
  obtain ⟨field, -, rfl⟩ := List.mem_map.1 hrequest
  exact hbackend.live k

/-- The interpretation of as many responses as fields is their answers. -/
theorem interpret_eq_ok_iff {record : CallOutcome → List RecordedCall}
    {responses : List InferenceResponse} (hlength : responses.length = bound.model.fields.length)
    {answers : List (FieldAnswer ν)} :
    (bound.interpret arith record responses).2 = .ok ⟨answers⟩ ↔
      BoundSystemOne.answers arith record bound.model.fields responses = .ok answers := by
  unfold BoundSystemOne.interpret
  rw [if_neg (not_not.2 hlength)]
  cases BoundSystemOne.answers arith record bound.model.fields responses with
  | error exit => exact ⟨fun h => (by cases h), fun h => (by cases h)⟩
  | ok answers' =>
    constructor
    · intro h
      exact congrArg (fun result : SystemOneResult ν => Except.ok result.answers)
        (Except.ok.inj h)
    · intro h
      obtain rfl := Except.ok.inj h
      rfl

/-- **An evaluation answers field by field.** -/
theorem evaluate_eq_ok_iff (hbackend : Inherits bound.backend env predict execution)
    (heap : UsageHeap) {moments : Moments} (hmoments : moments.Pass execution)
    {answers : List (FieldAnswer ν)} :
    (bound.evaluate arith heap state execution moments).returned = .ok (.ok ⟨answers⟩) ↔
      List.Forall₂ (AnswersField arith bound.model predict state execution) bound.model.fields
        answers := by
  have hcall := hbackend.predictBatch_requests state
  cases hresponses : (bound.request state execution).requests.mapM predict with
  | error failure =>
    have hreturned : (bound.evaluate arith heap state execution moments).returned =
        .ok (.error failure) := by
      unfold BoundSystemOne.evaluate evaluation
      rw [hmoments.before, hcall, hresponses]
    rw [hreturned]
    refine ⟨fun h => (by cases Except.ok.inj h), fun h => ?_⟩
    obtain ⟨responses, hpredicted⟩ := exists_responses h
    rw [requests_eq, mapM_eq_ok_iff.2 (List.forall₂_map_left_iff.2 hpredicted)] at hresponses
    cases hresponses
  | ok responses =>
    rw [hresponses] at hcall
    rw [requests_eq, mapM_eq_ok_iff, List.forall₂_map_left_iff] at hresponses
    obtain ⟨record, hreturned⟩ : ∃ record,
        (bound.evaluate arith heap state execution moments).returned =
          .ok (bound.interpret arith record responses).2 :=
      ⟨_, evaluation_of_ok _ hmoments.before hmoments.after hcall _ _⟩
    rw [hreturned, ← answers_eq_ok_iff record hresponses,
      ← interpret_eq_ok_iff hresponses.length_eq.symm]
    exact ⟨Except.ok.inj, congrArg _⟩

/-! ## Selections -/

/-- A selection has the backend and the registry of its model. -/
theorem select_spec {names : List Bytes} (h : bound.select names = some projected) :
    selectFields bound.model names = some projected.model ∧
      projected.backend = bound.backend := by
  obtain ⟨model, hmodel, rfl⟩ := Option.map_eq_some_iff.1 h
  exact ⟨hmodel, rfl⟩

/-- A selection answers its fields as the full model does. -/
theorem answersField_select {names : List Bytes} {model selected : DecisionModel ν}
    (h : selectFields model names = some selected) :
    AnswersField arith selected predict state execution =
      AnswersField arith model predict state execution := by
  funext field answer
  unfold AnswersField
  rw [requestField_eq_of_selectFields h]

/-- The field with the name of a field is this field. -/
theorem getElem?_fieldIndex {model : DecisionModel ν} {field : FieldDefinition ν}
    (h : field ∈ model.fields) :
    model.fields[fieldIndex model.fields field.name]? = some field := by
  have hlt : fieldIndex model.fields field.name < model.fields.length :=
    List.findIdx_lt_length_of_exists ⟨field, h, decide_eq_true rfl⟩
  obtain ⟨field', hfield', hname⟩ := exists_of_fieldIndex hlt
  rw [hfield', List.inj_on_of_nodup_map model.unique (List.mem_of_getElem? hfield') h hname]

/-- Each field can be selected alone. -/
theorem exists_select_one {field : FieldDefinition ν} (h : field ∈ bound.model.fields) :
    ∃ one, bound.select [field.name] = some one ∧ one.model.fields = [field] := by
  have hfield := getElem?_fieldIndex h
  have hlt := (List.getElem?_eq_some_iff.1 hfield).1
  obtain ⟨selected, hselected⟩ :
      ∃ selected, selectFields bound.model [field.name] = some selected := by
    unfold selectFields
    rw [dif_pos ⟨List.cons_ne_nil _ _, List.forall_mem_singleton.2 hlt, List.nodup_singleton _⟩]
    exact ⟨_, rfl⟩
  refine ⟨{ bound with model := selected }, congrArg (Option.map _) hselected, ?_⟩
  refine (selectFields_spec hselected).2.1.trans ?_
  exact List.filterMap_cons_some hfield

/-- The answers at the indices of the selected names answer the selected fields. -/
theorem forall₂_fieldsNamed {R : FieldDefinition ν → FieldAnswer ν → Prop}
    {fields : List (FieldDefinition ν)} {answers : List (FieldAnswer ν)}
    (h : List.Forall₂ R fields answers) {names : List Bytes}
    (hknown : ∀ name ∈ names, fieldIndex fields name < fields.length) :
    ∃ chosen, List.Forall₂ R (fieldsNamed fields names) chosen ∧
      chosen.map some = names.map fun name => answers[fieldIndex fields name]? := by
  induction names with
  | nil => exact ⟨[], .nil, rfl⟩
  | cons name names ih =>
    obtain ⟨hname, hnames⟩ := List.forall_mem_cons.1 hknown
    obtain ⟨chosen, hchosen, hmap⟩ := ih hnames
    obtain ⟨field, hfield, -⟩ := exists_of_fieldIndex hname
    obtain ⟨answer, hanswer, hfits⟩ := getElem?_of_forall₂ h hfield
    have hcons : fieldsNamed fields (name :: names) = field :: fieldsNamed fields names :=
      List.filterMap_cons_some hfield
    refine ⟨answer :: chosen, hcons ▸ .cons hfits hchosen, ?_⟩
    rw [List.map_cons, List.map_cons, hmap, hanswer]

/-- The answer under a selected name is that of the full model. -/
theorem get_of_map {result result' : SystemOneResult ν} {names : List Bytes}
    {model selected : DecisionModel ν} (hselected : selectFields model names = some selected)
    (h : result'.answers.map some = names.map fun name => result.get model name) {name : Bytes}
    (hname : name ∈ names) : result'.get selected name = result.get model name := by
  obtain ⟨-, hfields, hknown⟩ := selectFields_spec hselected
  have hnames : selected.fields.map FieldDefinition.name = names :=
    hfields ▸ (map_fieldIndex hknown).2
  obtain ⟨field, hfield, rfl⟩ := List.mem_map.1 (hnames.symm ▸ hname)
  have hget := congrArg (fun l => l[fieldIndex selected.fields field.name]?) h
  have hat := congrArg (fun l => l[fieldIndex selected.fields field.name]?) hnames
  simp only [List.getElem?_map] at hget hat
  rw [getElem?_fieldIndex hfield] at hat
  rw [← hat] at hget
  unfold SystemOneResult.get at hget ⊢
  cases hanswer : result'.answers[fieldIndex selected.fields field.name]? with
  | none =>
    rw [hanswer] at hget
    cases hget
  | some answer =>
    rw [hanswer] at hget
    exact Option.some.inj hget

/-- A projection abstains only where the full model does. -/
theorem abstained_of_map {result result' : SystemOneResult ν} {names : List Bytes}
    {model : DecisionModel ν}
    (h : result'.answers.map some = names.map fun name => result.get model name)
    (habstained : result'.abstained = true) : result.abstained = true := by
  obtain ⟨answer, hanswer, hout⟩ := List.any_eq_true.1 habstained
  have hmem : some answer ∈ result'.answers.map some := List.mem_map_of_mem hanswer
  rw [h] at hmem
  obtain ⟨name, -, hget⟩ := List.mem_map.1 hmem
  exact List.any_eq_true.2 ⟨answer, List.mem_of_getElem? hget, hout⟩

/-- **A projection preserves the answers.** For every model, state and backend that inherits
`predict_batch` and predicts a request always alike, where no check fails: a model is answered
exactly if each of its fields is answered when it is selected alone, and with these answers; and
when a model is answered, so is every selection, in which each name has the answer that it has in
the full model, and which abstains only if the full model does. -/
theorem select_preserves_answers (hbackend : Inherits bound.backend env predict execution)
    (heap : UsageHeap) {moments moments' : Moments} (hmoments : moments.Pass execution)
    (hmoments' : moments'.Pass execution) :
    (∀ answers, (bound.evaluate arith heap state execution moments).returned = .ok (.ok ⟨answers⟩) ↔
      List.Forall₂ (fun field answer => ∃ one, bound.select [field.name] = some one ∧
          (one.evaluate arith heap state execution moments').returned = .ok (.ok ⟨[answer]⟩))
        bound.model.fields answers) ∧
      ∀ names projected result, bound.select names = some projected →
        (bound.evaluate arith heap state execution moments).returned = .ok (.ok result) →
          ∃ result', (projected.evaluate arith heap state execution moments').returned =
              .ok (.ok result') ∧
            result'.answers.map some = (names.map fun name => result.get bound.model name) ∧
            (∀ name ∈ names, result'.get projected.model name = result.get bound.model name) ∧
            (result'.abstained = true → result.abstained = true) := by
  refine ⟨fun answers => ?_, fun names projected result hselect hresult => ?_⟩
  · rw [evaluate_eq_ok_iff hbackend heap hmoments]
    refine forall₂_congr_left fun field hfield answer => ?_
    obtain ⟨one, hselect, hfields⟩ := exists_select_one hfield
    obtain ⟨hselected, hsame⟩ := select_spec hselect
    have hone : (one.evaluate arith heap state execution moments').returned =
        .ok (.ok ⟨[answer]⟩) ↔
          AnswersField arith bound.model predict state execution field answer := by
      rw [evaluate_eq_ok_iff (hsame.symm ▸ hbackend) heap hmoments', hfields,
        answersField_select hselected, List.forall₂_cons, and_iff_left .nil]
    constructor
    · exact fun h => ⟨one, hselect, hone.2 h⟩
    · rintro ⟨one', hselect', hevaluated⟩
      obtain rfl := Option.some.inj (hselect.symm.trans hselect')
      exact hone.1 hevaluated
  · obtain ⟨hselected, hsame⟩ := select_spec hselect
    obtain ⟨-, hfields, hknown⟩ := selectFields_spec hselected
    have hanswers := (evaluate_eq_ok_iff hbackend heap hmoments).1 hresult
    obtain ⟨chosen, hchosen, hmap⟩ := forall₂_fieldsNamed hanswers hknown
    rw [← hfields, ← answersField_select hselected] at hchosen
    have hget : (⟨chosen⟩ : SystemOneResult ν).answers.map some =
        names.map fun name => result.get bound.model name := hmap
    exact ⟨⟨chosen⟩, (evaluate_eq_ok_iff (hsame.symm ▸ hbackend) heap hmoments').2 hchosen, hget,
      fun name hname => get_of_map hselected hget hname, abstained_of_map hget⟩

/-! ## An instance -/

/-- A model with two binary fields. -/
def reviewModel : DecisionModel Unit where
  id := lit "review"
  description := lit "A change"
  fields := [
    .binaryField ⟨lit "approve", .noul, lit "Is it right?", ⟨.finite 0, .finite 1⟩, {}, ({}, {})⟩,
    .binaryField ⟨lit "urgent", .probability, lit "It is urgent", ⟨.finite 0, .finite 1⟩, {},
      ({}, {})⟩]
  nonempty := by decide
  unique := by decide

/-- A backend with one response that inherits `predict_batch`. -/
def inheritedBackend : Backend where
  predict _ := .ok (.ok tiedResponse)
  predictBatch requests := .ok (predictBatch (fun _ => { now := 0 }) (fun _ => .ok tiedResponse) 0
    requests)

/-- The model bound to that backend. -/
def reviewBound : BoundSystemOne Unit := ⟨reviewModel, inheritedBackend, true⟩

/-- The fields alone, and selected in the other order. -/
theorem select_preserves_answers_review :
    ∃ (projected : BoundSystemOne Unit) (result result' : SystemOneResult Unit),
      reviewBound.select [lit "urgent", lit "approve"] = some projected ∧
        List.Forall₂ (fun field answer => ∃ one, reviewBound.select [field.name] = some one ∧
            (one.evaluate .exact constantHeap ⟨lit "diff", .text⟩ {} promptly).returned =
              .ok (.ok ⟨[answer]⟩))
          reviewModel.fields result.answers ∧
        (projected.evaluate .exact constantHeap ⟨lit "diff", .text⟩ {} promptly).returned =
          .ok (.ok result') ∧
        result'.answers.map some =
          [result.get reviewModel (lit "urgent"), result.get reviewModel (lit "approve")] ∧
        (∀ name ∈ [lit "urgent", lit "approve"],
          result'.get projected.model name = result.get reviewModel name) ∧
        (result'.abstained = true → result.abstained = true) ∧
        result.answers.map FieldAnswer.abstained = [true, false] := by
  have hbackend : Inherits reviewBound.backend (fun _ => { now := 0 })
      (fun _ => .ok tiedResponse) {} := ⟨fun _ => rfl, fun _ => rfl⟩
  have hmoments : promptly.Pass {} := ⟨rfl, rfl⟩
  have hevaluated : (reviewBound.evaluate .exact constantHeap ⟨lit "diff", .text⟩ {}
      promptly).returned.map
        (Except.map fun result => result.answers.map FieldAnswer.abstained) =
          .ok (.ok [true, false]) := by decide +kernel
  cases hreturned : (reviewBound.evaluate .exact constantHeap ⟨lit "diff", .text⟩ {}
      promptly).returned with
  | error thrown =>
    rw [hreturned] at hevaluated
    cases hevaluated
  | ok returned =>
    cases returned with
    | error failure =>
      rw [hreturned] at hevaluated
      cases Except.ok.inj hevaluated
    | ok result =>
      rw [hreturned] at hevaluated
      obtain ⟨halone, hselected⟩ :=
        select_preserves_answers hbackend constantHeap hmoments hmoments
      obtain ⟨result', hprojected, hmap, hget, habstained⟩ :=
        hselected [lit "urgent", lit "approve"] _ result rfl hreturned
      exact ⟨_, result, result', rfl, (halone result.answers).1 hreturned, hprojected, hmap, hget,
        habstained, Except.ok.inj (Except.ok.inj hevaluated)⟩

end Jevt
