import Jevt.Runtime.Accounting

/-!
# Two readings of scores

A decision and a decision model with one field of the kind Choice read the same scores alike
(`scores_agree`). The decision looks for the best option before it normalizes the scores, the
decision model afterwards, with checks of its own. Scores are exact.
-/

namespace Jevt

open Library

variable {ν ν' : Type} {arith : Arithmetic}

/-- Scores for a number of options, as masses that are not negative and not all zero. -/
structure Accepts (count : Nat) (scores : List Floating) (masses : List ℚ) : Prop where
  scores : scores = masses.map Floating.finite
  length : masses.length = count
  nonneg : ∀ q ∈ masses, 0 ≤ q
  total : 0 < masses.sum

/-- The distribution of some masses. -/
def distribution (masses : List ℚ) : List Floating :=
  masses.map fun q => .finite (q / masses.sum)

/-! ## Checks -/

/-- Scores are valid when they are numbers that are not negative. -/
theorem any_invalidScore_eq_false_iff {scores : List Floating} :
    scores.any invalidScore = false ↔
      ∃ masses : List ℚ, scores = masses.map Floating.finite ∧ ∀ q ∈ masses, 0 ≤ q := by
  induction scores with
  | nil => exact ⟨fun _ => ⟨[], rfl, by simp⟩, fun _ => rfl⟩
  | cons score scores ih =>
    rw [List.any_cons, Bool.or_eq_false_iff, ih]
    constructor
    · rintro ⟨hscore, masses, rfl, hmasses⟩
      cases score with
      | nan => simp [invalidScore, Floating.isFinite] at hscore
      | infinite negative => simp [invalidScore, Floating.isFinite] at hscore
      | finite q =>
        have hq : 0 ≤ q := by
          simpa [invalidScore, Floating.isFinite, Floating.lt, Floating.zero] using hscore
        exact ⟨q :: masses, rfl, List.forall_mem_cons.2 ⟨hq, hmasses⟩⟩
    · rintro ⟨masses, hscores, hmasses⟩
      cases masses with
      | nil => cases hscores
      | cons q masses =>
        obtain ⟨rfl, rfl⟩ := List.cons.inj hscores
        obtain ⟨hq, hmasses⟩ := List.forall_mem_cons.1 hmasses
        refine ⟨?_, masses, rfl, hmasses⟩
        simpa [invalidScore, Floating.isFinite, Floating.lt, Floating.zero] using hq

/-- Masses with a positive total are not empty. -/
theorem Accepts.ne_nil {count : Nat} {scores : List Floating} {masses : List ℚ}
    (h : Accepts count scores masses) : masses ≠ [] := by
  rintro rfl
  exact absurd h.total (lt_irrefl _)

/-- Of numbers that are not negative the sum is positive, or the scores are not accepted. -/
theorem accepts_iff {count : Nat} {masses : List ℚ} (hlength : masses.length = count)
    (hnonneg : ∀ q ∈ masses, 0 ≤ q) :
    (∃ masses', Accepts count (masses.map Floating.finite) masses') ↔ 0 < masses.sum := by
  constructor
  · rintro ⟨masses', h⟩
    obtain rfl : masses = masses' :=
      List.map_injective_iff.2 (fun _ _ heq => Floating.finite.inj heq) h.scores
    exact h.total
  · intro h
    exact ⟨masses, rfl, hlength, hnonneg, h⟩

/-! ## The best option -/

/-- Numbers are equal as floating-point values when they are equal. -/
theorem eq_finite (p q : ℚ) : Floating.eq (.finite p) (.finite q) = decide (p = q) := by
  simp [Floating.eq]

/-- **The best option** is that of the provider if it has a maximal score, or the first with a
maximal score. -/
theorem bestChoice_finite {masses : List ℚ} (h : masses ≠ []) (provider : Option Nat) :
    PreferredMaxAt provider masses (bestChoice (masses.map Floating.finite) provider) := by
  have hfirst := Floating.maxElement_finite h
  obtain ⟨b, hb, hmax⟩ := hfirst.1
  have hbest : (masses.map Floating.finite).getD
      (Floating.maxElement (masses.map Floating.finite)) .nan = .finite b := by
    simp [List.getD_eq_getElem?_getD, hb]
  unfold bestChoice
  cases provider with
  | none => exact .inr ⟨by simp, hfirst⟩
  | some p =>
    dsimp only
    rw [hbest]
    by_cases hp : p < masses.length
    · have hget : masses[p]? = some masses[p] := List.getElem?_eq_getElem hp
      have hscore : (masses.map Floating.finite).getD p .nan = .finite masses[p] := by
        simp [List.getD_eq_getElem?_getD, hget]
      have hmaximal : MaxAt masses p ↔ masses[p] = b := by
        constructor
        · rintro ⟨c, hc, hle⟩
          obtain rfl : masses[p] = c := Option.some.inj (hget.symm.trans hc)
          exact le_antisymm (hmax _ (List.getElem_mem hp)) (hle b (List.mem_of_getElem? hb))
        · rintro rfl
          exact ⟨_, hget, hmax⟩
      simp only [List.length_map, hp, true_and, hscore, eq_finite, decide_eq_true_eq]
      by_cases heq : masses[p] = b
      · rw [if_pos heq]
        exact .inl ⟨rfl, hmaximal.2 heq⟩
      · rw [if_neg heq]
        refine .inr ⟨?_, hfirst⟩
        intro p' hp'
        obtain rfl := Option.some.inj hp'
        exact mt hmaximal.1 heq
    · rw [if_neg (by simp [hp])]
      refine .inr ⟨?_, hfirst⟩
      intro p' hp' hmaximal
      obtain rfl := Option.some.inj hp'
      exact hp hmaximal.lt_length

/-! ## Evaluations -/

/-- An evaluation whose checks pass goes on with the responses of the backend. -/
theorem evaluation_of_ok {σ ρ : Type} (recorder : Recorder) {execution : EvaluationOptions}
    {moments : Moments} (hbefore : execution.error moments.before = none)
    (hafter : execution.error moments.after = none) {call : Except Thrown (Result σ)}
    {responses : σ} (hcall : call = .ok (.ok responses)) (usageOf : σ → TokenUsage)
    (rest : (CallOutcome → List RecordedCall) → σ → List RecordedCall × Result ρ) :
    (evaluation recorder execution moments call usageOf rest).returned =
      .ok (rest (recorder.record (usageOf responses)) responses).2 := by
  subst hcall
  unfold evaluation
  rw [hbefore]
  dsimp only
  rw [hafter]

/-- Dividing masses by their total gives their distribution. -/
theorem map_div_finite {masses : List ℚ} (h : 0 < masses.sum) :
    (masses.map Floating.finite).map (fun score => score.div .finite (.finite masses.sum)) =
      distribution masses := by
  simp [distribution, Floating.div, h.ne']

/-- What a decision makes of scores that are accepted. -/
theorem BoundDecision.interpret_accepted (hexact : arith.Exact) {bound : BoundDecision ν}
    (record : CallOutcome → List RecordedCall) {response : InferenceResponse} {masses : List ℚ}
    (h : Accepts bound.schema.size response.scores masses) :
    ∃ result, (bound.interpret arith record response).2 = .ok result ∧
      result.scores = distribution masses ∧
      (result.selected ≠ none → result.selected = bound.schema.values[
        bestChoice response.scores response.metadata.providerChoiceIndex]?) := by
  have hvalid := any_invalidScore_eq_false_iff.2 ⟨masses, h.scores, h.nonneg⟩
  have hlength : response.scores.length = bound.schema.size := by
    rw [h.scores, List.length_map, h.length]
  have hne : response.scores ≠ [] := by
    rw [h.scores]
    simpa using h.ne_nil
  have htotal : response.scores.foldl (Floating.add arith.float) Floating.zero =
      Floating.finite masses.sum := by
    rw [h.scores, hexact.float, Floating.zero, Floating.foldl_add_finite, zero_add]
  have hpositive : (!Floating.zero.lt (.finite masses.sum) ||
      !(Floating.finite masses.sum).isFinite) = false := by
    simp [Floating.zero, Floating.lt, Floating.isFinite, h.total]
  unfold interpret
  dsimp only
  rw [if_neg (not_or.2 ⟨not_not.2 hlength, hne⟩), hvalid, if_neg Bool.false_ne_true, htotal,
    hpositive, if_neg Bool.false_ne_true]
  refine ⟨_, rfl, ?_, ?_⟩
  · rw [hexact.float]
    conv_lhs => rw [h.scores]
    exact map_div_finite h.total
  · dsimp only
    split
    · exact fun _ => rfl
    · exact fun hnone => absurd rfl hnone

/-- A decision rejects scores that are not accepted. -/
theorem BoundDecision.interpret_rejected (hexact : arith.Exact) {bound : BoundDecision ν}
    (record : CallOutcome → List RecordedCall) {response : InferenceResponse}
    (h : ¬∃ masses, Accepts bound.schema.size response.scores masses) :
    ∃ failure, (bound.interpret arith record response).2 = .error failure := by
  unfold interpret
  dsimp only
  split
  · exact ⟨_, rfl⟩
  · next hlength =>
    rw [not_or, not_not] at hlength
    split
    · exact ⟨_, rfl⟩
    · next hvalid =>
      obtain ⟨masses, hscores, hnonneg⟩ :=
        any_invalidScore_eq_false_iff.1 (Bool.eq_false_iff.2 hvalid)
      rw [hscores, List.length_map] at hlength
      rw [hscores, accepts_iff hlength.1 hnonneg] at h
      rw [hscores, hexact.float, Floating.zero, Floating.foldl_add_finite, zero_add, if_pos]
      · exact ⟨_, rfl⟩
      · simp [Floating.lt, h]

/-- A decision model normalizes scores that are accepted. -/
theorem normalize_accepted (hexact : arith.Exact) (record : CallOutcome → List RecordedCall)
    {count : Nat} {scores : List Floating} {masses : List ℚ} (h : Accepts count scores masses) :
    normalize arith record count scores = .ok (distribution masses) := by
  have hvalid := any_invalidScore_eq_false_iff.2 ⟨masses, h.scores, h.nonneg⟩
  have hlength : scores.length = count := by
    rw [h.scores, List.length_map, h.length]
  have htotal : scores.foldl (Floating.add arith.double) Floating.zero =
      Floating.finite masses.sum := by
    rw [h.scores, hexact.double, Floating.zero, Floating.foldl_add_finite, zero_add]
  unfold normalize
  dsimp only
  rw [if_neg (not_not.2 hlength), hvalid, if_neg Bool.false_ne_true, htotal, if_neg]
  · rw [h.scores, List.map_map]
    simp [distribution, Floating.convert, Floating.div, hexact.double, hexact.float, h.total.ne']
  · simp [Floating.zero, Floating.lt, h.total]

/-- A decision model rejects scores that are not accepted. -/
theorem normalize_rejected (hexact : arith.Exact) (record : CallOutcome → List RecordedCall)
    {count : Nat} {scores : List Floating} (h : ¬∃ masses, Accepts count scores masses) :
    ∃ exit, normalize arith record count scores = .error exit := by
  unfold normalize
  split
  · exact ⟨_, rfl⟩
  · next hlength =>
    rw [not_not] at hlength
    split
    · exact ⟨_, rfl⟩
    · next hvalid =>
      obtain ⟨masses, hscores, hnonneg⟩ :=
        any_invalidScore_eq_false_iff.1 (Bool.eq_false_iff.2 hvalid)
      rw [hscores, List.length_map] at hlength
      rw [hscores, accepts_iff hlength hnonneg] at h
      rw [hscores, hexact.double, Floating.zero, Floating.foldl_add_finite, zero_add]
      dsimp only
      rw [if_pos]
      · exact ⟨_, rfl⟩
      · simp [Floating.lt, h]

/-- A distribution has the quotients of the masses by their total. -/
theorem distribution_eq_map (masses : List ℚ) :
    distribution masses = (masses.map fun q => q / masses.sum).map Floating.finite := by
  simp [distribution]

/-- Dividing by a positive total keeps the order. -/
theorem strictMono_div_sum {masses : List ℚ} (h : 0 < masses.sum) :
    StrictMono fun q : ℚ => q / masses.sum :=
  fun _ _ hlt => div_lt_div_of_pos_right hlt h

/-- The best option of a distribution is the best of its masses. -/
theorem bestChoice_distribution {masses : List ℚ} (h : 0 < masses.sum) (provider : Option Nat) :
    PreferredMaxAt provider masses (bestChoice (distribution masses) provider) := by
  have hne : masses ≠ [] := by
    rintro rfl
    exact absurd h (lt_irrefl _)
  rw [distribution_eq_map, ← preferredMaxAt_map (strictMono_div_sum h)]
  exact bestChoice_finite (by simpa using hne) provider

/-! ## The main result -/

/-- Two evaluations of some scores read them alike: they accept the same scores, compute the same
distribution, and where they do not abstain select the same option. -/
structure ReadAlike (count : Nat) (values : List ν) (values' : List ν')
    (response : InferenceResponse) (chosen : Except Thrown (Result (DecisionResult ν)))
    (evaluated : Except Thrown (Result (SystemOneResult ν'))) : Prop where
  chosen_iff : (∃ result, chosen = .ok (.ok result)) ↔
    ∃ masses, Accepts count response.scores masses
  evaluated_iff : (∃ result, evaluated = .ok (.ok result)) ↔
    ∃ masses, Accepts count response.scores masses
  alike : ∀ result result' masses, chosen = .ok (.ok result) → evaluated = .ok (.ok result') →
    Accepts count response.scores masses →
      ∃ answer index, result'.answers = [.enumAnswer answer] ∧
        result.scores = distribution masses ∧ answer.probabilities = distribution masses ∧
        PreferredMaxAt response.metadata.providerChoiceIndex masses index ∧
        (result.selected ≠ none → result.selected = values[index]?) ∧
        (answer.selected ≠ none → answer.selected = values'[index]?)

/-- What a decision model with one field of the kind Choice makes of scores that are accepted. -/
theorem BoundSystemOne.interpret_accepted (hexact : arith.Exact) {one : BoundSystemOne ν'}
    {field : EnumField ν'} (hkind : field.kind = .choice)
    (hfields : one.model.fields = [.enumField field]) (record : CallOutcome → List RecordedCall)
    {response : InferenceResponse} {masses : List ℚ}
    (h : Accepts field.criteria.size response.scores masses) :
    ∃ answer, (one.interpret arith record [response]).2 = .ok ⟨[.enumAnswer answer]⟩ ∧
      answer.probabilities = distribution masses ∧
      (answer.selected ≠ none → answer.selected =
        field.criteria.values[bestChoice (distribution masses)
          response.metadata.providerChoiceIndex]?) := by
  unfold interpret
  simp only [hfields, List.length_singleton, ne_eq, not_true_eq_false, if_false, answers,
    FieldDefinition.size, normalize_accepted hexact record h]
  refine ⟨_, rfl, rfl, ?_⟩
  unfold EnumAnswer.create
  rw [hkind]
  dsimp only
  split
  · exact fun _ => rfl
  · exact fun hnone => absurd rfl hnone

/-- A decision model with one field of the kind Choice rejects scores that are not accepted. -/
theorem BoundSystemOne.interpret_rejected (hexact : arith.Exact) {one : BoundSystemOne ν'}
    {field : EnumField ν'} (hfields : one.model.fields = [.enumField field])
    (record : CallOutcome → List RecordedCall) {response : InferenceResponse}
    (h : ¬∃ masses, Accepts field.criteria.size response.scores masses) :
    ∃ failure, (one.interpret arith record [response]).2 = .error failure := by
  obtain ⟨exit, hexit⟩ := normalize_rejected hexact record h
  unfold interpret
  simp only [hfields, List.length_singleton, ne_eq, not_true_eq_false, if_false, answers,
    FieldDefinition.size, hexit]
  exact ⟨_, rfl⟩

/-- **A decision and a decision model read scores alike.** For every number of options, all scores
and every choice of the provider, a decision and a decision model with one field of the kind Choice
accept the same scores, compute the same distribution of them, and select the same option where
neither abstains: that of the provider if it has a maximal score, or the first with a maximal
score. -/
theorem scores_agree (hexact : arith.Exact) {bound : BoundDecision ν} {one : BoundSystemOne ν'}
    {field : EnumField ν'} (hkind : field.kind = .choice)
    (hfields : one.model.fields = [.enumField field])
    (hsize : field.criteria.size = bound.schema.size) (heap : UsageHeap) (input : Bytes)
    (tag : Option Bytes) (inputKind : ContentKind) (state : StateValue)
    {execution execution' : EvaluationOptions} {moments moments' : Moments}
    (hbefore : execution.error moments.before = none)
    (hafter : execution.error moments.after = none)
    (hbefore' : execution'.error moments'.before = none)
    (hafter' : execution'.error moments'.after = none) {response : InferenceResponse}
    (hcall : bound.backend.predict (bound.request input execution inputKind) =
      .ok (.ok response))
    (hbatch : one.backend.predictBatch (one.request state execution').requests =
      .ok (.ok [response])) :
    ReadAlike bound.schema.size bound.schema.values field.criteria.values response
      (bound.choose arith heap input tag execution inputKind moments).returned
      (one.evaluate arith heap state execution' moments').returned := by
  obtain ⟨record, hchosen⟩ : ∃ record,
      (bound.choose arith heap input tag execution inputKind moments).returned =
        .ok (bound.interpret arith record response).2 :=
    ⟨_, evaluation_of_ok _ hbefore hafter hcall _ _⟩
  obtain ⟨record', hevaluated⟩ : ∃ record',
      (one.evaluate arith heap state execution' moments').returned =
        .ok (one.interpret arith record' [response]).2 :=
    ⟨_, evaluation_of_ok _ hbefore' hafter' hbatch _ _⟩
  rw [hchosen, hevaluated]
  refine ⟨⟨?chosenOnly, ?chosenIf⟩, ⟨?evaluatedOnly, ?evaluatedIf⟩, ?alike⟩
  case chosenOnly =>
    rintro ⟨result, hresult⟩
    by_contra hnone
    obtain ⟨failure, hfailure⟩ := bound.interpret_rejected hexact record hnone
    rw [hfailure] at hresult
    cases Except.ok.inj hresult
  case chosenIf =>
    rintro ⟨masses, h⟩
    obtain ⟨result, hresult, -⟩ := bound.interpret_accepted hexact record h
    exact ⟨result, congrArg Except.ok hresult⟩
  case evaluatedOnly =>
    rintro ⟨result, hresult⟩
    by_contra hnone
    rw [← hsize] at hnone
    obtain ⟨failure, hfailure⟩ := one.interpret_rejected hexact hfields record' hnone
    rw [hfailure] at hresult
    cases Except.ok.inj hresult
  case evaluatedIf =>
    rintro ⟨masses, h⟩
    rw [← hsize] at h
    obtain ⟨answer, hanswer, -⟩ := one.interpret_accepted hexact hkind hfields record' h
    exact ⟨_, congrArg Except.ok hanswer⟩
  case alike =>
    intro result result' masses hresult hresult' h
    obtain ⟨chosen, hok, hscores, hselected⟩ := bound.interpret_accepted hexact record h
    obtain rfl : chosen = result := by
      rw [hok] at hresult
      exact Except.ok.inj (Except.ok.inj hresult)
    obtain ⟨answer, hok', hprobabilities, hselected'⟩ :=
      one.interpret_accepted hexact hkind hfields record' (hsize.symm ▸ h)
    obtain rfl : ⟨[.enumAnswer answer]⟩ = result' := by
      rw [hok'] at hresult'
      exact Except.ok.inj (Except.ok.inj hresult')
    have hbest : PreferredMaxAt response.metadata.providerChoiceIndex masses
        (bestChoice response.scores response.metadata.providerChoiceIndex) := by
      rw [h.scores]
      exact bestChoice_finite h.ne_nil _
    -- Normalizing keeps the order of the scores, so both look for the same option.
    have hsame := (bestChoice_distribution h.total response.metadata.providerChoiceIndex).unique
      hbest
    refine ⟨answer, _, rfl, hscores, hprobabilities, hbest, hselected, ?_⟩
    rw [← hsame]
    exact hselected'

/-! ## An instance -/

/-- Arithmetic that does not round, with the logarithms of one half and of two. -/
def halvingLogs : Arithmetic :=
  { Arithmetic.exact with
    logFloat := fun v =>
      if v = .finite (1 / 2) then .finite (-11629080 / 16777216) else .nan
    logDouble := fun v =>
      if v = .finite 2 then .finite (6243314768165359 / 9007199254740992) else .nan }

/-- A field of the kind Choice. -/
def routeField : EnumField Nat :=
  ⟨lit "route", .choice, lit "Which team?", routingSchema, .zero, {}⟩

/-- A model with that field. -/
def routeModel : DecisionModel Nat where
  id := lit "route"
  description := lit "A support ticket"
  fields := [.enumField routeField]
  nonempty := List.cons_ne_nil _ _
  unique := by decide

/-- Scores that tie, of which the provider chooses the second. -/
def tiedResponse : InferenceResponse :=
  ⟨[.finite 3, .finite 3], lit "constant", { providerChoiceIndex := some 1 }⟩

/-- A backend with that response. -/
def tiedBackend : Backend where
  predict _ := .ok (.ok tiedResponse)
  predictBatch requests := .ok (.ok (requests.map fun _ => tiedResponse))

/-- Scores that tie, read by a decision and by a decision model. -/
theorem scores_agree_tied :
    ReadAlike 2 [0, 1] [0, 1] tiedResponse
      ((⟨routingSchema, tiedBackend, .zero, [], true⟩ : BoundDecision Nat).choose halvingLogs
        constantHeap (lit "Card charged twice") none {} .text promptly).returned
      ((⟨routeModel, tiedBackend, true⟩ : BoundSystemOne Nat).evaluate halvingLogs constantHeap
        ⟨lit "Card charged twice", .text⟩ {} promptly).returned :=
  @scores_agree Nat Nat halvingLogs ⟨rfl, rfl⟩ ⟨routingSchema, tiedBackend, .zero, [], true⟩
    ⟨routeModel, tiedBackend, true⟩ routeField rfl rfl rfl constantHeap _ none .text _ {} {}
    promptly promptly rfl rfl rfl rfl tiedResponse rfl rfl

/-- Both select the second option. -/
example :
    ((⟨routingSchema, tiedBackend, .zero, [], true⟩ : BoundDecision Nat).choose halvingLogs
        constantHeap (lit "Card charged twice") none {} .text promptly).returned.map
          (Except.map DecisionResult.selected) = .ok (.ok (some 1)) ∧
      ((⟨routeModel, tiedBackend, true⟩ : BoundSystemOne Nat).evaluate halvingLogs constantHeap
        ⟨lit "Card charged twice", .text⟩ {} promptly).returned.map
          (Except.map fun result => result.answers.map FieldAnswer.abstained) =
            .ok (.ok [false]) := by
  decide +kernel

end Jevt
