import Jevt.Remote.Routing
import Jevt.SystemOne.Agreement

/-!
# The choice of the provider

What becomes of the option that the answer to a Choice names. An accepted answer names an option
with a maximal score (`choice_of_decodeAnswer`), neither of the two selections passes it over for
another maximal one (`bestChoice_eq`), and normalizing the scores keeps it maximal, so that a typed
answer abstains or selects it (`choice_survives`). Scores are exact.
-/

namespace Jevt

open Library

variable {ν : Type} {arith : Arithmetic}

/-- The answer names an option. -/
def Names (answer : JsonValue) (index : Nat) : Prop :=
  (answer.member (lit "choice")).bind JsonValue.getString = some (optionKey index)

/-- A score at a position that no score exceeds. -/
def Maximal (scores : List Floating) (index : Nat) : Prop :=
  ∃ q : ℚ, scores[index]? = some (.finite q) ∧
    ∀ (j : Nat) (v : Floating), scores[j]? = some v → Floating.lt (.finite q) v = false

/-! ## Decoding -/

/-- A text that selects an option is its key. -/
theorem selectedIndex_spec {count : Nat} {selected : Bytes}
    (h : selectedIndex count selected ≠ count) :
    selectedIndex count selected < count ∧ selected = optionKey (selectedIndex count selected) := by
  have hfold : ∀ (n start : Nat), (List.range n).foldl
      (fun acc i => if selected = optionKey i then i else acc) start = start ∨
      ∃ i < n, (List.range n).foldl
        (fun acc i => if selected = optionKey i then i else acc) start = i ∧
          selected = optionKey i := by
    intro n start
    induction n with
    | zero => exact .inl rfl
    | succ n ih =>
      rw [List.range_succ, List.foldl_append, List.foldl_cons, List.foldl_nil]
      split
      · next heq => exact .inr ⟨n, Nat.lt_succ_self n, rfl, heq⟩
      · rcases ih with ih | ⟨i, hi, heq, hkey⟩
        · exact .inl ih
        · exact .inr ⟨i, Nat.lt_succ_of_lt hi, heq, hkey⟩
  rcases hfold count count with heq | ⟨i, hi, heq, hkey⟩
  · exact absurd heq h
  · rw [show selectedIndex count selected = i from heq]
    exact ⟨hi, hkey⟩

/-- Scores that are read are finite. -/
theorem finite_of_unit (hexact : arith.Exact) {value : JsonValue} {score : Floating}
    (h : unit arith value = some score) : ∃ q : ℚ, score = .finite q ∧ 0 ≤ q := by
  simp only [unit, Option.bind_eq_bind, Option.bind_eq_some_iff] at h
  obtain ⟨number, -, h⟩ := h
  split at h
  · cases h
  · next hunit =>
    obtain rfl := Option.some.inj h
    cases number with
    | finite q =>
      refine ⟨q, by rw [Floating.convert, hexact.float], not_lt.1 fun hnegative => hunit ?_⟩
      simp [Floating.lt, Floating.zero, hnegative]
    | nan => simp [Floating.isFinite] at hunit
    | infinite negative => simp [Floating.isFinite] at hunit

/-- The scores of an answer are finite and not negative. -/
theorem finite_of_probabilityScores (hexact : arith.Exact) {key : Nat → Bytes} {count : Nat}
    {probabilities : List (Bytes × JsonValue)} {scores : List Floating}
    (h : probabilityScores arith key count probabilities = some scores) :
    ∀ score ∈ scores, ∃ q : ℚ, score = .finite q ∧ 0 ≤ q := by
  intro score hscore
  obtain ⟨i, hi⟩ := List.mem_iff_getElem?.1 hscore
  have hlt : i < (List.range count).length := by
    rw [← length_eq_of_mapM h]
    exact (List.getElem?_eq_some_iff.1 hi).1
  obtain ⟨score', hscore', hunit⟩ := getElem?_of_mapM h (List.getElem?_eq_getElem hlt)
  obtain rfl := Option.some.inj (hi.symm.trans hscore')
  obtain ⟨value, -, hvalue⟩ := Option.bind_eq_some_iff.1 hunit
  exact finite_of_unit hexact hvalue

/-- What the answer to a Choice adds is an option it names, which has a maximal score. -/
theorem providerChoice_eq_some {count index : Nat} {answer : JsonValue} {scores : List Floating}
    (hlength : scores.length = count)
    (hfinite : ∀ score ∈ scores, ∃ q : ℚ, score = .finite q ∧ 0 ≤ q)
    (h : providerChoice count answer scores = some index) :
    index < count ∧ Names answer index ∧ Maximal scores index := by
  simp only [providerChoice, Option.bind_eq_bind, Option.bind_eq_some_iff] at h
  obtain ⟨value, hvalue, selected, hselected, h⟩ := h
  split at h
  · cases h
  · next hmaximal =>
    obtain rfl := Option.some.inj h
    rw [not_or] at hmaximal
    obtain ⟨hlt, hkey⟩ := selectedIndex_spec hmaximal.1
    refine ⟨hlt, ?_, ?_⟩
    · rw [Names, hvalue, Option.bind_some, hselected, ← hkey]
    · have hget : scores[selectedIndex count selected]? =
          some (scores.getD (selectedIndex count selected) .nan) := by
        rw [List.getD_eq_getElem _ _ (hlength ▸ hlt)]
        exact List.getElem?_eq_getElem (hlength ▸ hlt)
      obtain ⟨q, hq, -⟩ := hfinite _ (List.mem_of_getElem? hget)
      obtain ⟨best, hbest, hmax⟩ := Floating.maxElement_max
        (l := scores) (by rintro rfl; simp at hget)
      rw [hq] at hget
      refine ⟨q, hget, fun j v hj => Bool.eq_false_iff.2 fun hless => ?_⟩
      have hbestD : scores.getD (Floating.maxElement scores) .nan = best := by
        rw [List.getD_eq_getElem?_getD, hbest, Option.getD_some]
      rw [hq, hbestD] at hmaximal
      obtain ⟨b, rfl, -⟩ := hfinite _ (List.mem_of_getElem? hbest)
      obtain ⟨r, rfl, -⟩ := hfinite _ (List.mem_of_getElem? hj)
      have hbr := hmax j _ hj
      simp only [Floating.lt, decide_eq_true_eq, not_lt] at hless hmaximal
      simp only [Floating.lt, decide_eq_false_iff_not, not_lt] at hbr
      exact absurd (hless.trans_le hbr) (not_lt.2 hmaximal.2)

/-- An accepted answer to a Choice names an option with a maximal score, and the response keeps
it. -/
theorem choice_of_decodeAnswer (hexact : arith.Exact) {request : InferenceRequest}
    (hkind : request.questionKind = .choice) {answer : JsonValue}
    {blank response : InferenceResponse}
    (h : decodeAnswer arith request answer blank = some response) :
    ∃ index, index < request.options.length ∧ Names answer index ∧
      response.metadata.providerChoiceIndex = some index ∧
      response.scores.length = request.options.length ∧
      (∀ score ∈ response.scores, ∃ q : ℚ, score = .finite q ∧ 0 ≤ q) ∧
      Maximal response.scores index ∧
      ∃ probabilities,
        (answer.member (lit "probabilities")).bind (JsonValue.getMembers request.options.length) =
          some probabilities ∧
        probabilityScores arith optionKey request.options.length probabilities =
          some response.scores := by
  unfold decodeAnswer at h
  rw [hkind] at h
  simp only [Option.bind_eq_bind, Option.bind_eq_some_iff] at h
  obtain ⟨typeValue, -, type, -, h⟩ := h
  split at h
  · cases h
  · simp only [Option.bind_eq_some_iff] at h
    obtain ⟨_, -, _, -, value, hvalue, probabilities, hprobabilities, scores, hscores, h⟩ := h
    split at h
    · cases h
    · obtain ⟨index, hindex, h⟩ := Option.bind_eq_some_iff.1 h
      obtain rfl := Option.some.inj h
      have hfinite := finite_of_probabilityScores hexact hscores
      have hlength : scores.length = request.options.length := by
        rw [length_eq_of_mapM hscores, List.length_range]
      obtain ⟨hlt, hnames, hmaximal⟩ := providerChoice_eq_some hlength hfinite hindex
      exact ⟨index, hlt, hnames, rfl, hlength, hfinite, hmaximal, probabilities,
        Option.bind_eq_some_iff.2 ⟨value, hvalue, hprobabilities⟩, hscores⟩

/-- Of two options that tie the provider may name either. -/
example : (decodeAnswer .exact { options := [lit "a", lit "b"] }
    (.ofMembers [(lit "type", .string (lit "choice")), (lit "choice", .string (lit "option_1")),
      (lit "confidence", .unsigned 1),
      (lit "probabilities", .ofMembers [(lit "option_0", .float (.finite (1 / 2))),
        (lit "option_1", .float (.finite (1 / 2)))])])
    { scores := [], modelId := [] }).map (fun response => response.metadata.providerChoiceIndex) =
      some (some 1) := by
  decide +kernel

/-! ## Selecting -/

/-- Scores that are finite and not negative are masses. -/
theorem exists_masses {scores : List Floating}
    (hfinite : ∀ score ∈ scores, ∃ q : ℚ, score = .finite q ∧ 0 ≤ q) :
    ∃ masses : List ℚ, scores = masses.map Floating.finite ∧ ∀ q ∈ masses, 0 ≤ q := by
  refine any_invalidScore_eq_false_iff.1 (List.any_eq_false.2 fun score hscore => ?_)
  obtain ⟨q, rfl, hq⟩ := hfinite score hscore
  simpa [invalidScore, Floating.isFinite, Floating.lt, Floating.zero] using hq

/-- No score exceeds a score when no mass exceeds its mass. -/
theorem maximal_map_finite {masses : List ℚ} {index : Nat} :
    Maximal (masses.map Floating.finite) index ↔ MaxAt masses index := by
  constructor
  · rintro ⟨q, hq, hmax⟩
    rw [List.getElem?_map] at hq
    obtain ⟨mass, hmass, heq⟩ := Option.map_eq_some_iff.1 hq
    obtain rfl := Floating.finite.inj heq
    refine ⟨mass, hmass, fun other hother => ?_⟩
    obtain ⟨j, hj⟩ := List.mem_iff_getElem?.1 hother
    have hle := hmax j (.finite other) (by rw [List.getElem?_map, hj, Option.map_some])
    simpa [Floating.lt] using hle
  · rintro ⟨q, hq, hmax⟩
    refine ⟨q, by rw [List.getElem?_map, hq, Option.map_some], fun j v hj => ?_⟩
    rw [List.getElem?_map] at hj
    obtain ⟨mass, hmass, rfl⟩ := Option.map_eq_some_iff.1 hj
    simpa [Floating.lt] using hmax mass (List.mem_of_getElem? hmass)

/-- A selection does not pass over a maximal option of the provider. -/
theorem bestChoice_eq {scores : List Floating} {index : Nat}
    (hfinite : ∀ score ∈ scores, ∃ q : ℚ, score = .finite q ∧ 0 ≤ q)
    (hmaximal : Maximal scores index) : bestChoice scores (some index) = index := by
  obtain ⟨masses, rfl, -⟩ := exists_masses hfinite
  have hmax := maximal_map_finite.1 hmaximal
  have hne : masses ≠ [] := List.ne_nil_of_length_pos (Nat.zero_lt_of_lt hmax.lt_length)
  rcases bestChoice_finite hne (some index) with ⟨hpreferred, -⟩ | ⟨hnone, -⟩
  · exact (Option.some.inj hpreferred).symm
  · exact absurd hmax (hnone index rfl)

/-- Normalizing keeps the scores finite and a maximal option maximal. -/
theorem normalize_maximal (hexact : arith.Exact) {record : CallOutcome → List RecordedCall}
    {size index : Nat} {scores probabilities : List Floating} (hmaximal : Maximal scores index)
    (h : normalize arith record size scores = .ok probabilities) :
    (∀ p ∈ probabilities, ∃ q : ℚ, p = .finite q ∧ 0 ≤ q) ∧ Maximal probabilities index := by
  have haccepts : ∃ masses, Accepts size scores masses := by
    by_contra hnone
    obtain ⟨exit, hexit⟩ := normalize_rejected hexact record hnone
    cases h.symm.trans hexit
  obtain ⟨masses, haccepts⟩ := haccepts
  obtain rfl : distribution masses = probabilities :=
    Except.ok.inj ((normalize_accepted hexact record haccepts).symm.trans h)
  refine ⟨fun p hp => ?_, ?_⟩
  · obtain ⟨q, hq, rfl⟩ := List.mem_map.1 hp
    exact ⟨q / masses.sum, rfl, div_nonneg (haccepts.nonneg q hq) haccepts.total.le⟩
  · rw [haccepts.scores, maximal_map_finite] at hmaximal
    rw [distribution_eq_map, maximal_map_finite, maxAt_map (strictMono_div_sum haccepts.total)]
    exact hmaximal

/-! ## Evaluations that ask the remote backend -/

/-- An evaluation without an error goes on with the responses of the backend. -/
theorem evaluation_eq_ok {σ ρ : Type} {recorder : Recorder} {execution : EvaluationOptions}
    {moments : Moments} {call : Except Thrown (Result σ)} {usageOf : σ → TokenUsage}
    {rest : (CallOutcome → List RecordedCall) → σ → List RecordedCall × Result ρ} {result : ρ}
    (h : (evaluation recorder execution moments call usageOf rest).returned = .ok (.ok result)) :
    ∃ responses record, call = .ok (.ok responses) ∧ (rest record responses).2 = .ok result := by
  unfold evaluation at h
  split at h
  · cases h
  · split at h
    · cases h
    · cases h
    · next responses =>
      dsimp only at h
      split at h
      · cases h
      · exact ⟨responses, _, rfl, Except.ok.inj h⟩

/-- A decision that selects an option of a response selects that of the provider. -/
theorem BoundDecision.interpret_selected {bound : BoundDecision ν}
    {record : CallOutcome → List RecordedCall} {response : InferenceResponse}
    {result : DecisionResult ν} {index : Nat}
    (hfinite : ∀ score ∈ response.scores, ∃ q : ℚ, score = .finite q ∧ 0 ≤ q)
    (hprovider : response.metadata.providerChoiceIndex = some index)
    (hmaximal : Maximal response.scores index)
    (h : (bound.interpret arith record response).2 = .ok result) :
    result.selected = none ∨ result.selected = bound.schema.values[index]? := by
  unfold interpret at h
  dsimp only at h
  rw [hprovider, bestChoice_eq hfinite hmaximal] at h
  split at h
  · cases h
  · split at h
    · cases h
    · split at h
      · cases h
      · obtain rfl := Except.ok.inj h
        dsimp only
        split
        · exact .inr rfl
        · exact .inl rfl

/-- The request for a field of the kind Choice is a Choice between its criteria. -/
theorem BoundSystemOne.requests_getElem? {bound : BoundSystemOne ν} {state : StateValue}
    {execution : EvaluationOptions} {i : Nat} {field : EnumField ν}
    (hfield : bound.model.fields[i]? = some (.enumField field)) (hkind : field.kind = .choice) :
    ∃ request, (bound.request state execution).requests[i]? = some request ∧
      request.questionKind = .choice ∧ request.options.length = field.criteria.size := by
  simp only [SystemOneRequest.requests, BoundSystemOne.request, makeSystemOneRequest,
    List.getElem?_map, hfield, Option.map_some]
  refine ⟨_, rfl, ?_, ?_⟩
  · simp [requestField, FieldDefinition.questionKind, hkind]
  · simp [requestField, FieldDefinition.criteria, SchemaDefinition.descriptions,
      SchemaDefinition.size]

/-- The answers are made field by field. -/
theorem BoundSystemOne.answers_getElem? {record : CallOutcome → List RecordedCall}
    {fields : List (FieldDefinition ν)} {responses : List InferenceResponse}
    {answers : List (FieldAnswer ν)}
    (h : BoundSystemOne.answers arith record fields responses = .ok answers) {i : Nat}
    {field : FieldDefinition ν} {response : InferenceResponse} (hfield : fields[i]? = some field)
    (hresponse : responses[i]? = some response) :
    ∃ probabilities, normalize arith record field.size response.scores = .ok probabilities ∧
      answers[i]? =
        some (.create arith field probabilities response.modelId response.metadata) := by
  induction fields generalizing responses answers i with
  | nil => simp at hfield
  | cons first fields ih =>
    cases responses with
    | nil => simp at hresponse
    | cons firstResponse responses =>
      rw [BoundSystemOne.answers] at h
      split at h
      · cases h
      · next probabilities hnormalize =>
        cases hrest : BoundSystemOne.answers arith record fields responses with
        | error exit =>
          rw [hrest] at h
          cases h
        | ok rest =>
          rw [hrest] at h
          obtain rfl := Except.ok.inj h
          cases i with
          | zero =>
            obtain rfl := Option.some.inj hfield
            obtain rfl := Option.some.inj hresponse
            exact ⟨probabilities, hnormalize, rfl⟩
          | succ i => exact ih hrest hfield hresponse

/-- An answer of the kind Choice selects the option of the provider, if any. -/
theorem EnumAnswer.create_selected {field : EnumField ν} {probabilities : List Floating}
    {modelId : Bytes} {metadata : ExecutionMetadata} {index : Nat} (hkind : field.kind = .choice)
    (hfinite : ∀ p ∈ probabilities, ∃ q : ℚ, p = .finite q ∧ 0 ≤ q)
    (hprovider : metadata.providerChoiceIndex = some index)
    (hmaximal : Maximal probabilities index) :
    (EnumAnswer.create arith field probabilities modelId metadata).selected = none ∨
      (EnumAnswer.create arith field probabilities modelId metadata).selected =
        field.criteria.values[index]? := by
  unfold EnumAnswer.create
  rw [hkind, hprovider, bestChoice_eq hfinite hmaximal]
  dsimp only
  split
  · exact .inr rfl
  · exact .inl rfl

namespace TypesafeBackend

variable {backend : TypesafeBackend} {w : World} {codec : JsonCodec} {reading : Nat}

/-- The remote backend as a backend, for a call whose first reading has a given number. -/
def toBackend (backend : TypesafeBackend) (w : World) (codec : JsonCodec) (reading : Nat) :
    Backend where
  predict := fun request => .ok (predict backend w codec request reading)
  predictBatch := fun requests =>
    .ok ((predictBatch backend w codec requests reading).2.map Predicted.output)

/-- The reply to the post of a request names an option in the answer to it. -/
def ReplyNames (codec : JsonCodec) (posts : List Post) (i index : Nat) : Prop :=
  ∃ post ∈ posts, ∃ sent reply row answer, post.group[row]? = some i ∧ post.sent = .ok sent ∧
    readReply codec post.group.length sent.value.body = some reply ∧
    reply.answers.lookup (questionKey row) = some answer ∧ Names answer index

/-- What becomes of the choice of the provider. -/
structure ChoiceSurvives (ν : Type) (backend : TypesafeBackend) (w : World) (codec : JsonCodec)
    (reading : Nat) : Prop where
  /-- A decision abstains or selects the option that the reply names. -/
  chosen : ∀ (bound : BoundDecision ν) (heap : UsageHeap) (input : Bytes) (tag : Option Bytes)
    (execution : EvaluationOptions) (inputKind : ContentKind) (moments : Moments)
    (result : DecisionResult ν),
    ({ bound with backend := backend.toBackend w codec reading }.choose w.arith heap input tag
      execution inputKind moments).returned = .ok (.ok result) →
    ∃ index < bound.schema.size,
      ReplyNames codec
        (predictBatch backend w codec [bound.request input execution inputKind] reading).1 0 index ∧
      (result.selected = none ∨ result.selected = bound.schema.values[index]?)
  /-- So does the answer to a field of the kind Choice. -/
  answered : ∀ (bound : BoundSystemOne ν) (heap : UsageHeap) (state : StateValue)
    (execution : EvaluationOptions) (moments : Moments) (result : SystemOneResult ν),
    ({ bound with backend := backend.toBackend w codec reading }.evaluate w.arith heap state
      execution moments).returned = .ok (.ok result) →
    ∀ i field, bound.model.fields[i]? = some (.enumField field) → field.kind = .choice →
      ∃ index < field.criteria.size, ∃ answer,
        ReplyNames codec
          (predictBatch backend w codec (bound.request state execution).requests reading).1 i
            index ∧
        result.answers[i]? = some (.enumAnswer answer) ∧
        (answer.selected = none ∨ answer.selected = field.criteria.values[index]?)
  /-- An answer is rejected that names no option, or one with a score that another one exceeds. -/
  rejected : ∀ (request : InferenceRequest) (answer : JsonValue) (blank : InferenceResponse),
    request.questionKind = .choice →
    (∀ index < request.options.length, Names answer index →
      ∃ (probabilities : List (Bytes × JsonValue)) (scores : List Floating) (j : Nat),
        (answer.member (lit "probabilities")).bind (JsonValue.getMembers request.options.length) =
          some probabilities ∧
        probabilityScores w.arith optionKey request.options.length probabilities = some scores ∧
        (scores.getD index .nan).lt (scores.getD j .nan) = true) →
    decodeAnswer w.arith request answer blank = none

/-- A batch without an error has decoded the answer to each request. -/
theorem decoded_of_predictBatch {requests : List InferenceRequest} {predicted : Predicted}
    (h : (predictBatch backend w codec requests reading).2 = .ok predicted) {i : Nat}
    {request : InferenceRequest} (hrequest : requests[i]? = some request)
    (hexact : w.arith.Exact) (hkind : request.questionKind = .choice) :
    ∃ index < request.options.length, ∃ response,
      ReplyNames codec (predictBatch backend w codec requests reading).1 i index ∧
      predicted.output[i]? = some response ∧
      response.metadata.providerChoiceIndex = some index ∧
      (∀ score ∈ response.scores, ∃ q : ℚ, score = .finite q ∧ 0 ≤ q) ∧
      Maximal response.scores index := by
  obtain ⟨-, -, hsuccess⟩ := predictBatch_spec (w := w)
    requests reading
  obtain ⟨hgroups, -, haccepted⟩ := hsuccess predicted h
  obtain ⟨post, hpost, sent, reply, usage, row, answer, response, hrow, hsent, hreply, -, hanswer,
    hdecode, hplace⟩ := answer_of_accepted hgroups haccepted hrequest
  obtain ⟨index, hlt, hnames, hprovider, -, hfinite, hmaximal, -⟩ :=
    choice_of_decodeAnswer hexact hkind hdecode
  exact ⟨index, hlt, response, ⟨post, hpost, sent, reply, row, answer, hrow, hsent, hreply, hanswer,
    hnames⟩, hplace, hprovider, hfinite, hmaximal⟩

/-- **The choice of the provider survives.** With exact scores, a typed answer that is made of a
reply of the remote backend abstains or selects the option that the reply names, and an answer that
names an option with a score below another one is rejected. -/
theorem choice_survives (backend : TypesafeBackend) {w : World} (hexact : w.arith.Exact)
    (codec : JsonCodec) (reading : Nat) : ChoiceSurvives ν backend w codec reading := by
  constructor
  case chosen =>
    intro bound heap input tag execution inputKind moments result h
    obtain ⟨response, record, hcall, hresult⟩ := evaluation_eq_ok h
    have hpredict : predict backend w codec (bound.request input execution inputKind) reading =
        .ok response := Except.ok.inj hcall
    unfold predict at hpredict
    split at hpredict
    · cases hpredict
    · next predicted hpredicted =>
      obtain ⟨index, hlt, response', hnames, hplace, hprovider, hfinite, hmaximal⟩ :=
        decoded_of_predictBatch hpredicted (i := 0) rfl hexact rfl
      obtain rfl : response' = response := by
        rw [← Except.ok.inj hpredict, List.headD_eq_head?_getD, List.head?_eq_getElem?, hplace,
          Option.getD_some]
      refine ⟨index, ?_, hnames, ?_⟩
      · simpa [BoundDecision.request, SchemaDefinition.descriptions, SchemaDefinition.size]
          using hlt
      · exact BoundDecision.interpret_selected hfinite hprovider hmaximal hresult
  case answered =>
    intro bound heap state execution moments result h i field hfield hkind
    obtain ⟨responses, record, hcall, hresult⟩ := evaluation_eq_ok h
    have hbatch : (predictBatch backend w codec (bound.request state execution).requests
        reading).2.map Predicted.output = .ok responses := Except.ok.inj hcall
    cases hpredicted : (predictBatch backend w codec (bound.request state execution).requests
        reading).2 with
    | error failure =>
      rw [hpredicted] at hbatch
      cases hbatch
    | ok predicted =>
      rw [hpredicted] at hbatch
      obtain rfl : predicted.output = responses := Except.ok.inj hbatch
      obtain ⟨request, hrequest, hchoice, hsize⟩ :=
        BoundSystemOne.requests_getElem? hfield hkind
      obtain ⟨index, hlt, response, hnames, hplace, hprovider, hfinite, hmaximal⟩ :=
        decoded_of_predictBatch hpredicted hrequest hexact hchoice
      unfold BoundSystemOne.interpret at hresult
      split at hresult
      · cases hresult
      · split at hresult
        · cases hresult
        · next answers hanswers =>
          obtain rfl := Except.ok.inj hresult
          obtain ⟨probabilities, hnormalize, hget⟩ :=
            BoundSystemOne.answers_getElem? hanswers hfield hplace
          obtain ⟨hnormalized, hmax⟩ := normalize_maximal hexact hmaximal hnormalize
          exact ⟨index, hsize ▸ hlt, _, hnames, hget,
            EnumAnswer.create_selected hkind hnormalized hprovider hmax⟩
  case rejected =>
    intro request answer blank hkind hother
    cases hdecode : decodeAnswer w.arith request answer blank with
    | none => rfl
    | some response =>
      obtain ⟨index, hlt, hnames, -, -, -, ⟨q, hq, hmax⟩, probabilities, hprobabilities, hscores⟩ :=
        choice_of_decodeAnswer hexact hkind hdecode
      obtain ⟨probabilities', scores, j, hprobabilities', hscores', hless⟩ :=
        hother index hlt hnames
      obtain rfl := Option.some.inj (hprobabilities.symm.trans hprobabilities')
      obtain rfl := Option.some.inj (hscores.symm.trans hscores')
      rw [List.getD_eq_getElem?_getD, hq, Option.getD_some, List.getD_eq_getElem?_getD] at hless
      cases hj : response.scores[j]? with
      | none => simp [hj, Floating.lt] at hless
      | some v =>
        rw [hj, Option.getD_some, hmax j v hj] at hless
        cases hless

/-! ## An instance -/

/-- A batch of one group whose reply is decoded has the responses it is decoded to. -/
theorem predictBatch_of_group {requests : List InferenceRequest} {group : List Nat}
    {json : JsonValue} {text : Bytes} {sent : SentResponse} {output : List InferenceResponse}
    {usage : TokenUsage} (hne : requests ≠ []) (hgroups : groups requests = [group])
    (hunstopped : ∀ k,
      (batchExecution backend requests (w.env reading).now).error (w.env k) = none)
    (hbody : body backend codec requests group = .ok (json, text))
    (hsent : (send backend w (lit "POST") (lit "/v1/systemone") text
      (batchExecution backend requests (w.env reading).now) (reading + 2)).2 = .ok sent)
    (hdecode : decodeGroup backend w.arith codec requests group sent 0
      (List.replicate requests.length { scores := [], modelId := [] }) = some (output, usage)) :
    (predictBatch backend w codec requests reading).2 = .ok ⟨output, [usage]⟩ := by
  rw [predictBatch, if_neg hne]
  dsimp only
  rw [hunstopped, hgroups]
  dsimp only
  rw [postGroups, hbody]
  dsimp only
  rw [hsent]
  dsimp only
  rw [List.length_nil, hdecode]
  dsimp only
  rw [hunstopped]
  rfl

/-- A schema of two options. -/
def sidesSchema : SchemaDefinition Nat where
  name := lit "side"
  options := [⟨0, lit "left", textMetadata (lit "left")⟩,
    ⟨1, lit "right", textMetadata (lit "right")⟩]
  nonempty := List.cons_ne_nil _ _
  unique := by decide

/-- A model with a field of the kind Choice between them. -/
def sidesModel : DecisionModel Nat where
  id := lit "sides"
  description := lit "Sides"
  fields := [.enumField ⟨lit "side", .choice, lit "which?", sidesSchema, .zero, {}⟩]
  nonempty := List.cons_ne_nil _ _
  unique := by decide

/-- The text of the payload of a decision. -/
def decisionText : Bytes :=
  payloadText (lit "s") (lit "\"q0\":" ++ choiceText (lit "which?"))

/-- The text of the payload of the model. -/
def modelText : Bytes :=
  payloadText (lit "s") (lit "\"q0\":" ++ choiceText (lit "Sides\\n\\nwhich?"))

/-- The text of a reply in which the options tie. -/
def tiedReplyText : Bytes := replyText (lit "\"q0\":" ++ tiedText)

/-- The payloads and the reply with their texts. -/
def tiedTable : List (Bytes × JsonValue) :=
  [(decisionText, payloadOf (lit "s") [(lit "q0", choiceQuestion (lit "which?"))]),
    (modelText, payloadOf (lit "s") [(lit "q0", choiceQuestion (lit "Sides\n\nwhich?"))]),
    (tiedReplyText, replyOf [(lit "q0", tiedAnswer)])]

/-- What the parser and the serializer do with them. -/
def tiedCodec : JsonCodec := .ofTable tiedTable (by decide +kernel) (by decide +kernel)

/-- The world around a server in whose replies the options tie. -/
def tiedWorld : World :=
  { World.still fun _ _ => some (.ok { status := 200, body := tiedReplyText }) with
    arith := halvingLogs
    binary64 := ⟨fun _ _ => rfl, fun _ _ h => Floating.finite_le_iff.2 h⟩ }

/-- A backend that asks this server. -/
def tiedServer : Backend := pairBackend.toBackend tiedWorld tiedCodec 0

/-- A decision that asks this server. -/
def sideDecision : BoundDecision Nat := ⟨sidesSchema, tiedServer, .zero, lit "which?", true⟩

/-- The model, which asks this server. -/
def sideModel : BoundSystemOne Nat := ⟨sidesModel, tiedServer, true⟩

/-- The response to a request between two options that tie. -/
def sideResponse : InferenceResponse where
  scores := [.finite (1 / 2), .finite (1 / 2)]
  modelId := lit "jev"
  metadata :=
    { provider := lit "typesafe"
      modelRevision := lit "jev"
      usage := some 0
      providerConfidence := some (.finite (1 / 2))
      providerChoiceIndex := some 1 }

/-- The backend answers a request between two options with that response. -/
theorem predictBatch_tied {request : InferenceRequest} {json : JsonValue} {text : Bytes}
    (hdeadline : request.deadline = none) (hcancellation : request.cancellation = none)
    (hbody : body pairBackend tiedCodec [request] [0] = .ok (json, text))
    (hdecode : decodeGroup pairBackend halvingLogs tiedCodec [request] [0]
      ⟨{ status := 200, body := tiedReplyText }, 1⟩ 0 [{ scores := [], modelId := [] }] =
        some ([sideResponse], ⟨7, 1⟩)) :
    (predictBatch pairBackend tiedWorld tiedCodec [request] 0).2 =
      .ok ⟨[sideResponse], [⟨7, 1⟩]⟩ := by
  have hexecution : batchExecution pairBackend [request] (tiedWorld.env 0).now =
      ⟨30000000000, []⟩ := by
    simp [batchExecution, hdeadline, hcancellation]
    decide +kernel
  have hunstopped : ∀ k, (batchExecution pairBackend [request] (tiedWorld.env 0).now).error
      (tiedWorld.env k) = none := by
    intro k
    rw [hexecution]
    show RemoteExecution.error ⟨30000000000, []⟩ { now := 0 } = none
    decide +kernel
  refine predictBatch_of_group (List.cons_ne_nil _ _) rfl hunstopped hbody
    (send_of_reply (hunstopped _) (hunstopped _) (fun _ _ => rfl) ?_
      (show (200 : Int) ≤ 200 by decide) (show (200 : Int) < 300 by decide) ?_) hdecode
  · rw [hexecution]
    show (0 : Int) < min 30000000000 (0 + pairBackend.options.attemptTimeout * 1000000)
    decide +kernel
  · decide +kernel

/-- The decision is answered with that response. -/
theorem predict_side : sideDecision.backend.predict (sideDecision.request (lit "s") {} .text) =
    .ok (.ok sideResponse) := by
  have hbody : body pairBackend tiedCodec [sideDecision.request (lit "s") {} .text] [0] =
      .ok (payloadOf (lit "s") [(lit "q0", choiceQuestion (lit "which?"))], decisionText) := by
    decide +kernel
  show Except.ok (predict pairBackend tiedWorld tiedCodec _ 0) = _
  rw [predict, predictBatch_tied rfl rfl hbody (by decide +kernel)]
  rfl

/-- The request for the field is answered with that response. -/
theorem predictBatch_side :
    sideModel.backend.predictBatch (sideModel.request ⟨lit "s", .text⟩ {}).requests =
      .ok (.ok [sideResponse]) := by
  have hrequests : (sideModel.request ⟨lit "s", .text⟩ {}).requests =
      [(sideModel.request ⟨lit "s", .text⟩ {}).requests.headD {}] := rfl
  have hbody : body pairBackend tiedCodec
      [(sideModel.request ⟨lit "s", .text⟩ {}).requests.headD {}] [0] =
        .ok (payloadOf (lit "s") [(lit "q0", choiceQuestion (lit "Sides\n\nwhich?"))],
          modelText) := by
    decide +kernel
  show Except.ok ((predictBatch pairBackend tiedWorld tiedCodec _ 0).2.map Predicted.output) = _
  rw [hrequests, predictBatch_tied rfl rfl hbody (by decide +kernel)]
  rfl

/-- The decision, evaluated. -/
def sideChosen : Evaluated (DecisionResult Nat) :=
  sideDecision.choose halvingLogs constantHeap (lit "s") none {} .text promptly

/-- The model, evaluated. -/
def sideEvaluated : Evaluated (SystemOneResult Nat) :=
  sideModel.evaluate halvingLogs constantHeap ⟨lit "s", .text⟩ {} promptly

/-- The decision selects the second option. -/
theorem selected_sideChosen :
    ∃ result, sideChosen.returned = .ok (.ok result) ∧ result.selected = some 1 := by
  rw [sideChosen, BoundDecision.choose, evaluation_of_ok _ rfl rfl predict_side]
  refine ⟨⟨some 1, sideResponse.scores, ⟨lit "jev", .finite (1 / 2), false,
    sideResponse.metadata⟩⟩, ?_, rfl⟩
  decide +kernel

/-- So does the answer to the field. -/
theorem selected_sideEvaluated :
    ∃ answer, sideEvaluated.returned = .ok (.ok ⟨[.enumAnswer answer]⟩) ∧
      answer.selected = some 1 := by
  rw [sideEvaluated, BoundSystemOne.evaluate, evaluation_of_ok _ rfl rfl predictBatch_side]
  exact ⟨.create halvingLogs ⟨lit "side", .choice, lit "which?", sidesSchema, .zero, {}⟩
    sideResponse.scores sideResponse.modelId sideResponse.metadata, by decide +kernel,
    by decide +kernel⟩

/-- Of two options that tie the reply names the second, and a decision and a model select it. -/
theorem choice_survives_tied :
    ChoiceSurvives Nat pairBackend tiedWorld tiedCodec 0 ∧
      (∃ result, sideChosen.returned = .ok (.ok result) ∧ result.selected = some 1 ∧
        ReplyNames tiedCodec (predictBatch pairBackend tiedWorld tiedCodec
          [sideDecision.request (lit "s") {} .text] 0).1 0 1) ∧
      ∃ answer, sideEvaluated.returned = .ok (.ok ⟨[.enumAnswer answer]⟩) ∧
        answer.selected = some 1 ∧
        ReplyNames tiedCodec (predictBatch pairBackend tiedWorld tiedCodec
          (sideModel.request ⟨lit "s", .text⟩ {}).requests 0).1 0 1 := by
  have hsurvives : ChoiceSurvives Nat pairBackend tiedWorld tiedCodec 0 :=
    choice_survives pairBackend ⟨rfl, rfl⟩ tiedCodec 0
  -- only the second option has the value that is selected
  have hsecond : ∀ index, sidesSchema.values[index]? = some 1 → index = 1 := by
    intro index h
    rcases index with - | - | index
    · cases h
    · rfl
    · cases h
  refine ⟨hsurvives, ?_, ?_⟩
  · obtain ⟨result, hresult, hselected⟩ := selected_sideChosen
    obtain ⟨index, -, hnames, hnone | hsome⟩ :=
      hsurvives.chosen sideDecision constantHeap (lit "s") none {} .text promptly result hresult
    · rw [hselected] at hnone
      cases hnone
    · obtain rfl := hsecond index (hsome.symm.trans hselected)
      exact ⟨result, hresult, hselected, hnames⟩
  · obtain ⟨answer, hanswer, hselected⟩ := selected_sideEvaluated
    obtain ⟨index, -, answer', hnames, hplace, hnone | hsome⟩ :=
      hsurvives.answered sideModel constantHeap ⟨lit "s", .text⟩ {} promptly _ hanswer 0 _ rfl rfl
    · obtain rfl := FieldAnswer.enumAnswer.inj (Option.some.inj hplace)
      rw [hselected] at hnone
      cases hnone
    · obtain rfl := FieldAnswer.enumAnswer.inj (Option.some.inj hplace)
      obtain rfl := hsecond index (hsome.symm.trans hselected)
      exact ⟨answer, hanswer, hselected, hnames⟩

end TypesafeBackend

end Jevt
