import Mathlib.Data.Finset.Card
import Mathlib.Data.List.GetD
import Jevt.Library.Decimal
import Jevt.Library.Traverse
import Jevt.Remote.Json
import Jevt.Remote.Options
import Jevt.Runtime.Backend

/-!
# Groups of requests and their payloads

The first half of `typesafe_backend::predict_batch` of `src/remote.cpp`: the requests with one state
are a group (`groups`), and the payload of a group is its state with a question for each of its
requests, under the names `q0`, `q1` and so on (`payload`). Every exception on the way to a payload
ends in the same error, so a function that may throw is one to an `Option`.
-/

namespace Jevt

open Library

/-! ## Groups -/

/-- What a group has in common: the input and its kind. -/
def InferenceRequest.state (request : InferenceRequest) : ContentView :=
  ⟨request.input, request.inputKind⟩

/-- What the request with an index has in common with its group. -/
def stateAt (requests : List InferenceRequest) (i : Nat) : ContentView :=
  (requests.getD i {}).state

/-- What the first request of a group has in common with the others. -/
def frontState (requests : List InferenceRequest) (group : List Nat) : ContentView :=
  stateAt requests (group.headD 0)

/-- The turn of the loop that groups the requests, for the one with index `i`: it joins the first
group with its state, or starts a group. -/
def addToGroups (requests : List InferenceRequest) (i : Nat) : List (List Nat) → List (List Nat)
  | [] => [[i]]
  | group :: rest =>
    if frontState requests group = stateAt requests i then (group ++ [i]) :: rest
    else group :: addToGroups requests i rest

/-- The groups of the requests, as lists of their indices. -/
def groups (requests : List InferenceRequest) : List (List Nat) :=
  (List.range requests.length).foldl (fun groups i => addToGroups requests i groups) []

/-! ## Payloads -/

/-- `content`. -/
def content (codec : JsonCodec) (value : ContentView) (nullable : Bool := false) :
    Option JsonValue :=
  match value.kind with
  | .text => some (.string value.content)
  | .json =>
    (codec.parse value.content).filter fun parsed =>
      parsed.isContent || (nullable && parsed.isNull)

/-- The key of an option in the criteria and the probabilities of a Choice. -/
def optionKey (i : Nat) : Bytes := lit "option_" ++ decimal i

/-- The key of a question in a payload and of its answer. -/
def questionKey (row : Nat) : Bytes := lit "q" ++ decimal row

namespace TypesafeBackend

variable (backend : TypesafeBackend) (codec : JsonCodec)

/-- The lambda `criterion`. -/
def criterion (request : InferenceRequest) (index : Nat) (nullable : Bool) : Option JsonValue :=
  let value :=
    if request.criteriaMetadata = [] then request.options[index]?.map textMetadata
    else request.criteriaMetadata[index]?
  value.bind fun value =>
    if backend.options.maxRequestBytes < value.content.length then none
    else content codec value nullable

/-- The criteria of all options of a request. -/
def criteria (request : InferenceRequest) : Option (List JsonValue) :=
  (List.range request.options.length).mapM fun i => criterion backend codec request i false

/-- The members `type` and `criteria` of a question, as far as it has them. -/
def rubric (request : InferenceRequest) : Option (List (Bytes × JsonValue)) :=
  let count := request.options.length
  match request.questionKind with
  | .choice =>
    if count = 0 ∨ 255 < count then none
    else (criteria backend codec request).map fun criteria =>
      [(lit "type", .string (lit "choice")),
        (lit "criteria", .ofMembers (criteria.zipIdx.map fun entry =>
          (optionKey entry.2, entry.1)))]
  | .score =>
    if count < 2 ∨ 10 < count then none
    else (criteria backend codec request).map fun criteria =>
      [(lit "type", .string (lit "score")), (lit "criteria", .array criteria)]
  | .noul =>
    if request.criteriaMetadata.any fun criterion => criterion.content ≠ [] then
      (criterion backend codec request 0 false).bind fun no =>
        (criterion backend codec request 1 false).map fun yes =>
          [(lit "type", .string (lit "noul")),
            (lit "criteria", .ofMembers [(lit "false", no), (lit "true", yes)])]
    else some [(lit "type", .string (lit "noul"))]

/-- `expected_metadata`. -/
def expectedMetadata (request : InferenceRequest) : Nat :=
  if request.questionKind = .noul then 2 else request.options.length

/-- The instructions of a question: the question itself where there are none. -/
def questionInstructions (request : InferenceRequest) : ContentView :=
  if request.instructions.content = [] ∧ request.instructions.kind = .text then
    textMetadata request.question
  else request.instructions

/-- The question of a request in the payload of its group. -/
def question (request : InferenceRequest) : Option JsonValue :=
  if backend.options.maxRequestBytes < request.question.length ∨
      backend.options.maxRequestBytes < request.instructions.content.length then none
  else if request.criteriaMetadata ≠ [] ∧
      request.criteriaMetadata.length ≠ expectedMetadata request then none
  else
    (content codec (questionInstructions request)).bind fun instructions =>
      (rubric backend codec request).map fun members =>
        .ofMembers ((lit "instructions", instructions) :: members)

/-- The questions of a group, each under the key of its row. -/
def questions (requests : List InferenceRequest) (group : List Nat) :
    Option (List (Bytes × JsonValue)) :=
  group.zipIdx.mapM fun entry =>
    (question backend codec (requests.getD entry.1 {})).map (questionKey entry.2, ·)

/-- The payload of a group. -/
def payload (requests : List InferenceRequest) (group : List Nat) : Option JsonValue :=
  let first := frontState requests group
  if backend.options.maxRequestBytes < first.content.length then none
  else
    (content codec first).bind fun state =>
      (questions backend codec requests group).map fun questions =>
        .ofMembers [(lit "model", .string backend.options.model), (lit "state", state),
          (lit "questions", .ofMembers questions)]

end TypesafeBackend

/-! ## What the groups are -/

/-- The members of a group have one state. -/
structure Uniform (requests : List InferenceRequest) (group : List Nat) : Prop where
  nonempty : group ≠ []
  same : ∀ i ∈ group, stateAt requests i = frontState requests group

/-- The groups partition some indices by the states of their requests. -/
structure Grouped (requests : List InferenceRequest) (indices : List Nat)
    (groups : List (List Nat)) : Prop where
  perm : groups.flatten.Perm indices
  uniform : ∀ group ∈ groups, Uniform requests group
  distinct : (groups.map (frontState requests)).Nodup

section
variable {requests : List InferenceRequest} {i : Nat} {gs : List (List Nat)}

/-- A request is added to the groups once. -/
theorem flatten_addToGroups_perm :
    (addToGroups requests i gs).flatten.Perm (gs.flatten ++ [i]) := by
  induction gs with
  | nil => exact .refl _
  | cons group gs ih =>
    rw [addToGroups]
    split
    · rw [List.flatten_cons, List.flatten_cons, List.append_assoc, List.append_assoc]
      exact List.perm_append_comm.append_left group
    · rw [List.flatten_cons, List.flatten_cons, List.append_assoc]
      exact ih.append_left group

/-- A group with a further member has the first one it had. -/
theorem frontState_append {group : List Nat} (h : group ≠ []) :
    frontState requests (group ++ [i]) = frontState requests group := by
  cases group with
  | nil => exact absurd rfl h
  | cons j group => rfl

/-- The groups stay uniform. -/
theorem uniform_addToGroups (h : ∀ group ∈ gs, Uniform requests group) :
    ∀ group ∈ addToGroups requests i gs, Uniform requests group := by
  induction gs with
  | nil => exact List.forall_mem_singleton.2 ⟨by simp, List.forall_mem_singleton.2 rfl⟩
  | cons group gs ih =>
    obtain ⟨hgroup, hgs⟩ := List.forall_mem_cons.1 h
    rw [addToGroups]
    split
    · next hsame =>
      refine List.forall_mem_cons.2 ⟨⟨by simp, fun j hj => ?_⟩, hgs⟩
      rw [frontState_append hgroup.nonempty]
      rcases List.mem_append.1 hj with hj | hj
      · exact hgroup.same j hj
      · rw [List.mem_singleton.1 hj, hsame]
    · exact List.forall_mem_cons.2 ⟨hgroup, ih hgs⟩

/-- A request adds its state to the states of the groups, unless it is there. -/
theorem states_addToGroups (h : ∀ group ∈ gs, Uniform requests group) :
    (addToGroups requests i gs).map (frontState requests) =
      if stateAt requests i ∈ gs.map (frontState requests) then gs.map (frontState requests)
      else gs.map (frontState requests) ++ [stateAt requests i] := by
  induction gs with
  | nil => rfl
  | cons group gs ih =>
    obtain ⟨hgroup, hgs⟩ := List.forall_mem_cons.1 h
    rw [addToGroups]
    split
    · next hsame =>
      rw [List.map_cons, frontState_append hgroup.nonempty, List.map_cons, hsame,
        if_pos List.mem_cons_self]
    · next hother =>
      rw [List.map_cons, ih hgs]
      have hne : stateAt requests i ≠ frontState requests group := fun h => hother h.symm
      simp only [List.map_cons, List.mem_cons, hne, false_or]
      split <;> rfl

/-- A turn of the loop adds an index to the groups. -/
theorem Grouped.add {indices : List Nat} (h : Grouped requests indices gs) :
    Grouped requests (indices ++ [i]) (addToGroups requests i gs) := by
  refine ⟨flatten_addToGroups_perm.trans (h.perm.append_right [i]),
    uniform_addToGroups h.uniform, ?_⟩
  rw [states_addToGroups h.uniform]
  split
  · exact h.distinct
  · next hnew =>
    refine List.nodup_append.2 ⟨h.distinct, List.nodup_singleton _, fun a ha b hb => ?_⟩
    rw [List.mem_singleton.1 hb]
    exact fun heq => hnew (heq ▸ ha)

/-- The groups partition the indices of the requests by their states. -/
theorem grouped_groups (requests : List InferenceRequest) :
    Grouped requests (List.range requests.length) (groups requests) := by
  have hfold : ∀ (rest indices : List Nat) (gs : List (List Nat)), Grouped requests indices gs →
      Grouped requests (indices ++ rest)
        (rest.foldl (fun groups i => addToGroups requests i groups) gs) := by
    intro rest
    induction rest with
    | nil => exact fun indices gs h => by rwa [List.append_nil]
    | cons i rest ih =>
      intro indices gs h
      rw [List.foldl_cons, List.append_cons]
      exact ih _ _ h.add
  exact hfold (List.range requests.length) [] [] ⟨.refl _, nofun, .nil⟩

/-- There are as many groups as different states. -/
theorem length_groups (requests : List InferenceRequest) :
    (groups requests).length = (requests.map InferenceRequest.state).toFinset.card := by
  have h := grouped_groups requests
  rw [← List.length_map (frontState requests), ← List.toFinset_card_of_nodup h.distinct]
  congr 1
  ext state
  rw [List.mem_toFinset, List.mem_toFinset, List.mem_map, List.mem_map]
  constructor
  · rintro ⟨group, hgroup, rfl⟩
    obtain ⟨i, hi⟩ := List.exists_mem_of_ne_nil group (h.uniform group hgroup).nonempty
    have hlt : i < requests.length :=
      List.mem_range.1 (h.perm.mem_iff.1 (List.mem_flatten.2 ⟨group, hgroup, hi⟩))
    refine ⟨requests[i], List.getElem_mem hlt, ?_⟩
    rw [← (h.uniform group hgroup).same i hi, stateAt, List.getD_eq_getElem _ _ hlt]
  · rintro ⟨request, hrequest, rfl⟩
    obtain ⟨i, hlt, rfl⟩ := List.getElem_of_mem hrequest
    obtain ⟨group, hgroup, hi⟩ :=
      List.mem_flatten.1 (h.perm.mem_iff.2 (List.mem_range.2 hlt))
    refine ⟨group, hgroup, ?_⟩
    rw [← (h.uniform group hgroup).same i hi, stateAt, List.getD_eq_getElem _ _ hlt]

end

/-! ## What the payloads are -/

/-- The keys of different options are different. -/
theorem optionKey_injective : Function.Injective optionKey := fun _ _ h =>
  decimal_injective (List.append_cancel_left h)

/-- The keys of different questions are different. -/
theorem questionKey_injective : Function.Injective questionKey := fun _ _ h =>
  decimal_injective (List.append_cancel_left h)

/-- Structured content is a value. -/
theorem valid_of_content {codec : JsonCodec} {value : ContentView} {nullable : Bool}
    {json : JsonValue} (h : content codec value nullable = some json) : json.Valid := by
  unfold content at h
  split at h
  · obtain rfl := Option.some.inj h
    exact .string _
  · exact codec.valid_of_parse (Option.filter_eq_some_iff.1 h).1

namespace TypesafeBackend

variable {backend : TypesafeBackend} {codec : JsonCodec} {request : InferenceRequest}

/-- A criterion is a value. -/
theorem valid_of_criterion {index : Nat} {nullable : Bool} {json : JsonValue}
    (h : criterion backend codec request index nullable = some json) : json.Valid := by
  unfold criterion at h
  obtain ⟨value, -, h⟩ := Option.bind_eq_some_iff.1 h
  split at h
  · cases h
  · exact valid_of_content h

/-- The criteria are values. -/
theorem valid_of_criteria {values : List JsonValue}
    (h : criteria backend codec request = some values) : ∀ value ∈ values, value.Valid := by
  intro value hvalue
  obtain ⟨i, hi⟩ := List.mem_iff_getElem?.1 hvalue
  have hlt : i < (List.range request.options.length).length := by
    rw [← length_eq_of_mapM h]
    exact (List.getElem?_eq_some_iff.1 hi).1
  obtain ⟨value', hvalue', hcriterion⟩ := getElem?_of_mapM h (List.getElem?_eq_getElem hlt)
  obtain rfl := Option.some.inj (hi.symm.trans hvalue')
  exact valid_of_criterion hcriterion

/-- The keys of a list under the keys of its positions. -/
theorem map_fst_zipIdx {α : Type} (key : Nat → Bytes) (l : List α) :
    (l.zipIdx.map fun entry => (key entry.2, entry.1)).map Prod.fst =
      (List.range l.length).map key := by
  rw [List.map_map, show Prod.fst ∘ (fun entry : α × Nat => (key entry.2, entry.1)) =
    key ∘ Prod.snd from rfl, ← List.map_map, List.zipIdx_map_snd, List.range_eq_range']

/-- The rubric of a question is made of values, under keys of their own. -/
theorem valid_of_rubric {members : List (Bytes × JsonValue)}
    (h : rubric backend codec request = some members) :
    (lit "instructions" :: members.map Prod.fst).Nodup ∧
      ∀ key value, (key, value) ∈ members → value.Valid := by
  unfold rubric at h
  dsimp only at h
  split at h
  · split at h
    · cases h
    · obtain ⟨criteria, hcriteria, rfl⟩ := Option.map_eq_some_iff.1 h
      refine ⟨by simp only [List.map_cons, List.map_nil]; decide, fun key value hmem => ?_⟩
      rcases List.mem_pair.1 hmem with heq | heq
      · obtain ⟨-, rfl⟩ := Prod.mk.inj heq
        exact .string _
      · obtain ⟨-, rfl⟩ := Prod.mk.inj heq
        refine JsonValue.valid_ofMembers ?_ fun key value hmem => ?_
        · rw [map_fst_zipIdx]
          exact List.nodup_range.map optionKey_injective
        · obtain ⟨entry, hentry, heq⟩ := List.mem_map.1 hmem
          obtain ⟨-, rfl⟩ := Prod.mk.inj heq
          exact valid_of_criteria hcriteria _ (List.fst_mem_of_mem_zipIdx hentry)
  · split at h
    · cases h
    · obtain ⟨criteria, hcriteria, rfl⟩ := Option.map_eq_some_iff.1 h
      refine ⟨by simp only [List.map_cons, List.map_nil]; decide, fun key value hmem => ?_⟩
      rcases List.mem_pair.1 hmem with heq | heq
      · obtain ⟨-, rfl⟩ := Prod.mk.inj heq
        exact .string _
      · obtain ⟨-, rfl⟩ := Prod.mk.inj heq
        exact .array (valid_of_criteria hcriteria)
  · split at h
    · obtain ⟨no, hno, h⟩ := Option.bind_eq_some_iff.1 h
      obtain ⟨yes, hyes, rfl⟩ := Option.map_eq_some_iff.1 h
      refine ⟨by simp only [List.map_cons, List.map_nil]; decide, fun key value hmem => ?_⟩
      rcases List.mem_pair.1 hmem with heq | heq
      · obtain ⟨-, rfl⟩ := Prod.mk.inj heq
        exact .string _
      · obtain ⟨-, rfl⟩ := Prod.mk.inj heq
        refine JsonValue.valid_ofMembers ?_ fun key value hmem => ?_
        · simp only [List.map_cons, List.map_nil]
          decide
        rcases List.mem_pair.1 hmem with heq | heq
        · obtain ⟨-, rfl⟩ := Prod.mk.inj heq
          exact valid_of_criterion hno
        · obtain ⟨-, rfl⟩ := Prod.mk.inj heq
          exact valid_of_criterion hyes
    · obtain rfl := Option.some.inj h
      refine ⟨by simp only [List.map_cons, List.map_nil]; decide, fun key value hmem => ?_⟩
      obtain ⟨-, rfl⟩ := Prod.mk.inj (List.mem_singleton.1 hmem)
      exact .string _

/-- A question is a value. -/
theorem valid_of_question {json : JsonValue} (h : question backend codec request = some json) :
    json.Valid := by
  unfold question at h
  split at h
  · cases h
  · split at h
    · cases h
    · obtain ⟨instructions, hinstructions, h⟩ := Option.bind_eq_some_iff.1 h
      obtain ⟨members, hmembers, rfl⟩ := Option.map_eq_some_iff.1 h
      obtain ⟨hkeys, hvalid⟩ := valid_of_rubric hmembers
      refine JsonValue.valid_ofMembers hkeys fun key value hmem => ?_
      rcases List.mem_cons.1 hmem with heq | hmem
      · obtain ⟨-, rfl⟩ := Prod.mk.inj heq
        exact valid_of_content hinstructions
      · exact hvalid key value hmem

section
variable {requests : List InferenceRequest} {group : List Nat}
  {members : List (Bytes × JsonValue)}

/-- The keys of the questions of a group are those of its rows. -/
theorem keys_questions (h : questions backend codec requests group = some members) :
    members.map Prod.fst = (List.range group.length).map questionKey := by
  rw [← map_fst_zipIdx questionKey group, List.map_map]
  refine map_eq_of_mapM h fun entry member hmember => ?_
  obtain ⟨json, -, rfl⟩ := Option.map_eq_some_iff.1 hmember
  rfl

/-- The keys of the questions of a group are distinct. -/
theorem nodup_keys_questions (h : questions backend codec requests group = some members) :
    (members.map Prod.fst).Nodup := by
  rw [keys_questions h]
  exact List.nodup_range.map questionKey_injective

/-- The question of a request is in its row. -/
theorem question_of_questions (h : questions backend codec requests group = some members)
    {row i : Nat} (hrow : group[row]? = some i) :
    ∃ json, question backend codec (requests.getD i {}) = some json ∧
      members[row]? = some (questionKey row, json) := by
  have hentry : group.zipIdx[row]? = some (i, row) := by
    rw [List.getElem?_zipIdx, hrow]
    simp
  obtain ⟨member, hmember, hmap⟩ := getElem?_of_mapM h hentry
  obtain ⟨json, hjson, rfl⟩ := Option.map_eq_some_iff.1 hmap
  exact ⟨json, hjson, hmember⟩

/-- The questions of a group are values. -/
theorem valid_of_questions (h : questions backend codec requests group = some members) :
    ∀ key value, (key, value) ∈ members → value.Valid := by
  intro key value hmem
  obtain ⟨row, hrow⟩ := List.mem_iff_getElem?.1 hmem
  have hlt : row < group.length := by
    have hlength := length_eq_of_mapM h
    rw [List.length_zipIdx] at hlength
    exact hlength ▸ (List.getElem?_eq_some_iff.1 hrow).1
  obtain ⟨json, hjson, hmember⟩ := question_of_questions h (List.getElem?_eq_getElem hlt)
  obtain ⟨-, rfl⟩ := Prod.mk.inj (Option.some.inj (hrow.symm.trans hmember))
  exact valid_of_question hjson

/-- **A payload** carries the state of its group and its questions, and is a value. -/
theorem payload_eq_some {json : JsonValue}
    (h : payload backend codec requests group = some json) :
    ∃ state members, content codec (frontState requests group) = some state ∧
      questions backend codec requests group = some members ∧
      json.member (lit "state") = some state ∧
      json.member (lit "questions") = some (.ofMembers members) ∧ json.Valid := by
  unfold payload at h
  dsimp only at h
  split at h
  · cases h
  · obtain ⟨state, hstate, h⟩ := Option.bind_eq_some_iff.1 h
    obtain ⟨members, hmembers, rfl⟩ := Option.map_eq_some_iff.1 h
    have hkeys : (List.map Prod.fst [(lit "model", JsonValue.string backend.options.model),
        (lit "state", state), (lit "questions", .ofMembers members)]).Nodup := by
      simp only [List.map_cons, List.map_nil]
      decide
    refine ⟨state, members, hstate, hmembers, JsonValue.member_ofMembers hkeys (by simp),
      JsonValue.member_ofMembers hkeys (by simp), JsonValue.valid_ofMembers hkeys ?_⟩
    intro key value hmem
    simp only [List.mem_cons, List.not_mem_nil, or_false, Prod.mk.injEq] at hmem
    rcases hmem with ⟨-, rfl⟩ | ⟨-, rfl⟩ | ⟨-, rfl⟩
    · exact .string _
    · exact valid_of_content hstate
    · exact JsonValue.valid_ofMembers (nodup_keys_questions hmembers) (valid_of_questions hmembers)

end

end TypesafeBackend

end Jevt
