import Jevt.Remote.Batch

/-!
# Answers reach their requests

What a batch of remote requests does with a server that answers each question as a function of the
state and the question (`Serves`): the groups partition the requests by their states, a post carries
the state of its group and the questions of its requests, each in a row of its own (`Carries`), and
a batch without an error has the decoded answer to each request at the place of the request
(`predictBatch_routes`). An error has a cause (`Failed`): a batch whose requests can be asked, whose
posts are answered and whose checks pass is without one.
-/

namespace Jevt

open Library

/-- A server whose successful replies answer the questions of a payload by a function of the state
and the question. -/
def Serves (w : World) (codec : JsonCodec) (g : JsonValue → JsonValue → JsonValue) : Prop :=
  ∀ (reading : Nat) (request : HttpRequest) (response : HttpResponse) (payload reply : JsonValue),
    w.perform reading request = some (.ok response) →
    200 ≤ response.status → response.status < 300 →
    codec.parse request.body = some payload → codec.parse response.body = some reply →
    ∀ state questions answers, payload.member (lit "state") = some state →
      payload.member (lit "questions") = some questions →
      reply.member (lit "answers") = some answers →
      ∀ key question answer, questions.member key = some question →
        answers.member key = some answer → answer = g state question

namespace TypesafeBackend

variable {backend : TypesafeBackend} {w : World} {codec : JsonCodec}
  {requests : List InferenceRequest} {execution : RemoteExecution} {post : Post}

/-- What a post carries: the state that the requests of its group have in common, and the question
of each of them in a row of its own. -/
structure Carries (backend : TypesafeBackend) (codec : JsonCodec)
    (requests : List InferenceRequest) (post : Post) : Prop where
  text : codec.parse post.body = some post.payload
  calls : ∀ a ∈ post.attempts, a.request.body = post.body
  state : ∃ state, post.payload.member (lit "state") = some state ∧
    ∀ i ∈ post.group, content codec (stateAt requests i) = some state
  questions : ∃ members, post.payload.member (lit "questions") = some (.object members) ∧
    (members.map Prod.fst).Perm ((List.range post.group.length).map questionKey) ∧
    ∀ (row i : Nat), post.group[row]? = some i → ∃ question,
      backend.question codec (requests.getD i {}) = some question ∧
      members.lookup (questionKey row) = some question

/-- A post that has been made carries what it should. -/
theorem Made.carries (h : Made backend w codec requests execution post)
    (huniform : Uniform requests post.group) : Carries backend codec requests post := by
  obtain ⟨hpayload, hdump⟩ := body_eq_ok h.body
  obtain ⟨state, members, hstate, hmembers, hstateAt, hquestions, hvalid⟩ :=
    payload_eq_some hpayload
  have hkeys := nodup_keys_questions hmembers
  refine ⟨codec.parse_of_dump hvalid hdump, fun a ha => ?_, ⟨state, hstateAt, fun i hi => ?_⟩,
    ⟨_, hquestions, ?_, fun row i hrow => ?_⟩⟩
  · obtain ⟨reading, hsend⟩ := h.sent
    have hcall := calls_sendLoop a (by
      rw [← send, hsend]
      exact ha)
    rw [hcall.1]
    rfl
  · rw [huniform.same i hi, hstate]
  · rw [← keys_questions hmembers]
    exact (ofEntries_perm hkeys).map Prod.fst
  · obtain ⟨question, hquestion, hmember⟩ := question_of_questions hmembers hrow
    exact ⟨question, hquestion, lookup_ofEntries hkeys (List.mem_of_getElem? hmember)⟩

/-- A reply to a post is a successful one of the transport. -/
theorem Made.replied (h : Made backend w codec requests execution post) {sent : SentResponse}
    (hsent : post.sent = .ok sent) :
    ∃ a ∈ post.attempts, w.perform a.reading a.request = some (.ok sent.value) ∧
      200 ≤ sent.value.status ∧ sent.value.status < 300 := by
  obtain ⟨reading, hsend⟩ := h.sent
  rw [hsent, send] at hsend
  obtain ⟨init, a, hattempts, hresponse, -, -, hlow, hhigh, -⟩ :=
    success_sendLoop (congrArg Prod.snd hsend)
  rw [hsend] at hattempts
  have ha : a ∈ post.attempts := by
    rw [show post.attempts = init ++ [a] from hattempts]
    exact List.mem_append_right init (List.mem_singleton_self a)
  have hcall := calls_sendLoop a (by rwa [hsend])
  exact ⟨a, ha, (attemptResponse_eq_ok (hcall.2.1.symm.trans hresponse)).1, hlow, hhigh⟩

/-! ## The main result -/

/-- The response at a place of the output is decoded from the answer of the server to the question
about the state, in the reply to the post of its group. -/
def Routed (backend : TypesafeBackend) (w : World) (codec : JsonCodec)
    (g : JsonValue → JsonValue → JsonValue) (posts : List Post) (predicted : Predicted)
    (i : Nat) (request : InferenceRequest) : Prop :=
  ∃ post ∈ posts, ∃ sent reply usage state question response,
    i ∈ post.group ∧ post.sent = .ok sent ∧
    readReply codec post.group.length sent.value.body = some reply ∧
    predicted.reports[usage]? = some reply.usage ∧
    content codec request.state = some state ∧
    backend.question codec request = some question ∧
    decodeAnswer w.arith request (g state question)
      (backend.blankResponse reply sent.attempts usage) = some response ∧
    predicted.output[i]? = some response

/-- A reply that breaks the contract: it cannot be read, or has no answer to a question of its post
that can be decoded. -/
def Violated (backend : TypesafeBackend) (arith : Arithmetic) (codec : JsonCodec)
    (requests : List InferenceRequest) (post : Post) : Prop :=
  ∃ sent, post.sent = .ok sent ∧ ∀ reply,
    readReply codec post.group.length sent.value.body = some reply →
    ∃ row i, post.group[row]? = some i ∧ ∀ answer usage,
      reply.answers.lookup (questionKey row) = some answer →
      decodeAnswer arith (requests.getD i {}) answer
        (backend.blankResponse reply sent.attempts usage) = none

/-- What makes a batch an error: a check that fails, a group that cannot be sent, a post that fails,
or a reply that breaks the contract. -/
def Failed (backend : TypesafeBackend) (w : World) (codec : JsonCodec)
    (requests : List InferenceRequest) (execution : RemoteExecution) (posts : List Post)
    (failure : Error) : Prop :=
  (∃ k, execution.error (w.env k) = some failure) ∨
  (∃ group ∈ groups requests, body backend codec requests group = .error failure) ∨
  (∃ post ∈ posts, post.sent = .error failure) ∨
  failure = invalidReply ∧ ∃ post ∈ posts, Violated backend w.arith codec requests post

/-- What a batch does: the posts it makes and what it returns. -/
structure Routes (backend : TypesafeBackend) (w : World) (codec : JsonCodec)
    (g : JsonValue → JsonValue → JsonValue) (requests : List InferenceRequest)
    (execution : RemoteExecution) (posts : List Post) (result : Result Predicted) : Prop where
  /-- The groups partition the requests by their states. -/
  partition : Grouped requests (List.range requests.length) (groups requests)
  /-- There are as many groups as different states. -/
  count : (groups requests).length = (requests.map InferenceRequest.state).toFinset.card
  /-- The posts are those of the first of the groups. -/
  order : posts.map Post.group <+: groups requests
  /-- Every post is a payload that has been sent, until the deadline of the batch or its stop. -/
  made : ∀ post ∈ posts, Made backend w codec requests execution post
  /-- Every post carries the state and the questions of its group. -/
  carried : ∀ post ∈ posts, Carries backend codec requests post
  /-- Without an error every group is posted once, and every request has its answer. -/
  answered : ∀ predicted, result = .ok predicted →
    posts.length = (requests.map InferenceRequest.state).toFinset.card ∧
    posts.map Post.group = groups requests ∧
    predicted.output.length = requests.length ∧
    ∀ i request, requests[i]? = some request → Routed backend w codec g posts predicted i request
  /-- When no check fails, every group can be sent, and each post that is made is answered as it
  should be, then there is no error. -/
  complete : (∀ k, execution.error (w.env k) = none) →
    (∀ group ∈ groups requests, ∃ sent, body backend codec requests group = .ok sent) →
    (∀ post ∈ posts, (∃ sent, post.sent = .ok sent) ∧
      ¬Violated backend w.arith codec requests post) →
    ∃ predicted, result = .ok predicted
  /-- An error has a cause. -/
  caused : ∀ failure, result = .error failure →
    Failed backend w codec requests execution posts failure
  /-- A request that cannot be asked is an error. -/
  invalid : (∃ request ∈ requests, content codec request.state = none ∨
    backend.question codec request = none) → ∃ failure, result = .error failure
  /-- A group that cannot be sent is an error. -/
  unsent : (∃ group ∈ groups requests, ∃ failure, body backend codec requests group =
    .error failure) → ∃ failure, result = .error failure
  /-- A failed post is an error. -/
  failed : (∃ post ∈ posts, ∃ failure, post.sent = .error failure) →
    ∃ failure, result = .error failure
  /-- A reply that breaks the contract is an error. -/
  violated : (∃ post ∈ posts, Violated backend w.arith codec requests post) →
    ∃ failure, result = .error failure

/-- A reply that is not decoded breaks the contract. -/
theorem violated_of_decodeGroup {sent : SentResponse} {usage : Nat}
    {output : List InferenceResponse} (hsent : post.sent = .ok sent)
    (h : decodeGroup backend w.arith codec requests post.group sent usage output = none) :
    Violated backend w.arith codec requests post := by
  refine ⟨sent, hsent, fun reply hreply => ?_⟩
  rw [decodeGroup, hreply, Option.bind_eq_bind, Option.bind_some] at h
  have hrows : decodeRows w.arith requests reply (backend.blankResponse reply sent.attempts usage)
      post.group.zipIdx output = none := by
    cases hrows : decodeRows w.arith requests reply
        (backend.blankResponse reply sent.attempts usage) post.group.zipIdx output with
    | none => rfl
    | some rows =>
      rw [hrows] at h
      cases h
  obtain ⟨⟨i, row⟩, hentry, hnone⟩ := decodeRows_eq_none hrows
  obtain ⟨k, hk⟩ := List.mem_iff_getElem?.1 hentry
  rw [List.getElem?_zipIdx] at hk
  obtain ⟨i', hi, heq⟩ := Option.map_eq_some_iff.1 hk
  obtain ⟨rfl, rfl⟩ := Prod.mk.inj heq
  refine ⟨k, i', hi, fun answer usage' hanswer => ?_⟩
  -- the address of the usage report makes no difference
  have hdecoded := isSome_decodeAnswer w.arith (requests.getD i' {}) answer
    (backend.blankResponse reply sent.attempts usage)
    (backend.blankResponse reply sent.attempts usage')
  rw [hnone answer (by simpa using hanswer)] at hdecoded
  exact Option.isNone_iff_eq_none.1 (Option.isSome_eq_false_iff.1 hdecoded.symm)

/-- A reply that is decoded keeps the contract. -/
theorem not_violated {sent : SentResponse} {reply : Reply} (hsent : post.sent = .ok sent)
    (hreply : readReply codec post.group.length sent.value.body = some reply)
    (hrows : ∀ (row i : Nat), post.group[row]? = some i → ∃ answer,
      reply.answers.lookup (questionKey row) = some answer ∧
        (decodeAnswer w.arith (requests.getD i {}) answer { scores := [], modelId := [] }).isSome =
          true) : ¬Violated backend w.arith codec requests post := by
  rintro ⟨sent', hsent', hviolated⟩
  obtain rfl := Except.ok.inj (hsent'.symm.trans hsent)
  obtain ⟨row, i, hrow, hnone⟩ := hviolated reply hreply
  obtain ⟨answer, hanswer, hdecoded⟩ := hrows row i hrow
  rw [isSome_decodeAnswer w.arith _ answer _ (backend.blankResponse reply sent'.attempts 0),
    hnone answer 0 hanswer] at hdecoded
  cases hdecoded

/-- The loop over the groups ends in an error for a cause. -/
theorem failed_postGroups {gs : List (List Nat)} {reading : Nat} {predicted : Predicted}
    {failure : Error} (hgroups : ∀ group ∈ gs, group ∈ groups requests)
    (h : (postGroups backend w codec requests execution gs reading predicted).2 =
      .error failure) :
    Failed backend w codec requests execution
      (postGroups backend w codec requests execution gs reading predicted).1 failure := by
  fun_induction postGroups backend w codec requests execution gs reading predicted with
  | case1 => cases h
  | case2 group rest reading predicted failure' hbody =>
    obtain rfl := Except.error.inj h
    exact .inr (.inl ⟨group, hgroups group List.mem_cons_self, hbody⟩)
  | case3 group rest reading predicted payload body hbody attempts failure' hsend post =>
    obtain rfl := Except.error.inj h
    exact .inr (.inr (.inl ⟨post, List.mem_singleton_self _, rfl⟩))
  | case4 group rest reading predicted payload body hbody attempts response hdecode hsend post =>
    obtain rfl := Except.error.inj h
    have hviolated : Violated backend w.arith codec requests post :=
      violated_of_decodeGroup rfl hdecode
    exact .inr (.inr (.inr ⟨rfl, post, List.mem_singleton_self _, hviolated⟩))
  | case5 group rest reading predicted payload body hbody attempts response output usage hdecode
      next failure' hcheck hsend post =>
    obtain rfl := Except.error.inj h
    exact .inl ⟨_, hcheck⟩
  | case6 group rest reading predicted payload body hbody attempts response output usage hdecode
      next hcheck posts result heq hsend post ih =>
    rw [heq] at ih
    rcases ih (fun group' hgroup => hgroups group' (List.mem_cons_of_mem _ hgroup)) h with
      hstopped | hunsent | ⟨post', hpost', hfailed⟩ | ⟨hreply, post', hpost', hviolated⟩
    · exact .inl hstopped
    · exact .inr (.inl hunsent)
    · exact .inr (.inr (.inl ⟨post', List.mem_cons_of_mem _ hpost', hfailed⟩))
    · exact .inr (.inr (.inr ⟨hreply, post', List.mem_cons_of_mem _ hpost', hviolated⟩))

/-- In a batch that has accepted every post, a request has an answer, and the response it decodes to
is at its place. -/
theorem answer_of_accepted {posts : List Post} {predicted : Predicted}
    (hgroups : posts.map Post.group = groups requests)
    (haccepted : ∀ post ∈ posts, ∃ usage,
      Accepted backend w.arith codec requests post usage predicted)
    {i : Nat} {request : InferenceRequest} (hrequest : requests[i]? = some request) :
    ∃ post ∈ posts, ∃ sent reply usage row answer response, post.group[row]? = some i ∧
      post.sent = .ok sent ∧ readReply codec post.group.length sent.value.body = some reply ∧
      predicted.reports[usage]? = some reply.usage ∧
      reply.answers.lookup (questionKey row) = some answer ∧
      decodeAnswer w.arith request answer (backend.blankResponse reply sent.attempts usage) =
        some response ∧
      predicted.output[i]? = some response := by
  have hlt : i < requests.length := (List.getElem?_eq_some_iff.1 hrequest).1
  obtain ⟨group, hgroup, hi⟩ :=
    List.mem_flatten.1 ((grouped_groups requests).perm.mem_iff.2 (List.mem_range.2 hlt))
  obtain ⟨post, hpost, rfl⟩ := List.mem_map.1 (hgroups ▸ hgroup)
  obtain ⟨usage, sent, reply, hsent, hreply, hreport, hrows⟩ := haccepted post hpost
  obtain ⟨row, hrow⟩ := List.mem_iff_getElem?.1 hi
  obtain ⟨answer, response, hanswer, hdecode, hplace⟩ := hrows row i hrow
  rw [List.getD_eq_getElem?_getD, hrequest, Option.getD_some] at hdecode
  exact ⟨post, hpost, sent, reply, usage, row, answer, response, hrow, hsent, hreply, hreport,
    hanswer, hdecode, hplace⟩

/-- A batch without an error routes the answers. -/
theorem routed_of_posts {g : JsonValue → JsonValue → JsonValue} (hserver : Serves w codec g)
    {posts : List Post} {predicted : Predicted} (hgroups : posts.map Post.group = groups requests)
    (hmade : ∀ post ∈ posts, Made backend w codec requests execution post)
    (haccepted : ∀ post ∈ posts, ∃ usage,
      Accepted backend w.arith codec requests post usage predicted)
    {i : Nat} {request : InferenceRequest} (hrequest : requests[i]? = some request) :
    Routed backend w codec g posts predicted i request := by
  obtain ⟨post, hpost, sent, reply, usage, row, answer, response, hrow, hsent, hreply, hreport,
    hanswer, hdecode, hplace⟩ := answer_of_accepted hgroups haccepted hrequest
  have hi : i ∈ post.group := List.mem_of_getElem? hrow
  have hgroup : post.group ∈ groups requests := hgroups ▸ List.mem_map_of_mem hpost
  have hmade := hmade post hpost
  have hcarries := hmade.carries ((grouped_groups requests).uniform _ hgroup)
  obtain ⟨state, hstate, hcontent⟩ := hcarries.state
  obtain ⟨members, hmembers, -, hquestions⟩ := hcarries.questions
  obtain ⟨question, hquestion, hlookup⟩ := hquestions row i hrow
  have hget : requests.getD i {} = request := by
    rw [List.getD_eq_getElem?_getD, hrequest, Option.getD_some]
  have hcontent := hcontent i hi
  rw [stateAt, hget] at hcontent
  rw [hget] at hquestion
  have hanswered : answer = g state question := by
    obtain ⟨a, ha, hperform, hlow, hhigh⟩ := hmade.replied hsent
    obtain ⟨parsed, hparsed, hanswers⟩ := readReply_eq_some hreply
    refine hserver a.reading a.request sent.value post.payload parsed hperform hlow hhigh ?_ hparsed
      state _ _ hstate hmembers hanswers (questionKey row) question answer hlookup hanswer
    rw [hcarries.calls a ha]
    exact hcarries.text
  rw [hanswered] at hdecode
  exact ⟨post, hpost, sent, reply, usage, state, question, response, hi, hsent, hreply, hreport,
    hcontent, hquestion, hdecode, hplace⟩

/-- A batch is empty, or stopped before its first post, or the loop over its groups. -/
theorem predictBatch_cases (requests : List InferenceRequest) (reading : Nat) :
    requests = [] ∧ predictBatch backend w codec requests reading = ([], .ok ⟨[], []⟩) ∨
    (∃ failure, (batchExecution backend requests (w.env reading).now).error (w.env (reading + 1)) =
      some failure ∧ predictBatch backend w codec requests reading = ([], .error failure)) ∨
    predictBatch backend w codec requests reading =
      postGroups backend w codec requests (batchExecution backend requests (w.env reading).now)
        (groups requests) (reading + 2)
        ⟨List.replicate requests.length { scores := [], modelId := [] }, []⟩ := by
  unfold predictBatch
  split
  · next hempty => exact .inl ⟨hempty, rfl⟩
  · dsimp only
    split
    · next failure hstopped => exact .inr (.inl ⟨failure, hstopped, rfl⟩)
    · exact .inr (.inr rfl)

/-- An error of a batch has a cause. -/
theorem failed_predictBatch {reading : Nat} {failure : Error}
    (h : (predictBatch backend w codec requests reading).2 = .error failure) :
    Failed backend w codec requests (batchExecution backend requests (w.env reading).now)
      (predictBatch backend w codec requests reading).1 failure := by
  rcases @predictBatch_cases backend w codec requests reading with
    ⟨-, heq⟩ | ⟨failure', hstopped, heq⟩ | heq
  · rw [heq] at h
    cases h
  · rw [heq] at h
    obtain rfl := Except.error.inj h
    exact .inl ⟨_, hstopped⟩
  · rw [heq] at h ⊢
    exact failed_postGroups (fun _ hgroup => hgroup) h

/-- The posts of a batch, and what a batch without an error has accepted. -/
theorem predictBatch_spec (requests : List InferenceRequest) (reading : Nat) :
    (predictBatch backend w codec requests reading).1.map Post.group <+: groups requests ∧
      (∀ post ∈ (predictBatch backend w codec requests reading).1, Made backend w codec requests
        (batchExecution backend requests (w.env reading).now) post) ∧
      ∀ predicted, (predictBatch backend w codec requests reading).2 = .ok predicted →
        (predictBatch backend w codec requests reading).1.map Post.group = groups requests ∧
        predicted.output.length = requests.length ∧
        ∀ post ∈ (predictBatch backend w codec requests reading).1,
          ∃ usage, Accepted backend w.arith codec requests post usage predicted := by
  rcases predictBatch_cases (w := w) requests reading with
    ⟨rfl, heq⟩ | ⟨failure, -, heq⟩ | heq
  · rw [heq]
    refine ⟨List.nil_prefix, nofun, fun predicted h => ?_⟩
    obtain rfl := Except.ok.inj h
    exact ⟨rfl, rfl, nofun⟩
  · rw [heq]
    exact ⟨List.nil_prefix, nofun, nofun⟩
  · rw [heq]
    obtain ⟨hfront, hmade⟩ := posts_postGroups (w := w)
    refine ⟨hfront, hmade, fun predicted h => ?_⟩
    have hperm := (grouped_groups requests).perm
    obtain ⟨hgroups, hlength, -, -, haccepted⟩ := success_postGroups h
      (hperm.nodup_iff.2 List.nodup_range)
      (fun i hi => by simpa using hperm.mem_iff.1 hi)
    exact ⟨hgroups, by simpa using hlength, haccepted⟩

/-- A result that is no success is an error. -/
theorem exists_error_of_forall_ne {α : Type} {result : Result α} (h : ∀ a, result ≠ .ok a) :
    ∃ failure, result = .error failure := by
  cases result with
  | error failure => exact ⟨failure, rfl⟩
  | ok a => exact absurd rfl (h a)

/-- A reply that has been accepted keeps the contract. -/
theorem not_violated_of_accepted {arith : Arithmetic} {usage : Nat} {predicted : Predicted}
    (h : Accepted backend arith codec requests post usage predicted) :
    ¬Violated backend arith codec requests post := by
  rintro ⟨sent, hsent, hwrong⟩
  obtain ⟨sent', reply, hsent', hreply, -, hrows⟩ := h
  obtain rfl := Except.ok.inj (hsent.symm.trans hsent')
  obtain ⟨row, i, hrow, hnone⟩ := hwrong reply hreply
  obtain ⟨answer, response, hanswer, hdecode, -⟩ := hrows row i hrow
  exact absurd (hdecode.symm.trans (hnone answer usage hanswer)) nofun

/-- A batch in which nothing makes an error succeeds. -/
theorem exists_predictBatch_ok {reading : Nat}
    (hunstopped : ∀ k,
      (batchExecution backend requests (w.env reading).now).error (w.env k) = none)
    (hsent : ∀ group ∈ groups requests, ∃ sent, body backend codec requests group = .ok sent)
    (haccepted : ∀ post ∈ (predictBatch backend w codec requests reading).1,
      (∃ sent, post.sent = .ok sent) ∧ ¬Violated backend w.arith codec requests post) :
    ∃ predicted, (predictBatch backend w codec requests reading).2 = .ok predicted := by
  cases hresult : (predictBatch backend w codec requests reading).2 with
  | ok predicted => exact ⟨predicted, rfl⟩
  | error failure =>
    rcases failed_predictBatch hresult with
      ⟨k, hstopped⟩ | ⟨group, hgroup, hbody⟩ | ⟨post, hpost, hfailed⟩ | ⟨-, post, hpost, hviolated⟩
    · exact absurd (hstopped.symm.trans (hunstopped k)) nofun
    · obtain ⟨sent, hbody'⟩ := hsent group hgroup
      exact absurd (hbody.symm.trans hbody') nofun
    · obtain ⟨⟨sent, hsent'⟩, -⟩ := haccepted post hpost
      exact absurd (hfailed.symm.trans hsent') nofun
    · exact absurd hviolated (haccepted post hpost).2

/-- **Answers reach their requests.** With a server that answers each question as a function of the
state and the question, whatever the requests are, a batch posts each group of requests with one
state at most once, with this state and the question of each request in a row of its own; without an
error the response at every place is decoded from the answer to the request at that place. A request
that cannot be asked, a failed post or a wrong reply is an error, and apart from a deadline or a
cancellation nothing else is: when every group can be sent and every post is answered as it should
be, each group has been posted once and there is no error. -/
theorem predictBatch_routes (backend : TypesafeBackend) {w : World} {codec : JsonCodec}
    {g : JsonValue → JsonValue → JsonValue} (hserver : Serves w codec g)
    (requests : List InferenceRequest) (reading : Nat) :
    Routes backend w codec g requests (batchExecution backend requests (w.env reading).now)
      (predictBatch backend w codec requests reading).1
      (predictBatch backend w codec requests reading).2 := by
  have hgrouped := grouped_groups requests
  obtain ⟨hfront, hmade, hsuccess⟩ := predictBatch_spec (w := w) requests reading
  have hrouted : ∀ predicted, (predictBatch backend w codec requests reading).2 = .ok predicted →
      ∀ (i : Nat) (request : InferenceRequest), requests[i]? = some request →
        Routed backend w codec g (predictBatch backend w codec requests reading).1 predicted i
          request := fun predicted h i request hrequest =>
    routed_of_posts hserver (hsuccess predicted h).1 hmade (hsuccess predicted h).2.2 hrequest
  constructor
  case partition => exact hgrouped
  case count => exact length_groups requests
  case order => exact hfront
  case made => exact hmade
  case carried =>
    intro post hpost
    refine (hmade post hpost).carries (hgrouped.uniform _ ?_)
    exact hfront.subset (List.mem_map_of_mem hpost)
  case answered =>
    intro predicted h
    obtain ⟨hgroups, hlength, -⟩ := hsuccess predicted h
    refine ⟨?_, hgroups, hlength, hrouted predicted h⟩
    rw [← length_groups, ← hgroups, List.length_map]
  case complete => exact exists_predictBatch_ok
  case caused => exact fun failure hfailure => failed_predictBatch hfailure
  -- whatever keeps a batch from a success makes it an error
  case unsent =>
    rintro ⟨group, hgroup, failure, hbody⟩
    refine exists_error_of_forall_ne fun predicted h => ?_
    obtain ⟨post, hpost, rfl⟩ := List.mem_map.1 ((hsuccess predicted h).1 ▸ hgroup)
    exact absurd ((hmade post hpost).body.symm.trans hbody) nofun
  case invalid =>
    rintro ⟨request, hrequest, hnone⟩
    refine exists_error_of_forall_ne fun predicted h => ?_
    obtain ⟨i, hi⟩ := List.mem_iff_getElem?.1 hrequest
    obtain ⟨-, -, -, -, -, state, question, -, -, -, -, -, hstate, hquestion, -⟩ :=
      hrouted predicted h i request hi
    rcases hnone with hnone | hnone
    · exact absurd (hstate.symm.trans hnone) nofun
    · exact absurd (hquestion.symm.trans hnone) nofun
  case failed =>
    rintro ⟨post, hpost, failure, hfailed⟩
    refine exists_error_of_forall_ne fun predicted h => ?_
    obtain ⟨usage, sent, -, hsent, -⟩ := (hsuccess predicted h).2.2 post hpost
    exact absurd (hsent.symm.trans hfailed) nofun
  case violated =>
    rintro ⟨post, hpost, hviolated⟩
    refine exists_error_of_forall_ne fun predicted h => ?_
    obtain ⟨usage, haccepted⟩ := (hsuccess predicted h).2.2 post hpost
    exact not_violated_of_accepted haccepted hviolated

/-! ## An instance -/

/-- A Noul question. -/
def noulQuestion : JsonValue :=
  .object [(lit "instructions", .string (lit "ok?")), (lit "type", .string (lit "noul"))]

/-- A Choice between two options. -/
def choiceQuestion (instructions : Bytes) : JsonValue :=
  .object [(lit "criteria", .object [(lit "option_0", .string (lit "left")),
      (lit "option_1", .string (lit "right"))]),
    (lit "instructions", .string instructions), (lit "type", .string (lit "choice"))]

/-- A payload of questions about a state. -/
def payloadOf (state : Bytes) (questions : List (Bytes × JsonValue)) : JsonValue :=
  .object [(lit "model", .string (lit "jev-latest")), (lit "questions", .object questions),
    (lit "state", .string state)]

/-- The answer to a Noul question. -/
def noulAnswer (yes : UInt64) : JsonValue :=
  .object [(lit "noul", .unsigned yes), (lit "type", .string (lit "noul"))]

/-- The answer to a Choice whose options tie. -/
def tiedAnswer : JsonValue :=
  .object [(lit "choice", .string (lit "option_1")), (lit "confidence", .float (.finite (1 / 2))),
    (lit "probabilities", .object [(lit "option_0", .float (.finite (1 / 2))),
      (lit "option_1", .float (.finite (1 / 2)))]),
    (lit "type", .string (lit "choice"))]

/-- A reply of some answers. -/
def replyOf (answers : List (Bytes × JsonValue)) : JsonValue :=
  .object [(lit "answers", .object answers), (lit "model", .string (lit "jev")),
    (lit "usage", .object [(lit "input_tokens", .unsigned 7), (lit "output_tokens", .unsigned 1)])]

/-- The text of a Noul question. -/
def noulText : Bytes := lit "\x7b\"instructions\":\"ok?\",\"type\":\"noul\"\x7d"

/-- The text of the Choice with the given text of its instructions. -/
def choiceText (instructions : Bytes) : Bytes :=
  lit "\x7b\"criteria\":\x7b\"option_0\":\"left\",\"option_1\":\"right\"\x7d," ++
    lit "\"instructions\":\"" ++ instructions ++ lit "\",\"type\":\"choice\"\x7d"

/-- The text of a payload with the given text of its questions. -/
def payloadText (state questions : Bytes) : Bytes :=
  lit "\x7b\"model\":\"jev-latest\",\"questions\":\x7b" ++ questions ++
    lit "\x7d,\"state\":\"" ++ state ++ lit "\"\x7d"

/-- The text of the answer to the Choice. -/
def tiedText : Bytes :=
  lit "\x7b\"choice\":\"option_1\",\"confidence\":0.5," ++
    lit "\"probabilities\":\x7b\"option_0\":0.5,\"option_1\":0.5\x7d,\"type\":\"choice\"\x7d"

/-- The text of a reply with the given text of its answers. -/
def replyText (answers : Bytes) : Bytes :=
  lit "\x7b\"answers\":\x7b" ++ answers ++ lit "\x7d,\"model\":\"jev\"," ++
    lit "\"usage\":\x7b\"input_tokens\":7,\"output_tokens\":1\x7d\x7d"

/-- The text of the payload with two questions. -/
def pairText : Bytes :=
  payloadText (lit "s") (lit "\"q0\":" ++ noulText ++ lit ",\"q1\":" ++ choiceText (lit "which?"))

/-- The text of the payload with one question. -/
def soloText : Bytes := payloadText (lit "t") (lit "\"q0\":" ++ noulText)

/-- The text of the reply to two questions. -/
def pairReplyText : Bytes :=
  replyText (lit "\"q0\":\x7b\"noul\":1,\"type\":\"noul\"\x7d,\"q1\":" ++ tiedText)

/-- The text of the reply to one question. -/
def soloReplyText : Bytes := replyText (lit "\"q0\":\x7b\"noul\":0,\"type\":\"noul\"\x7d")

/-- The payload with two questions. -/
def pairPayload : JsonValue :=
  payloadOf (lit "s") [(lit "q0", noulQuestion), (lit "q1", choiceQuestion (lit "which?"))]

/-- The payload with one question. -/
def soloPayload : JsonValue := payloadOf (lit "t") [(lit "q0", noulQuestion)]

/-- The payloads and the replies with their texts. -/
def pairTable : List (Bytes × JsonValue) :=
  [(pairText, pairPayload), (soloText, soloPayload),
    (pairReplyText, replyOf [(lit "q0", noulAnswer 1), (lit "q1", tiedAnswer)]),
    (soloReplyText, replyOf [(lit "q0", noulAnswer 0)])]

/-- What the parser and the serializer do with the payloads and the replies. -/
def pairCodec : JsonCodec := .ofTable pairTable (by decide +kernel) (by decide +kernel)

/-- A server that ties, and is certain otherwise. -/
def pairServer (state question : JsonValue) : JsonValue :=
  if question = choiceQuestion (lit "which?") then tiedAnswer
  else noulAnswer (if state = .string (lit "s") then 1 else 0)

/-- The world around that server. -/
def pairWorld : World :=
  .still fun _ request => some (.ok
    { status := 200, body := if request.body = pairText then pairReplyText else soloReplyText })

/-- Two questions about one state and, between them, one about another. -/
def pairRequests : List InferenceRequest :=
  [{ question := lit "ok?", input := lit "s", questionKind := .noul },
    { question := lit "ok?", input := lit "t", questionKind := .noul },
    { question := lit "which?", input := lit "s", options := [lit "left", lit "right"] }]

/-- A backend with the default options. -/
def pairBackend : TypesafeBackend := ⟨{ apiKey := lit "k" }⟩

/-- The server answers each question as a function of the state and the question. -/
theorem serves_pairServer : Serves pairWorld pairCodec pairServer := by
  intro reading request response payload reply hperform _ _ hpayload hreply state questions answers
    hstate hquestions hanswers key question answer hquestion hanswer
  obtain rfl := Except.ok.inj (Option.some.inj hperform)
  have hentry : (request.body, payload) ∈ pairTable := mem_of_lookup hpayload
  simp only [pairTable, List.mem_cons, List.not_mem_nil, or_false, Prod.mk.injEq] at hentry
  rcases hentry with ⟨hbody, rfl⟩ | ⟨hbody, rfl⟩ | ⟨-, rfl⟩ | ⟨-, rfl⟩
  · have hparse : pairCodec.parse pairReplyText =
        some (replyOf [(lit "q0", noulAnswer 1), (lit "q1", tiedAnswer)]) := by decide +kernel
    rw [hbody, if_pos rfl, hparse] at hreply
    obtain rfl := Option.some.inj hreply
    obtain rfl := Option.some.inj hstate
    obtain rfl := Option.some.inj hquestions
    obtain rfl := Option.some.inj hanswers
    have hmem := mem_of_lookup hquestion
    simp only [List.mem_cons, List.not_mem_nil, or_false, Prod.mk.injEq] at hmem
    rcases hmem with ⟨rfl, rfl⟩ | ⟨rfl, rfl⟩
    · exact (Option.some.inj hanswer).symm.trans (by decide +kernel)
    · exact (Option.some.inj hanswer).symm.trans (by decide +kernel)
  · have hparse : pairCodec.parse soloReplyText = some (replyOf [(lit "q0", noulAnswer 0)]) := by
      decide +kernel
    rw [hbody, if_neg (by decide +kernel), hparse] at hreply
    obtain rfl := Option.some.inj hreply
    obtain rfl := Option.some.inj hstate
    obtain rfl := Option.some.inj hquestions
    obtain rfl := Option.some.inj hanswers
    have hmem := mem_of_lookup hquestion
    obtain ⟨rfl, rfl⟩ := Prod.mk.inj (List.mem_singleton.1 hmem)
    exact (Option.some.inj hanswer).symm.trans (by decide +kernel)
  · cases hstate
  · cases hstate

/-- The batch has a group for each state. -/
theorem groups_pairRequests : groups pairRequests = [[0, 2], [1]] := by decide +kernel

/-- The payload with two questions can be sent. -/
theorem body_pair : body pairBackend pairCodec pairRequests [0, 2] =
    .ok (pairPayload, pairText) := by
  decide +kernel

/-- The payload with one question can be sent. -/
theorem body_solo : body pairBackend pairCodec pairRequests [1] =
    .ok (soloPayload, soloText) := by
  decide +kernel

/-- No check fails. -/
theorem unstopped_pairWorld (k : Nat) :
    (batchExecution pairBackend pairRequests 0).error (pairWorld.env k) = none := by
  show (batchExecution pairBackend pairRequests 0).error { now := 0 } = none
  decide +kernel

/-- Every post is answered. -/
theorem sent_pairWorld (h : Made pairBackend pairWorld pairCodec pairRequests
      (batchExecution pairBackend pairRequests 0) post) :
    post.sent = .ok ⟨{
      status := 200
      body := if post.body = pairText then pairReplyText else soloReplyText }, 1⟩ := by
  obtain ⟨reading, hsend⟩ := h.sent
  refine (congrArg Prod.snd hsend).symm.trans (send_of_reply (unstopped_pairWorld _)
    (unstopped_pairWorld _) ?_ ?_ (show (200 : Int) ≤ 200 by decide)
    (show (200 : Int) < 300 by decide) ?_)
  · rintro request hbody
    rw [← hbody]
    rfl
  · show (0 : Int) < min (batchExecution pairBackend pairRequests 0).deadline
      (0 + pairBackend.options.attemptTimeout * 1000000)
    decide +kernel
  · dsimp only
    split <;> decide +kernel

/-- Every reply keeps the contract. -/
theorem not_violated_pairWorld (h : Made pairBackend pairWorld pairCodec pairRequests
      (batchExecution pairBackend pairRequests 0) post)
    (hgroup : post.group ∈ groups pairRequests) :
    ¬Violated pairBackend pairWorld.arith pairCodec pairRequests post := by
  have hsent := sent_pairWorld h
  have hbody := h.body
  rw [groups_pairRequests, List.mem_pair] at hgroup
  rcases hgroup with hgroup | hgroup
  · rw [hgroup, body_pair] at hbody
    obtain ⟨-, htext⟩ := Prod.mk.inj (Except.ok.inj hbody)
    rw [← htext, if_pos rfl] at hsent
    have hreply : readReply pairCodec post.group.length pairReplyText =
        some ⟨lit "jev", [(lit "q0", noulAnswer 1), (lit "q1", tiedAnswer)], ⟨7, 1⟩⟩ := by
      rw [hgroup]
      decide +kernel
    refine not_violated hsent hreply fun row i hrow => ?_
    rw [hgroup] at hrow
    rcases row with - | - | row
    · obtain rfl := Option.some.inj hrow
      exact ⟨noulAnswer 1, by decide +kernel, by decide +kernel⟩
    · obtain rfl := Option.some.inj hrow
      exact ⟨tiedAnswer, by decide +kernel, by decide +kernel⟩
    · cases hrow
  · rw [hgroup, body_solo] at hbody
    obtain ⟨-, htext⟩ := Prod.mk.inj (Except.ok.inj hbody)
    rw [← htext, if_neg (by decide +kernel)] at hsent
    have hreply : readReply pairCodec post.group.length soloReplyText =
        some ⟨lit "jev", [(lit "q0", noulAnswer 0)], ⟨7, 1⟩⟩ := by
      rw [hgroup]
      decide +kernel
    refine not_violated hsent hreply fun row i hrow => ?_
    rw [hgroup] at hrow
    rcases row with - | row
    · obtain rfl := Option.some.inj hrow
      exact ⟨noulAnswer 0, by decide +kernel, by decide +kernel⟩
    · cases hrow

/-- The scores of an answer that has been routed are those the server's answer decodes to. -/
theorem Routed.scores {g : JsonValue → JsonValue → JsonValue} {posts : List Post}
    {predicted : Predicted} {i : Nat} {request : InferenceRequest}
    (h : Routed backend w codec g posts predicted i request) (state question : JsonValue)
    (hstate : content codec request.state = some state)
    (hquestion : backend.question codec request = some question) :
    (predicted.output[i]?).map InferenceResponse.scores =
      (decodeAnswer w.arith request (g state question) { scores := [], modelId := [] }).map
        InferenceResponse.scores := by
  obtain ⟨post, -, sent, reply, usage, state', question', response, -, -, -, -, hstate', hquestion',
    hdecode, hplace⟩ := h
  obtain rfl := Option.some.inj (hstate.symm.trans hstate')
  obtain rfl := Option.some.inj (hquestion.symm.trans hquestion')
  rw [hplace, ← hdecode]
  exact scores_decodeAnswer _ _ _ _ _

/-- The batch is posted in two groups, and each request is answered from the reply to its own. -/
theorem predictBatch_routes_pair :
    let batch := predictBatch pairBackend pairWorld pairCodec pairRequests 0
    Routes pairBackend pairWorld pairCodec pairServer pairRequests
        (batchExecution pairBackend pairRequests 0) batch.1 batch.2 ∧
      batch.1.map Post.group = [[0, 2], [1]] ∧
      ∃ predicted, batch.2 = .ok predicted ∧
        predicted.output.map InferenceResponse.scores =
          [[.finite 0, .finite 1], [.finite 1, .finite 0], [.finite (1 / 2), .finite (1 / 2)]] := by
  intro batch
  have hroutes : Routes pairBackend pairWorld pairCodec pairServer pairRequests
      (batchExecution pairBackend pairRequests 0) batch.1 batch.2 :=
    predictBatch_routes pairBackend serves_pairServer pairRequests 0
  obtain ⟨predicted, hresult⟩ := hroutes.complete unstopped_pairWorld
    (by
      rw [groups_pairRequests]
      exact List.forall_mem_cons.2
        ⟨⟨_, body_pair⟩, List.forall_mem_singleton.2 ⟨_, body_solo⟩⟩)
    fun post hpost => ⟨⟨_, sent_pairWorld (hroutes.made post hpost)⟩,
      not_violated_pairWorld (hroutes.made post hpost)
        (hroutes.order.subset (List.mem_map_of_mem hpost))⟩
  obtain ⟨-, hgroups, hlength, hrouted⟩ := hroutes.answered predicted hresult
  refine ⟨hroutes, hgroups.trans groups_pairRequests, predicted, hresult, ?_⟩
  have hfirst := ((hrouted 0 _ rfl).scores (.string (lit "s")) noulQuestion rfl
    (by decide +kernel)).trans (by decide +kernel : _ = some [.finite 0, .finite 1])
  have hsecond := ((hrouted 1 _ rfl).scores (.string (lit "t")) noulQuestion rfl
    (by decide +kernel)).trans (by decide +kernel : _ = some [.finite 1, .finite 0])
  have hthird := ((hrouted 2 _ rfl).scores (.string (lit "s")) (choiceQuestion (lit "which?")) rfl
    (by decide +kernel)).trans (by decide +kernel : _ = some [.finite (1 / 2), .finite (1 / 2)])
  obtain ⟨first, second, third, houtput⟩ := List.length_eq_three.1 hlength
  rw [houtput] at hfirst hsecond hthird ⊢
  rw [List.map_cons, List.map_cons, List.map_singleton, Option.some.inj hfirst,
    Option.some.inj hsecond, Option.some.inj hthird]

end TypesafeBackend

end Jevt
