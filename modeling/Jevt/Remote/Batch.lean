import Jevt.Remote.Answer

/-!
# Batches of remote requests

`typesafe_backend::predict_batch` of `src/remote.cpp`, next to the posts it makes: one for each
group, with its payload and the transport calls of `send`. The usage report of a group is at the
address that is the number of the group. A reading of the clock has a greater number than those
before it.
-/

namespace Jevt

open Library

/-- A group whose payload has been sent. -/
structure Post where
  group : List Nat
  payload : JsonValue
  body : Bytes
  attempts : List Attempt
  sent : Result SentResponse

/-- The error of a request that cannot be sent. -/
def invalidPayload : Error :=
  { code := .invalidRequest, message := lit "invalid remote state, instructions or criteria" }

/-- The error of a payload that is not text. -/
def invalidJson : Error :=
  { code := .invalidRequest, message := lit "remote request is not valid UTF-8 JSON" }

/-- The error of a payload that is too long. -/
def oversizedPayload : Error :=
  { code := .invalidRequest, message := lit "remote request exceeds byte limit" }

/-- The error of a reply that is not what the request asks for. -/
def invalidReply : Error :=
  { code := .invalidBackendOutput, message := lit "invalid remote response contract" }

namespace TypesafeBackend

variable (backend : TypesafeBackend) (w : World) (codec : JsonCodec)

/-- What a group sends. -/
def body (requests : List InferenceRequest) (group : List Nat) :
    Except Error (JsonValue × Bytes) :=
  match payload backend codec requests group with
  | none => .error invalidPayload
  | some payload =>
    match codec.dump payload with
    | none => .error invalidJson
    | some body =>
      if backend.options.maxRequestBytes < body.length then .error oversizedPayload
      else .ok (payload, body)

/-- The loop over the groups. -/
def postGroups (requests : List InferenceRequest) (execution : RemoteExecution) :
    List (List Nat) → Nat → Predicted → List Post × Result Predicted
  | [], _, predicted => ([], .ok predicted)
  | group :: rest, reading, predicted =>
    match body backend codec requests group with
    | .error failure => ([], .error failure)
    | .ok (payload, body) =>
      let (attempts, sent) :=
        send backend w (lit "POST") (lit "/v1/systemone") body execution reading
      let post : Post := ⟨group, payload, body, attempts, sent⟩
      match sent with
      | .error failure => ([post], .error failure)
      | .ok response =>
        match decodeGroup backend w.arith codec requests group response predicted.reports.length
            predicted.output with
        | none => ([post], .error invalidReply)
        | some (output, usage) =>
          let reading := reading + 6 * attempts.length + 1
          match execution.error (w.env reading) with
          | some failure => ([post], .error failure)
          | none =>
            let (posts, result) := postGroups requests execution rest (reading + 1)
              ⟨output, predicted.reports ++ [usage]⟩
            (post :: posts, result)

/-- The deadline and the stop sources of a batch. -/
def batchExecution (requests : List InferenceRequest) (now : Int) : RemoteExecution where
  deadline := requests.foldl
    (fun deadline request => request.deadline.elim deadline (min deadline ·))
    (now + backend.options.callTimeout * 1000000)
  cancellation := requests.filterMap InferenceRequest.cancellation

/-- `predict_batch`, whose first reading has a given number. -/
def predictBatch (requests : List InferenceRequest) (reading : Nat) :
    List Post × Result Predicted :=
  if requests = [] then ([], .ok ⟨[], []⟩)
  else
    let execution := batchExecution backend requests (w.env reading).now
    match execution.error (w.env (reading + 1)) with
    | some failure => ([], .error failure)
    | none =>
      postGroups backend w codec requests execution (groups requests) (reading + 2)
        ⟨List.replicate requests.length { scores := [], modelId := [] }, []⟩

/-- `predict`. -/
def predict (request : InferenceRequest) (reading : Nat) : Result InferenceResponse :=
  match (predictBatch backend w codec [request] reading).2 with
  | .error failure => .error failure
  | .ok predicted => .ok (predicted.output.headD { scores := [], modelId := [] })

/-! ## What a reply decodes to -/

variable {backend w codec} {arith : Arithmetic} {requests : List InferenceRequest}
  {execution : RemoteExecution}

/-- A group sends the text of its payload. -/
theorem body_eq_ok {group : List Nat} {json : JsonValue} {text : Bytes}
    (h : body backend codec requests group = .ok (json, text)) :
    payload backend codec requests group = some json ∧ codec.dump json = some text := by
  rw [body] at h
  split at h
  · cases h
  · next hpayload =>
    split at h
    · cases h
    · next hdump =>
      split at h
      · cases h
      · obtain ⟨rfl, rfl⟩ := Prod.mk.inj (Except.ok.inj h)
        exact ⟨hpayload, hdump⟩

/-- What is read of a reply. -/
theorem readReply_eq_some {size : Nat} {body : Bytes} {reply : Reply}
    (h : readReply codec size body = some reply) :
    ∃ parsed, codec.parse body = some parsed ∧
      parsed.member (lit "answers") = some (.object reply.answers) := by
  simp only [readReply, Option.bind_eq_bind, Option.bind_eq_some_iff] at h
  obtain ⟨parsed, hparsed, modelValue, -, model, -, h⟩ := h
  split at h
  · cases h
  · simp only [Option.bind_eq_some_iff] at h
    obtain ⟨answersValue, hanswers, answers, hmembers, _, -, _, -, _, -, _, -, _, -, h⟩ := h
    obtain rfl := Option.some.inj h
    refine ⟨parsed, hparsed, hanswers.trans (congrArg some ?_)⟩
    cases answersValue with
    | object members =>
      rw [JsonValue.getMembers] at hmembers
      split at hmembers
      · rw [Option.some.inj hmembers]
      · cases hmembers
    | _ => cases hmembers

/-- The responses of the rows are at the places of their requests, and nothing else has changed. -/
theorem decodeRows_eq_some {reply : Reply} {blank : InferenceResponse}
    {entries : List (Nat × Nat)} {output output' : List InferenceResponse}
    (h : decodeRows arith requests reply blank entries output = some output')
    (hnodup : (entries.map Prod.fst).Nodup)
    (hlength : ∀ i ∈ entries.map Prod.fst, i < output.length) :
    output'.length = output.length ∧
      (∀ i, i ∉ entries.map Prod.fst → output'[i]? = output[i]?) ∧
      ∀ entry ∈ entries, ∃ answer response,
        reply.answers.lookup (questionKey entry.2) = some answer ∧
        decodeAnswer arith (requests.getD entry.1 {}) answer blank = some response ∧
        output'[entry.1]? = some response := by
  induction entries generalizing output with
  | nil =>
    obtain rfl := Option.some.inj h
    exact ⟨rfl, fun _ _ => rfl, nofun⟩
  | cons entry entries ih =>
    obtain ⟨index, row⟩ := entry
    simp only [decodeRows, Option.bind_eq_bind, Option.bind_eq_some_iff] at h
    obtain ⟨answer, hanswer, response, hresponse, hrest⟩ := h
    obtain ⟨hindex, hentries⟩ := List.nodup_cons.1 (List.map_cons (f := Prod.fst) ▸ hnodup)
    obtain ⟨hlt, hrestlt⟩ := List.forall_mem_cons.1 (List.map_cons (f := Prod.fst) ▸ hlength)
    obtain ⟨hsize, hother, hrows⟩ := ih hrest hentries (by simpa using hrestlt)
    rw [List.length_set] at hsize
    refine ⟨hsize, fun i hi => ?_, List.forall_mem_cons.2 ⟨?_, hrows⟩⟩
    · rw [List.map_cons, List.mem_cons, not_or] at hi
      rw [hother i hi.2, List.getElem?_set_ne (Ne.symm hi.1)]
    · refine ⟨answer, response, hanswer, hresponse, ?_⟩
      rw [hother index hindex, List.getElem?_set_self hlt]

/-- Rows that are not decoded have one without an answer, or with an answer that is not. -/
theorem decodeRows_eq_none {reply : Reply} {blank : InferenceResponse}
    {entries : List (Nat × Nat)} {output : List InferenceResponse}
    (h : decodeRows arith requests reply blank entries output = none) :
    ∃ entry ∈ entries, ∀ answer, reply.answers.lookup (questionKey entry.2) = some answer →
      decodeAnswer arith (requests.getD entry.1 {}) answer blank = none := by
  induction entries generalizing output with
  | nil => cases h
  | cons entry entries ih =>
    obtain ⟨index, row⟩ := entry
    rw [decodeRows] at h
    by_cases hdecoded : ∀ answer, reply.answers.lookup (questionKey row) = some answer →
        decodeAnswer arith (requests.getD index {}) answer blank = none
    · exact ⟨(index, row), List.mem_cons_self, hdecoded⟩
    · simp only [not_forall] at hdecoded
      obtain ⟨answer, hanswer, hresponse⟩ := hdecoded
      obtain ⟨response, hresponse⟩ := Option.ne_none_iff_exists'.1 hresponse
      rw [hanswer, Option.bind_eq_bind, Option.bind_some, hresponse] at h
      obtain ⟨entry, hentry, hnone⟩ := ih h
      exact ⟨entry, List.mem_cons_of_mem _ hentry, hnone⟩

/-- A reply to a post that is as it should be: every question of the post has an answer, and the
response it decodes to is in the output. -/
def Accepted (backend : TypesafeBackend) (arith : Arithmetic) (codec : JsonCodec)
    (requests : List InferenceRequest) (post : Post) (usage : Nat) (predicted : Predicted) : Prop :=
  ∃ sent reply, post.sent = .ok sent ∧
    readReply codec post.group.length sent.value.body = some reply ∧
    predicted.reports[usage]? = some reply.usage ∧
    ∀ (row i : Nat), post.group[row]? = some i → ∃ answer response,
      reply.answers.lookup (questionKey row) = some answer ∧
      decodeAnswer arith (requests.getD i {}) answer
        (backend.blankResponse reply sent.attempts usage) = some response ∧
      predicted.output[i]? = some response

/-! ## Runs of the loop -/

/-- A post that has been made for its group. -/
structure Made (backend : TypesafeBackend) (w : World) (codec : JsonCodec)
    (requests : List InferenceRequest) (execution : RemoteExecution) (post : Post) : Prop where
  body : body backend codec requests post.group = .ok (post.payload, post.body)
  sent : ∃ reading, send backend w (lit "POST") (lit "/v1/systemone") post.body execution reading =
    (post.attempts, post.sent)

section
variable {gs : List (List Nat)} {reading : Nat} {predicted : Predicted}

/-- The posts are made for the first of the groups. -/
theorem posts_postGroups :
    (postGroups backend w codec requests execution gs reading predicted).1.map Post.group <+: gs ∧
      ∀ post ∈ (postGroups backend w codec requests execution gs reading predicted).1,
        Made backend w codec requests execution post := by
  fun_induction postGroups backend w codec requests execution gs reading predicted with
  | case1 => exact ⟨List.prefix_refl _, nofun⟩
  | case2 => exact ⟨List.nil_prefix, nofun⟩
  | case3 group rest reading predicted payload body hbody attempts failure hsend post =>
    exact ⟨List.prefix_iff_eq_append.2 rfl, List.forall_mem_singleton.2 ⟨hbody, reading, hsend⟩⟩
  | case4 group rest reading predicted payload body hbody attempts response hdecode hsend post =>
    exact ⟨List.prefix_iff_eq_append.2 rfl, List.forall_mem_singleton.2 ⟨hbody, reading, hsend⟩⟩
  | case5 group rest reading predicted payload body hbody attempts response output usage hdecode
      next failure hcheck hsend post =>
    exact ⟨List.prefix_iff_eq_append.2 rfl, List.forall_mem_singleton.2 ⟨hbody, reading, hsend⟩⟩
  | case6 group rest reading predicted payload body hbody attempts response output usage hdecode
      next hcheck posts result heq hsend post ih =>
    rw [heq] at ih
    refine ⟨?_, List.forall_mem_cons.2 ⟨⟨hbody, reading, hsend⟩, ih.2⟩⟩
    rw [List.map_cons, List.prefix_cons_inj]
    exact ih.1

/-- A loop without an error posts every group and accepts every reply, and writes to the places of
the requests only. -/
theorem success_postGroups {final : Predicted}
    (h : (postGroups backend w codec requests execution gs reading predicted).2 = .ok final)
    (hnodup : gs.flatten.Nodup) (hlt : ∀ i ∈ gs.flatten, i < predicted.output.length) :
    (postGroups backend w codec requests execution gs reading predicted).1.map Post.group = gs ∧
      final.output.length = predicted.output.length ∧
      (∀ i, i ∉ gs.flatten → final.output[i]? = predicted.output[i]?) ∧
      predicted.reports <+: final.reports ∧
      ∀ post ∈ (postGroups backend w codec requests execution gs reading predicted).1,
        ∃ usage, Accepted backend w.arith codec requests post usage final := by
  fun_induction postGroups backend w codec requests execution gs reading predicted with
  | case1 =>
    obtain rfl := Except.ok.inj h
    exact ⟨rfl, rfl, fun _ _ => rfl, List.prefix_refl _, nofun⟩
  | case2 => cases h
  | case3 => cases h
  | case4 => cases h
  | case5 => cases h
  | case6 group rest reading predicted payload body hbody attempts response output usage hdecode
      next hcheck posts result heq hsend post ih =>
    simp only [decodeGroup, Option.bind_eq_bind, Option.bind_eq_some_iff] at hdecode
    obtain ⟨reply, hreply, output', hrows, hpair⟩ := hdecode
    obtain ⟨rfl, rfl⟩ := Prod.mk.inj (Option.some.inj hpair)
    have hkeys : group.zipIdx.map Prod.fst = group := List.zipIdx_map_fst 0 group
    rw [List.flatten_cons, List.nodup_append] at hnodup
    obtain ⟨hgroup, hrest, hdisjoint⟩ := hnodup
    rw [List.flatten_cons] at hlt
    obtain ⟨hlength, hother, hplaced⟩ := decodeRows_eq_some hrows (by rwa [hkeys]) fun i hi =>
      hlt i (List.mem_append_left _ (hkeys ▸ hi))
    rw [hkeys] at hother
    rw [heq] at ih
    obtain ⟨hposts, hsize, hkept, hreports, haccepted⟩ := ih h hrest fun i hi => by
      rw [hlength]
      exact hlt i (List.mem_append_right _ hi)
    refine ⟨by rw [List.map_cons, hposts], hsize.trans hlength, fun i hi => ?_,
      (List.prefix_append _ _).trans hreports, List.forall_mem_cons.2 ⟨?_, haccepted⟩⟩
    · rw [List.flatten_cons, List.mem_append, not_or] at hi
      rw [hkept i hi.2, hother i hi.1]
    · refine ⟨predicted.reports.length, response, reply, rfl, hreply, ?_, fun row i hrow => ?_⟩
      · obtain ⟨suffix, hsuffix⟩ := hreports
        rw [← hsuffix, List.append_assoc, List.getElem?_append_right (Nat.le_refl _), Nat.sub_self]
        rfl
      · have hentry : (i, row) ∈ group.zipIdx := by
          refine List.mem_iff_getElem?.2 ⟨row, ?_⟩
          rw [List.getElem?_zipIdx, hrow]
          simp
        obtain ⟨answer, out, hanswer, hdecoded, hout⟩ := hplaced _ hentry
        refine ⟨answer, out, hanswer, hdecoded, ?_⟩
        have hmem : i ∈ group := List.mem_of_getElem? hrow
        rw [hkept i fun hi => hdisjoint i hmem i hi rfl]
        exact hout

end

end TypesafeBackend

end Jevt
