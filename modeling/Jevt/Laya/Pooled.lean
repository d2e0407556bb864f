import Jevt.Batching.Answers
import Jevt.Laya.Concurrent

/-!
# A batching pool over the ONNX adapter

The workers of a `batching_backend` hand their batches to one `laya_backend`, several at a time. The
two machines run next to each other: a call of the wrapped backend is one of the concurrent calls of
`predict_batch`, on the requests it was passed, and its answers are what this call has returned
(`Serves`).

A response is read with its usage report, not with its address. What a caller of the pool gets is
then the answer to its request alone (`pool_answers_alone`): the pool brings each answer back to its
own request, the calls on the adapter do not interfere, and a row is answered in every batch alike.
-/

namespace Jevt.LayaBackend

open Library

variable {backend : LayaBackend} {items : List LayaItem} {s : LayaCalls}

/-! ## Rows -/

/-- What is answered to a request alone, by any call whose checks pass, after any other calls. -/
def AnswersAlone (backend : LayaBackend) (request : InferenceRequest)
    (answer : InferenceResponse × TokenUsage) : Prop :=
  ∀ (history : List (LayaCall × List InferenceRequest)) (call : LayaCall),
    (∀ k < 3, executionError (call.check k) request = none) →
      ∃ predicted, (backend.predict call request (backend.after history)).1 = .ok predicted ∧
        predicted.answers = [answer]

/-- Rows that are answered in order have all been answered. -/
theorem getElem?_of_decodeRows {width i : Nat} {values : List Floating}
    {output : List InferenceResponse}
    (h : backend.decodeRows width values i items = .ok output) :
    output.length = items.length ∧ ∀ (j : Nat) (item : LayaItem), items[j]? = some item →
      ∃ response, output[j]? = some response ∧
        backend.decodeRow width values (i + j) item = .ok response := by
  induction items generalizing i output with
  | nil =>
    obtain rfl := Except.ok.inj h
    refine ⟨rfl, fun j item hitem => ?_⟩
    rw [List.getElem?_nil] at hitem
    cases hitem
  | cons first items ih =>
    rw [decodeRows] at h
    cases hfirst : backend.decodeRow width values i first with
    | error failure =>
      rw [hfirst] at h
      cases h
    | ok response =>
      rw [hfirst] at h
      cases hrest : backend.decodeRows width values (i + 1) items with
      | error failure =>
        rw [hrest] at h
        cases h
      | ok rest =>
        rw [hrest] at h
        obtain rfl := Except.ok.inj h
        obtain ⟨hlength, hrows⟩ := ih hrest
        refine ⟨congrArg (· + 1) hlength, fun j item hitem => ?_⟩
        cases j with
        | zero =>
          obtain rfl := Option.some.inj hitem
          exact ⟨response, rfl, hfirst⟩
        | succ j =>
          have hrow := hrows j item hitem
          rwa [Nat.add_right_comm] at hrow

/-- A batch that does not overflow has no row that would overflow alone. -/
theorem overflows_singleton {item : LayaItem} (hitem : item ∈ items)
    (h : overflows items = false) : overflows [item] = false := by
  have hbound : ¬(sizeModulus - 1) / max (batchLength items) (batchWidth items) < items.length :=
    of_decide_eq_false h
  refine decide_eq_false fun hover => hbound ?_
  -- a single row is not longer and not wider than its batch
  have hlength : batchLength [item] ≤ batchLength items :=
    max_le (le_foldl_max (fun item : LayaItem => item.ids.length) items 8).1 (length_ids_le hitem)
  have hwidth : batchWidth [item] ≤ batchWidth items :=
    max_le (le_foldl_max (fun item : LayaItem => item.markers.length) items 2).1
      (length_markers_le hitem)
  have hpos : 0 < max (batchLength [item]) (batchWidth [item]) :=
    lt_of_lt_of_le (by decide : 0 < 8)
      ((le_foldl_max (fun item : LayaItem => item.ids.length) [item] 8).1.trans
        (Nat.le_max_left _ _))
  have hquotient : (sizeModulus - 1) / max (batchLength items) (batchWidth items) ≤
      (sizeModulus - 1) / max (batchLength [item]) (batchWidth [item]) :=
    Nat.div_le_div_left (max_le_max hlength hwidth) hpos
  have hzero : (sizeModulus - 1) / max (batchLength [item]) (batchWidth [item]) = 0 :=
    Nat.lt_one_iff.1 hover
  exact (hquotient.trans hzero.le).trans_lt (List.length_pos_of_mem hitem)

/-- A request alone whose checks pass is answered by what its row alone is decoded to. -/
theorem predictBatch_singleton {call : LayaCall} {request : InferenceRequest} {item : LayaItem}
    (history : List (LayaCall × List InferenceRequest))
    (hchecks : ∀ k < 3, executionError (call.check k) request = none)
    (hmade : backend.bundle.item sizeSub request = .ok item) (hroom : overflows [item] = false) :
    (backend.predictBatch call [request] (backend.after history)).1 =
      backend.decode [item] (backend.session (layaTensors backend.bundle [item])) := by
  have hround : ∀ k < 3, firstFailure call.check k [request] = none := fun k hk =>
    firstFailure_eq_none_iff.2 fun i r hr => by
      cases i with
      | zero =>
        obtain rfl := Option.some.inj hr
        exact hchecks k hk
      | succ i => cases hr
  have hfirst := hround 0 (by decide)
  have hsecond := hround 1 (by decide)
  have hthird := hround 2 (by decide)
  rw [predictBatch_of_items (sound_after history) (List.cons_ne_nil _ _) hfirst
    (mapM_eq_ok_iff.2 (.cons hmade .nil)), hroom, if_neg Bool.false_ne_true]
  dsimp only [List.length_singleton]
  rw [hsecond, hthird]

/-- **A row that is answered in a batch is answered alike alone.** -/
theorem answersAlone_of_decodeRow (hsession : RowLocal backend.session) {j : Nat}
    {request : InferenceRequest} {item : LayaItem} {shape : List Nat} {values : List Floating}
    {response : InferenceResponse} (hmade : backend.bundle.item sizeSub request = .ok item)
    (hmarkers : item.markers.length = item.options.length) (hitem : items[j]? = some item)
    (hroom : overflows items = false)
    (hvalues : backend.session (layaTensors backend.bundle items) = [.tensor true shape values])
    (hresponse : backend.decodeRow (batchWidth items) values j item = .ok response) :
    backend.AnswersAlone request (response.unaddressed, item.usage) := by
  intro history call hchecks
  obtain ⟨shape', values', hvalues', hdecode⟩ := decode_eq hsession [item]
  have hlogits := hsession.logits_eq hvalues hvalues' hitem (rfl : [item][0]? = some item) hmarkers
  obtain ⟨hfinite, scores, hscores, rfl⟩ := decodeRow_eq_ok.1 hresponse
  rw [hlogits] at hfinite hscores
  have halone := decodeRow_eq_ok.2 ⟨hfinite, scores, hscores, rfl⟩
  have hbatch := predictBatch_singleton history hchecks hmade
    (overflows_singleton (List.mem_of_getElem? hitem) hroom)
  rw [hdecode, decodeRows, halone] at hbatch
  refine ⟨⟨[{
    scores := scores
    modelId := backend.bundle.modelId
    metadata := { provider := lit "onnxruntime", usage := some 0 } }], [item.usage]⟩, ?_, rfl⟩
  unfold predict
  dsimp only
  rw [hbatch]
  rfl

/-- The answers of a batch are the answers of its requests alone. -/
theorem answersAlone_of_decode (hsession : RowLocal backend.session)
    {requests : List InferenceRequest} {predicted : Predicted}
    (hitems : requests.mapM (backend.bundle.item sizeSub) = .ok items)
    (hroom : overflows items = false)
    (h : backend.decode items (backend.session (layaTensors backend.bundle items)) =
      .ok predicted) :
    predicted.answers.length = requests.length ∧ ∀ (j : Nat) (request : InferenceRequest),
      requests[j]? = some request → ∃ answer, predicted.answers[j]? = some answer ∧
        backend.AnswersAlone request answer := by
  obtain ⟨shape, values, hvalues, hdecode⟩ := decode_eq hsession items
  rw [h] at hdecode
  cases hrows : backend.decodeRows (batchWidth items) values 0 items with
  | error failure =>
    rw [hrows] at hdecode
    cases hdecode
  | ok output =>
    rw [hrows] at hdecode
    obtain rfl := Except.ok.inj hdecode
    obtain ⟨hlength, houtput⟩ := getElem?_of_decodeRows hrows
    have hcount : requests.length = items.length := (mapM_eq_ok_iff.1 hitems).length_eq
    refine ⟨(List.length_map _).trans (hlength.trans hcount.symm), fun j request hrequest => ?_⟩
    obtain ⟨item, hitem, hmade⟩ := getElem?_of_forall₂ (mapM_eq_ok_iff.1 hitems) hrequest
    obtain ⟨response, hresponse, hdecoded⟩ := houtput j item hitem
    rw [Nat.zero_add] at hdecoded
    refine ⟨(response.unaddressed, item.usage), ?_,
      answersAlone_of_decodeRow hsession hmade
        (markers_of_mapM hitems item (List.mem_of_getElem? hitem)) hitem hroom hvalues hdecoded⟩
    -- the report of a row is at the address that is its number
    obtain ⟨-, scores, -, rfl⟩ := decodeRow_eq_ok.1 hdecoded
    unfold Predicted.answers
    rw [List.getElem?_map, hresponse, Option.map_some]
    dsimp only [InferenceResponse.reported, Option.elim]
    rw [List.getD_eq_getElem?_getD, List.getElem?_map, hitem]
    rfl

/-! ## The two machines -/

/-- Where the answers of a call alone come from. -/
theorem decode_of_alone {a : LayaActivity} {predicted : Predicted}
    (h : backend.alone a = .ok predicted) :
    (a.requests = [] ∧ predicted = ⟨[], []⟩) ∨
      ∃ items, a.requests.mapM (backend.bundle.item sizeSub) = .ok items ∧
        overflows items = false ∧
          backend.decode items (backend.session (layaTensors backend.bundle items)) =
            .ok predicted := by
  unfold alone at h
  split_ifs at h with hempty
  · exact .inl ⟨hempty, (Except.ok.inj h).symm⟩
  · refine .inr ?_
    split at h
    · cases h
    · unfold answerOf at h
      split at h
      · cases h
      · next items hitems =>
        split_ifs at h with hroom
        unfold served at h
        split at h
        · cases h
        · unfold received at h
          split at h
          · cases h
          · exact ⟨items, hitems, Bool.eq_false_of_not_eq_true hroom, h⟩

/-- The answers that a concurrent call has returned are the answers of its requests alone. -/
theorem answersAlone_of_returned (hsession : RowLocal backend.session) {labels : List LayaLabel}
    (hrun : Run backend.step {} labels s) {a : LayaActivity} (ha : a ∈ s.calls)
    (hthrown : a.thrown = false) {predicted : Predicted}
    (hplace : a.place = .returned (.ok predicted)) :
    predicted.answers.length = a.requests.length ∧ ∀ (j : Nat) (request : InferenceRequest),
      a.requests[j]? = some request → ∃ answer, predicted.answers[j]? = some answer ∧
        backend.AnswersAlone request answer := by
  have halone := ((leased_of_run hrun).calls a ha).answer hthrown
  unfold outcome at halone
  rw [hplace] at halone
  rcases decode_of_alone halone.symm with ⟨hempty, rfl⟩ | ⟨items, hitems, hroom, hdecode⟩
  · rw [hempty]
    refine ⟨rfl, fun j request hrequest => ?_⟩
    rw [List.getElem?_nil] at hrequest
    cases hrequest
  · exact answersAlone_of_decode hsession hitems hroom hdecode

/-- The wrapped backend of a pool is the adapter: a list of responses is what one of the concurrent
calls has returned on the requests that were passed. -/
def Serves (s : LayaCalls) (pool : Pool (InferenceResponse × TokenUsage)) : Prop :=
  ∀ d ∈ pool.dispatches, ∀ rs, d.answer = .responses rs →
    ∃ a ∈ s.calls, ∃ predicted, a.requests = d.views ∧ a.thrown = false ∧
      a.place = .returned (.ok predicted) ∧ predicted.answers = rs

/-- **A pool over the adapter answers each request as if it were alone.** However the workers of the
pool and the concurrent calls of the adapter interleave, and whatever the batches are: a response
that a job is completed with is the answer to the request of this job alone. The adapter never
returns a list that does not match, so a job that was in an answered batch gets that answer, unless
its own request has been cancelled or is late. -/
theorem pool_answers_alone {options : BatchingOptions}
    {pool : Pool (InferenceResponse × TokenUsage)} {labels : List LayaLabel}
    (hsession : RowLocal backend.session) (hrun : Run backend.step {} labels s)
    (h : Pool.IsReachable options pool) (hserves : Serves s pool) :
    (∀ c ∈ pool.completions, ∀ answer, c.response = .ok answer →
        ∃ request, pool.Owns c.job request ∧ backend.AnswersAlone request answer) ∧
      ∀ d ∈ pool.dispatches, ∀ rs, d.answer = .responses rs →
        rs.length = d.views.length ∧ ∀ c ∈ pool.completions, c.job ∈ d.jobs →
          ∃ request, pool.Owns c.job request ∧
            ((∃ answer, c.response = .ok answer ∧ backend.AnswersAlone request answer) ∨
              Interrupted pool.environment request c.response) := by
  have hroutes := Pool.routesAnswers h
  have hown : ∀ c ∈ pool.completions, ∀ answer, c.response = .ok answer →
      ∃ request, pool.Owns c.job request ∧ backend.AnswersAlone request answer := by
    intro c hc answer hresponse
    obtain ⟨d, hd, rs, position, hanswer, -, hposition, hrs⟩ :=
      hroutes.own c hc answer hresponse
    obtain ⟨request, hview, howns⟩ := getElem?_of_forall₂ (hroutes.views d hd) hposition
    obtain ⟨a, ha, predicted, hrequests, hthrown, hplace, rfl⟩ := hserves d hd rs hanswer
    obtain ⟨answer', hanswer', halone⟩ :=
      (answersAlone_of_returned hsession hrun ha hthrown hplace).2 position request
        (hrequests ▸ hview)
    obtain rfl := Option.some.inj (hanswer'.symm.trans hrs)
    exact ⟨request, howns, halone⟩
  refine ⟨hown, fun d hd rs hanswer => ?_⟩
  obtain ⟨a, ha, predicted, hrequests, hthrown, hplace, heq⟩ := hserves d hd rs hanswer
  have hlength : rs.length = d.views.length := by
    rw [← heq, ← hrequests]
    exact (answersAlone_of_returned hsession hrun ha hthrown hplace).1
  refine ⟨hlength, fun c hc hjob => ?_⟩
  obtain ⟨position, hposition⟩ := List.mem_iff_getElem?.1 hjob
  rcases hroutes.element d hd rs hanswer hlength position c.job hposition c hc rfl with
    ⟨answer, -, hresponse⟩ | ⟨request, howns, hinterrupted⟩
  · obtain ⟨request, howns, halone⟩ := hown c hc answer hresponse
    exact ⟨request, howns, .inl ⟨answer, hresponse, halone⟩⟩
  · exact ⟨request, howns, .inr hinterrupted⟩

/-- A call on two requests. -/
def pooledCall : List LayaLabel :=
  [.predictBatch [markNoul, markChoice] stillCall.check, .check 0, .lookup 0,
    .insert 0 ⟨0, 0, 0, 0⟩ none, .lookup 0, .insert 0 ⟨0, 0, 0, 0⟩ none, .acquire 0, .assign 0,
    .write 0, .write 0, .run 0, .decode 0, .wipe 0 1000, .giveBack 0 true]

/-- The pool that makes it, with what it returns. -/
def poolAround (rs : List (InferenceResponse × TokenUsage)) :
    List (Pool.Label (InferenceResponse × TokenUsage)) :=
  [.enqueue [markNoul, markChoice], .work 0 .wake, .work 0 .extract, .work 0 .check,
    .work 0 .check, .work 0 .call, .work 0 (.answer (.responses rs)), .work 0 .finish,
    .work 0 .finish, .work 0 .retire]

/-- Both jobs of the pool are completed with the answers to their requests alone. -/
theorem pool_answers_alone_both : ∃ pool : Pool (InferenceResponse × TokenUsage),
    Pool.IsReachable { maxDelay := 0 } pool ∧ pool.completions.length = 2 ∧
      ∀ c ∈ pool.completions, ∃ answer, c.response = .ok answer ∧
        ∃ request, pool.Owns c.job request ∧ markBackend.AnswersAlone request answer := by
  -- the call returns two answers
  have hcall : ((pooledCall.foldlM markBackend.step {}).map fun s => s.calls.map fun a =>
      (a.requests, a.thrown, a.place.inProgress,
        (markBackend.outcome a).map fun predicted => predicted.answers.length)) =
          some [([markNoul, markChoice], false, false, .ok 2)] := by decide +kernel
  obtain ⟨s, hrun, hs⟩ := Option.map_eq_some_iff.1 hcall
  obtain ⟨⟨requests, check, thrown, place⟩, hcalls, ha⟩ := List.map_eq_singleton_iff.1 hs
  obtain ⟨rfl, rfl, hreturned, hlength⟩ : requests = _ ∧ thrown = _ ∧ place.inProgress = _ ∧ _ := by
    simpa only [Prod.mk.injEq] using ha
  cases place with
  | returned answer =>
    obtain ⟨predicted, rfl, hcount⟩ : ∃ predicted, answer = .ok predicted ∧
        predicted.answers.length = 2 := by
      cases answer with
      | error failure => cases hlength
      | ok predicted => exact ⟨predicted, rfl, Except.ok.inj hlength⟩
    obtain ⟨first, second, hanswers⟩ := List.length_eq_two.1 hcount
    obtain ⟨pool₀, pool, hcreate, hpool, hcompletions, hdispatches⟩ :
        ∃ pool₀ pool, Pool.create true { maxDelay := 0 } { now := 0 } = .ok pool₀ ∧
          Run (Pool.step { maxDelay := 0 }) pool₀ (poolAround [first, second]) pool ∧
          pool.completions.map Completion.response = [.ok first, .ok second] ∧
          pool.dispatches.map (fun d => (d.views, d.answer)) =
            [([markNoul, markChoice], .responses [first, second])] :=
      ⟨_, _, rfl, rfl, rfl, rfl⟩
    have hreachable : Pool.IsReachable { maxDelay := 0 } pool :=
      ⟨true, { now := 0 }, pool₀, hcreate, _, hpool⟩
    have hserves : Serves s pool := fun d hd rs hresponses => by
      obtain ⟨d', hd', hpassed⟩ := List.map_eq_singleton_iff.1 hdispatches
      obtain rfl := List.mem_singleton.1 (hd' ▸ hd)
      obtain ⟨hviews, hanswer⟩ := Prod.mk.inj hpassed
      rw [hanswer] at hresponses
      obtain rfl := Answer.responses.inj hresponses
      exact ⟨_, hcalls ▸ List.mem_singleton_self _, predicted, hviews.symm, rfl, rfl, hanswers⟩
    refine ⟨pool, hreachable, ?_, fun c hc => ?_⟩
    · rw [← List.length_map (f := Completion.response), hcompletions]
      rfl
    · have hresponse : c.response ∈ [.ok first, .ok second] :=
        hcompletions ▸ List.mem_map_of_mem hc
      obtain ⟨answer, hanswer⟩ : ∃ answer, c.response = .ok answer := by
        rcases List.mem_pair.1 hresponse with h | h
        · exact ⟨first, h⟩
        · exact ⟨second, h⟩
      exact ⟨answer, hanswer,
        (pool_answers_alone rowLocal_markSession hrun hreachable hserves).1 c hc answer hanswer⟩
  | _ => cases hreturned

end Jevt.LayaBackend
