import Jevt.Batching.Routing

/-!
# What the callers get

`RoutesAnswers` reads the routing off from the histories of a pool, job by job: a job gets the
element at its own position, or its own cancellation or timeout, and nobody else's element. A caller
of `predict_batch` therefore gets what the inherited `predict_batch` would have given, when the
wrapped backend answers each row by itself (`predictBatch_answers`).
-/

namespace Jevt.Pool

open Library

variable {ρ : Type} {options : BatchingOptions} {pool pool' : Pool ρ}

/-! ## Job by job -/

/-- Every job gets its own answer: each call of the wrapped backend is passed the requests of its
jobs at their positions; no job is passed twice, and none that has failed its preflight; a job that
was passed in a list the wrapped backend answered by a list of the same length gets the element at
its position, or the error of its own request; a job that failed its preflight gets the error of its
own request; a job that gets a response gets the element at its own position; and a retired job has
got something. -/
structure RoutesAnswers (pool : Pool ρ) : Prop where
  views : ∀ d ∈ pool.dispatches, List.Forall₂ pool.Owns d.jobs d.views
  once : (pool.dispatches.flatMap Dispatch.jobs).Nodup
  refused : ∀ id failure, (id, some failure) ∈ pool.preflights → ∀ d ∈ pool.dispatches, id ∉ d.jobs
  element : ∀ d ∈ pool.dispatches, ∀ rs : List ρ, d.answer = .responses rs →
    rs.length = d.views.length → ∀ (position id : Nat), d.jobs[position]? = some id →
    ∀ c ∈ pool.completions, c.job = id →
      (∃ r, rs[position]? = some r ∧ c.response = .ok r) ∨
      ∃ request, pool.Owns id request ∧ Interrupted pool.environment request c.response
  interrupted : ∀ id failure, (id, some failure) ∈ pool.preflights →
    ∀ c ∈ pool.completions, c.job = id →
      ∃ request, pool.Owns id request ∧ Interrupted pool.environment request c.response
  own : ∀ c ∈ pool.completions, ∀ r, c.response = .ok r →
    ∃ d ∈ pool.dispatches, ∃ (rs : List ρ) (position : Nat), d.answer = .responses rs ∧
      rs.length = d.views.length ∧ d.jobs[position]? = some c.job ∧ rs[position]? = some r
  retired : ∀ id ∈ pool.retired, ∃ c ∈ pool.completions, c.job = id

/-- What a matching list means at a position. -/
theorem element_of_responses {d : Dispatch ρ} {rs : List ρ} (hanswer : d.answer = .responses rs)
    (hlength : rs.length = d.views.length) (position : Nat) :
    d.element position = rs[position]?.map .ok := by
  unfold Dispatch.element
  rw [hanswer]
  exact if_neg (not_not.2 hlength)

/-- A response comes from a matching list. -/
theorem responses_of_element {d : Dispatch ρ} {position : Nat} {r : ρ}
    (h : d.element position = some (.ok r)) :
    ∃ rs, d.answer = .responses rs ∧ rs.length = d.views.length ∧ rs[position]? = some r := by
  unfold Dispatch.element at h
  cases hanswer : d.answer with
  | responses rs =>
    simp only [hanswer] at h
    split_ifs at h with hlength
    · cases h
    · obtain ⟨r', hr, heq⟩ := Option.map_eq_some_iff.1 h
      obtain rfl := Except.ok.inj heq
      exact ⟨rs, rfl, not_not.1 hlength, hr⟩
  | _ =>
    rw [hanswer] at h
    cases h

/-- The jobs of the calls of the wrapped backend are different. -/
theorem Routed.nodup_dispatched (h : Routed pool) (hconsistent : Consistent options pool) :
    (pool.dispatches.flatMap Dispatch.jobs).Nodup := by
  have hanswered : ∀ workers : List (Worker ρ), ∀ id,
      (workers.flatMap Worker.answered).count id ≤ (workers.flatMap Worker.ids).count id := by
    intro workers id
    induction workers with
    | nil => exact le_rfl
    | cons worker rest ih =>
      have hworker : worker.answered.count id ≤ worker.ids.count id := by
        cases worker with
        | running turn =>
          simp only [Worker.answered]
          split_ifs
          · exact le_rfl
          · exact Nat.zero_le _
        | _ => exact le_rfl
      rw [List.flatMap_cons, List.flatMap_cons, List.count_append, List.count_append]
      exact Nat.add_le_add hworker ih
  have hnodup := hconsistent.once.nodup_iff.2 List.nodup_range
  rw [List.nodup_iff_count_le_one] at hnodup ⊢
  intro id
  have hdispatched := h.dispatchedOnce id
  have hone := hnodup id
  have hle := hanswered pool.workers id
  simp only [List.count_append] at hdispatched hone
  omega

/-- A job is looked at once by the preflight. -/
theorem Routed.nodup_checked (h : Routed pool) (hconsistent : Consistent options pool) :
    (pool.preflights.map Prod.fst).Nodup := by
  have hchecked : ∀ workers : List (Worker ρ),
      (workers.flatMap Worker.checked).Sublist (workers.flatMap Worker.ids) := by
    intro workers
    induction workers with
    | nil => exact .slnil
    | cons worker rest ih =>
      have hworker : worker.checked.Sublist worker.ids := by
        cases worker with
        | running turn => exact List.take_sublist _ _
        | _ => exact .slnil
      rw [List.flatMap_cons, List.flatMap_cons]
      exact hworker.append ih
  have hnodup := hconsistent.once.nodup_iff.2 List.nodup_range
  rw [List.append_assoc] at hnodup
  rw [h.checked.nodup_iff]
  refine (List.perm_append_comm.nodup_iff.2 ?_)
  exact (List.nodup_append.1 hnodup).2.1.sublist ((hchecked _).append_right _)

/-- A job stands at one position of one call of the wrapped backend. -/
theorem position_eq (hnodup : (pool.dispatches.flatMap Dispatch.jobs).Nodup) {d d' : Dispatch ρ}
    (hd : d ∈ pool.dispatches) (hd' : d' ∈ pool.dispatches) {position position' id : Nat}
    (h : d.jobs[position]? = some id) (h' : d'.jobs[position']? = some id) :
    d = d' ∧ position = position' := by
  obtain ⟨hjobs, hdisjoint⟩ := List.nodup_flatMap.1 hnodup
  have heq : d = d' := by
    by_contra hne
    have hsymm : Std.Symm (Function.onFun List.Disjoint (Dispatch.jobs (ρ := ρ))) :=
      ⟨fun _ _ => List.Disjoint.symm⟩
    exact hdisjoint.forall hd hd' hne (List.mem_of_getElem? h) (List.mem_of_getElem? h')
  subst heq
  obtain ⟨hlt, hget⟩ := List.getElem?_eq_some_iff.1 h
  obtain ⟨hlt', hget'⟩ := List.getElem?_eq_some_iff.1 h'
  exact ⟨rfl, ((hjobs d hd).getElem_inj_iff).1 (hget.trans hget'.symm)⟩

/-- **Every job gets its own answer.** -/
theorem routesAnswers (h : IsReachable options pool) : RoutesAnswers pool := by
  have hconsistent := h.consistent
  have hrouted := h.routed
  have hdispatched := hrouted.nodup_dispatched hconsistent
  have hrefused : ∀ id failure, (id, some failure) ∈ pool.preflights →
      ∀ d ∈ pool.dispatches, id ∉ d.jobs := fun id failure hverdict d hd hid => by
    have heq := eq_of_key_eq (hrouted.nodup_checked hconsistent) hverdict
      (hrouted.passed d hd id hid) rfl
    cases (Prod.mk.inj heq).2
  refine
    { views := hrouted.views
      once := hdispatched
      refused := hrefused
      element := fun d hd rs hanswer hlength position id hposition c hc hjob => ?element
      interrupted := fun id failure hverdict c hc hjob => ?interrupted
      own := fun c hc r hr => ?own
      retired := fun id hid =>
        List.mem_map.1 (hconsistent.logged.mem_iff.2 (List.mem_append_left _ hid)) }
  case element =>
    obtain ⟨request, howns, hinterrupted | ⟨d', hd', position', hposition', helement⟩⟩ :=
      hrouted.completions c hc
    · exact .inr ⟨request, hjob ▸ howns, hinterrupted⟩
    · obtain ⟨rfl, rfl⟩ := position_eq hdispatched hd hd' hposition (hjob ▸ hposition')
      rw [element_of_responses hanswer hlength] at helement
      obtain ⟨r, hr, heq⟩ := Option.map_eq_some_iff.1 helement
      exact .inl ⟨r, hr, heq.symm⟩
  case interrupted =>
    obtain ⟨request, howns, hinterrupted | ⟨d, hd, position, hposition, -⟩⟩ :=
      hrouted.completions c hc
    · exact ⟨request, hjob ▸ howns, hinterrupted⟩
    · exact absurd (hjob ▸ List.mem_of_getElem? hposition) (hrefused id failure hverdict d hd)
  case own =>
    obtain ⟨request, howns, hinterrupted | ⟨d, hd, position, hposition, helement⟩⟩ :=
      hrouted.completions c hc
    · rw [hr] at hinterrupted
      rcases hinterrupted with ⟨heq, -⟩ | ⟨heq, -⟩ <;> cases heq
    · rw [hr] at helement
      obtain ⟨rs, hanswer, hlength, hrs⟩ := responses_of_element helement
      exact ⟨d, hd, rs, position, hanswer, hlength, hposition, hrs⟩

/-! ## `predict_batch` -/

/-- The responses of futures without errors are collected in order. -/
theorem collect_ok (rs : List ρ) : collect (rs.map .ok) = .ok rs := by
  induction rs with
  | nil => rfl
  | cons r rest ih =>
    rw [List.map_cons, collect, ih]
    rfl

/-- When the wrapped backend answers each row by itself, an admitted row that has been neither
cancelled nor late gets the answer to it. -/
theorem response_eq (h : IsReachable options pool) {f : InferenceRequest → ρ}
    (hbackend : ∀ d ∈ pool.dispatches, d.answer = .responses (d.views.map f)) {id : Nat}
    {request : InferenceRequest} (howns : pool.Owns id request)
    (hrequest : executionError pool.environment request = none) {response : Result ρ}
    (hget : (Future.job id).get pool = some response) : response = .ok (f request) := by
  obtain ⟨c, hfind, rfl⟩ := Option.map_eq_some_iff.1 hget
  have hc := List.mem_of_find?_eq_some hfind
  have hjob : c.job = id := by simpa using List.find?_some hfind
  subst hjob
  have hrouted := h.routed
  obtain ⟨request', howns', hjustified⟩ := hrouted.completions c hc
  obtain rfl : request' = request := Option.some.inj (howns'.symm.trans howns)
  rcases hjustified with hinterrupted | ⟨d, hd, position, hposition, helement⟩
  · obtain ⟨hstopped, hlate⟩ := executionError_eq_none.1 hrequest
    rcases hinterrupted with ⟨-, source, hsource, hmem⟩ | ⟨-, deadline, hdeadline, hle⟩
    · exact absurd hmem (hstopped source hsource)
    · exact absurd hle (not_le.2 (hlate deadline hdeadline))
  · rw [element_of_responses (hbackend d hd) (List.length_map _), List.getElem?_map] at helement
    obtain ⟨r, hr, heq⟩ := Option.map_eq_some_iff.1 helement
    obtain ⟨view, hview, rfl⟩ := Option.map_eq_some_iff.1 hr
    obtain ⟨hlt, hget⟩ := List.getElem?_eq_some_iff.1 hposition
    obtain ⟨hlt', hget'⟩ := List.getElem?_eq_some_iff.1 hview
    have hviews := (List.forall₂_iff_get.1 (hrouted.views d hd)).2 position hlt hlt'
    rw [List.get_eq_getElem, List.get_eq_getElem, hget, hget'] at hviews
    rw [← heq, Option.some.inj (hviews.symm.trans howns)]

/-- The jobs of some rows have the requests of the rows. -/
theorem map_request_newJobs (pool : Pool ρ) (rows : List InferenceRequest) (receiver : Receiver) :
    (pool.newJobs rows receiver).map Job.request = rows := by
  unfold newJobs
  rw [List.map_map]
  conv_rhs => rw [← List.zipIdx_map_fst pool.admitted.length rows]
  rfl

/-- The submission of rows that the pool has room for. -/
theorem enqueue_eq (hcapacity : pool.queue.length ≤ options.queueCapacity)
    (hopen : pool.stopping = false) {rows : List InferenceRequest}
    (hroom : rows.length ≤ options.queueCapacity - pool.queue.length) :
    pool.enqueue options rows =
      (pool.accept rows .promise, (pool.newJobs rows .promise).map fun job => .job job.id) := by
  unfold enqueue
  rw [sizeSub_of_le hcapacity, if_neg]
  simp [hopen, hroom]

/-- A run adds to the history. -/
theorem grows_of_run {labels : List (Label ρ)} (hrun : Run (step options) pool labels pool') :
    Grows pool pool' :=
  Run.mono (I := fun _ => True) Grows.refl Grows.trans
    (fun _ _ _ _ hstep => ⟨trivial, (moves_of_step hstep).grows⟩) trivial hrun

/-- What a caller of `predict_batch` collects from a wrapped backend that answers each row by
itself: the answers to the rows, in order, as long as these are neither cancelled nor late. -/
theorem collect_eq {rows : List InferenceRequest} {f : InferenceRequest → ρ}
    {labels : List (Label ρ)}
    (hrun : Run (step options) (pool.accept rows .promise) labels pool')
    (hreachable : IsReachable options pool')
    (hbackend : ∀ d ∈ pool'.dispatches, d.answer = .responses (d.views.map f))
    (hrows : ∀ row ∈ rows, executionError pool'.environment row = none) {results : List (Result ρ)}
    (hready : ((pool.newJobs rows .promise).map fun job => (Future.job job.id).get pool') =
      results.map some) : collect results = .ok (rows.map f) := by
  have hgrows := grows_of_run hrun
  have hresults : results = (pool.newJobs rows .promise).map fun job => .ok (f job.request) := by
    refine List.map_injective_iff.2 (Option.some_injective (Result ρ)) ?_
    rw [← hready, List.map_map]
    refine List.map_congr_left fun job hjob => ?_
    have hmem : (Future.job job.id).get pool' ∈ results.map some :=
      hready ▸ List.mem_map_of_mem (f := fun job => (Future.job job.id).get pool') hjob
    obtain ⟨response, -, hget⟩ := List.mem_map.1 hmem
    have howns := (owns_newJobs pool rows .promise job hjob).mono hgrows
    have hrow : job.request ∈ rows := by
      rw [← map_request_newJobs pool rows .promise]
      exact List.mem_map_of_mem hjob
    rw [← hget, response_eq hreachable hbackend howns (hrows _ hrow) hget.symm]
    rfl
  have hanswers : ((pool.newJobs rows .promise).map fun job => (.ok (f job.request) : Result ρ)) =
      (rows.map f).map .ok := by
    conv_rhs => rw [← map_request_newJobs pool rows .promise, List.map_map, List.map_map]
    rfl
  rw [hresults, hanswers, collect_ok]

/-- The futures of jobs that have been completed are ready. -/
theorem ready_of_completed {rows : List InferenceRequest} {receiver : Receiver}
    (h : (pool'.completions.map Completion.job).Perm
      (List.range (pool.accept rows receiver).admitted.length)) :
    ((pool.newJobs rows receiver).map fun job => (Future.job job.id).get pool') =
      ((pool.newJobs rows receiver).map fun job =>
        ((Future.job job.id).get pool').getD (.error cancelledError)).map some := by
  rw [List.map_map]
  refine List.map_congr_left fun job hjob => ?_
  have howns := owns_newJobs pool rows receiver job hjob
  have hmem : job.id ∈ pool'.completions.map Completion.job :=
    h.mem_iff.2 (List.mem_range.2 (List.getElem?_eq_some_iff.1 howns).1)
  obtain ⟨c, hc, hid⟩ := List.mem_map.1 hmem
  have hfound : (pool'.completions.find? fun c => c.job = job.id).isSome = true :=
    List.find?_isSome.2 ⟨c, hc, decide_eq_true hid⟩
  obtain ⟨c', hc'⟩ := Option.isSome_iff_exists.1 hfound
  simp only [Future.get, hc', Function.comp_apply, Option.map_some, Option.getD_some]

/-- **Every caller gets the answers to its own requests.** The jobs of any pool get their own
answers. Rows that are submitted together while the pool is open and has room can be completed; and
whenever they are completed, by a wrapped backend that answers each row by itself, and none of them
has been cancelled or has expired, `predict_batch` returns the answers to the rows in order, as the
inherited `predict_batch` does. -/
theorem predictBatch_answers (h : IsReachable options pool) :
    RoutesAnswers pool ∧
    ∀ (f : InferenceRequest → ρ) (rows : List InferenceRequest), pool.stopping = false →
      rows.length ≤ options.queueCapacity - pool.queue.length →
      (∀ labels pool', Run (step options) (pool.enqueue options rows).1 labels pool' →
        (∀ d ∈ pool'.dispatches, d.answer = .responses (d.views.map f)) →
        (∀ row ∈ rows, executionError pool'.environment row = none) →
        ∀ results, ((pool.enqueue options rows).2.map fun future => future.get pool') =
            results.map some →
          collect results = .ok (rows.map f) ∧
          ∀ env, (∀ row ∈ rows, ∀ i, executionError (env i) row = none) →
            collect results = predictBatch env (fun row => .ok (f row)) 0 rows) ∧
      ((∀ d ∈ pool.dispatches, d.answer = .responses (d.views.map f)) →
        (∀ row ∈ rows, row.deadline = none ∧ executionError pool.environment row = none) →
        ∃ labels pool' results, Run (step options) (pool.enqueue options rows).1 labels pool' ∧
          ((pool.enqueue options rows).2.map fun future => future.get pool') = results.map some ∧
          collect results = .ok (rows.map f)) := by
  refine ⟨routesAnswers h, fun f rows hopen hroom => ?_⟩
  have hconsistent := h.consistent
  have hsubmit := enqueue_eq hconsistent.capacity hopen hroom
  have hstep : pool.step options (.enqueue rows) = some (pool.accept rows .promise) := by
    show some (pool.enqueue options rows).1 = _
    rw [hsubmit]
  have haccepted : IsReachable options (pool.accept rows .promise) := by
    obtain ⟨wrapped, environment, pool₀, hcreate, hreachable⟩ := h
    exact ⟨wrapped, environment, pool₀, hcreate, hreachable.tail hstep⟩
  have hlater : ∀ {labels : List (Label ρ)} {pool' : Pool ρ},
      Run (step options) (pool.accept rows .promise) labels pool' → IsReachable options pool' := by
    intro labels pool' hrun
    obtain ⟨wrapped, environment, pool₀, hcreate, labels₀, hrun₀⟩ := haccepted
    exact ⟨wrapped, environment, pool₀, hcreate, _, hrun₀.trans hrun⟩
  simp only [hsubmit, List.map_map]
  refine ⟨fun labels pool' hrun hbackend hrows results hready => ?_, fun hbackend hrows => ?_⟩
  · have hcollect := collect_eq hrun (hlater hrun) hbackend hrows hready
    exact ⟨hcollect, fun env henv => hcollect.trans (predictBatch_eq_ok henv).symm⟩
  · obtain ⟨-, hdrains, -⟩ := admitted_jobs_are_completed haccepted
    obtain ⟨labels, pool', hrun, hcontinues, hall⟩ := hdrains fun views => .responses (views.map f)
    have hbackend' : ∀ d ∈ pool'.dispatches, d.answer = .responses (d.views.map f) :=
      fun d hd => (hcontinues.dispatches d hd).elim (hbackend d) id
    have hrows' : ∀ row ∈ rows, executionError pool'.environment row = none := fun row hrow => by
      obtain ⟨hdeadline, hnone⟩ := hrows row hrow
      rw [executionError_eq_none] at hnone ⊢
      rw [hdeadline, hcontinues.stopped]
      exact ⟨hnone.1, nofun⟩
    have hready := ready_of_completed hall
    exact ⟨labels, pool', _, hrun, hready, collect_eq hrun (hlater hrun) hbackend' hrows' hready⟩

/-- A caller submits two rows to a new pool with two buckets. -/
theorem predictBatch_answers_buckets : ∃ (pool pool' : Pool Nat) (labels : List (Label Nat))
    (results : List (Result Nat)),
    create true { lengthBucketWidth := 4 } { now := 0 } = .ok pool ∧
    Run (step { lengthBucketWidth := 4 })
      (pool.enqueue { lengthBucketWidth := 4 }
        [{ input := lit "long input" }, { input := lit "in" }]).1 labels pool' ∧
    ((pool.enqueue { lengthBucketWidth := 4 }
        [{ input := lit "long input" }, { input := lit "in" }]).2.map fun future =>
      future.get pool') = results.map some ∧
    collect results = .ok [10, 2] := by
  obtain ⟨pool, hpool⟩ : ∃ pool : Pool Nat,
      create true { lengthBucketWidth := 4 } { now := 0 } = .ok pool := ⟨_, rfl⟩
  have hreachable : IsReachable { lengthBucketWidth := 4 } pool :=
    ⟨true, { now := 0 }, pool, hpool, Reachable.refl pool⟩
  obtain rfl := Except.ok.inj hpool
  obtain ⟨-, hanswers⟩ := predictBatch_answers hreachable
  obtain ⟨-, hexists⟩ := hanswers InferenceRequest.bytes
    [{ input := lit "long input" }, { input := lit "in" }] rfl (by decide)
  obtain ⟨labels, pool', results, hrun, hready, hcollect⟩ := hexists nofun (by decide)
  exact ⟨_, pool', labels, results, rfl, hrun, hready, hcollect⟩

end Jevt.Pool
