import Mathlib.Data.List.Forall2
import Jevt.Batching.Delivery

/-!
# Every job gets its own answer

The rows of one caller are spread over batches and mixed with those of others, and rows that fail
their preflight shift the positions of the rest. `Routed` is the invariant that keeps track: a turn
knows which job each request it passes on belongs to, a call of `finish` that is due carries what
the wrapped backend said at the position of its job or the error of the job's own request
(`Justified`), and so does every completion.

The history of a pool only grows (`Grows`), so what is justified stays justified.
-/

namespace Jevt

open Library

variable {ρ : Type} {options : BatchingOptions}

/-- The error of a request that has been cancelled or has expired. -/
def Interrupted (env : Environment) (request : InferenceRequest) (response : Result ρ) : Prop :=
  (response = .error cancelledError ∧ ∃ source ∈ request.cancellation, source ∈ env.stopped) ∨
    (response = .error timeoutError ∧ ∃ deadline ∈ request.deadline, deadline ≤ env.now)

/-- An interrupted request stays interrupted. -/
theorem Interrupted.mono {env env' : Environment} (hle : env.Earlier env')
    {request : InferenceRequest} {response : Result ρ} (h : Interrupted env request response) :
    Interrupted env' request response := by
  rcases h with ⟨rfl, source, hsource, hstopped⟩ | ⟨rfl, deadline, hdeadline, hnow⟩
  · exact .inl ⟨rfl, source, hsource, hle.stopped hstopped⟩
  · exact .inr ⟨rfl, deadline, hdeadline, hnow.trans hle.now⟩

/-- The error of a request interrupts it. -/
theorem interrupted_of_executionError {env : Environment} {request : InferenceRequest}
    {failure : Error} (h : executionError env request = some failure) :
    Interrupted env request (.error failure : Result ρ) := by
  rcases executionError_eq_some h with ⟨rfl, hstopped⟩ | ⟨rfl, hlate⟩
  · exact .inl ⟨rfl, hstopped⟩
  · exact .inr ⟨rfl, hlate⟩

/-- What the end of a call of the wrapped backend means for the request at a position. -/
def Dispatch.element (d : Dispatch ρ) (position : Nat) : Option (Result ρ) :=
  match d.answer with
  | .failure e => some (.error e)
  | .responses rs =>
    if rs.length ≠ d.views.length then some <| .error
      { code := .invalidBackendOutput
        message := lit "batching backend response count mismatch" }
    else rs[position]?.map .ok
  | .stdException what => some (.error { code := .backendFailure, message := what })
  | .otherException => some <| .error
      { code := .backendFailure, message := lit "wrapped backend threw an unknown exception" }

/-- The numbers of the jobs of a worker that the preflight loop has reached. -/
def Worker.checked : Worker ρ → List Nat
  | .running turn => (turn.batch.map Job.id).take turn.next
  | _ => []

/-- The numbers of the jobs of a worker whose call of the wrapped backend has ended. -/
def Worker.answered : Worker ρ → List Nat
  | .running turn => if turn.phase = .answered then turn.batch.map Job.id else []
  | _ => []

namespace Pool

variable {pool pool' : Pool ρ} {worker worker' : Worker ρ}

/-- A request is that of a job. -/
def Owns (pool : Pool ρ) (id : Nat) (request : InferenceRequest) : Prop :=
  pool.admitted[id]? = some request

/-- A response that a job may be completed with: the error of its own request, or what the wrapped
backend said at the position at which it was passed the request. -/
def Justified (pool : Pool ρ) (id : Nat) (request : InferenceRequest) (response : Result ρ) :
    Prop :=
  Interrupted pool.environment request response ∨
    ∃ d ∈ pool.dispatches, ∃ position, d.jobs[position]? = some id ∧
      d.element position = some response

/-- A turn is on track: its jobs, the active ones and their requests belong together, the active
jobs have passed their preflight, and the calls of `finish` that are due for an unfinished job are
justified. -/
structure OnTrack (pool : Pool ρ) (turn : Turn ρ) : Prop where
  jobs : ∀ job ∈ turn.batch, pool.Owns job.id job.request
  views : List.Forall₂ pool.Owns turn.active turn.views
  active : turn.active.Sublist ((turn.batch.map Job.id).take turn.next)
  passed : ∀ id ∈ turn.active, (id, none) ∈ pool.preflights
  reached : turn.phase ≠ .preflight → turn.next = turn.batch.length
  due : ∀ e ∈ turn.pending, ∀ job ∈ turn.batch, job.id = e.1 → job.finished = false →
    pool.Justified job.id job.request e.2

/-- The turn of a worker is on track. -/
def Tracks (pool : Pool ρ) : Worker ρ → Prop
  | .running turn => pool.OnTrack turn
  | _ => True

/-- The invariant of the routing: every job has its own request; the turns are on track; every
admitted job is looked at once by the preflight, and passed at most once to the wrapped backend,
with its own request and after a preflight without error; and the completions are justified. -/
structure Routed (pool : Pool ρ) : Prop where
  queued : ∀ job ∈ pool.queue, pool.Owns job.id job.request
  turns : ∀ worker ∈ pool.workers, pool.Tracks worker
  checked : (pool.preflights.map Prod.fst).Perm
    (pool.retired ++ pool.workers.flatMap Worker.checked)
  verdicts : ∀ e ∈ pool.preflights, ∀ failure, e.2 = some failure →
    ∃ request, pool.Owns e.1 request ∧
      Interrupted pool.environment request (.error failure : Result ρ)
  views : ∀ d ∈ pool.dispatches, List.Forall₂ pool.Owns d.jobs d.views
  passed : ∀ d ∈ pool.dispatches, ∀ id ∈ d.jobs, (id, none) ∈ pool.preflights
  dispatchedOnce : ∀ id, (pool.dispatches.flatMap Dispatch.jobs).count id ≤
    (pool.retired ++ pool.workers.flatMap Worker.answered).count id
  completions : ∀ c ∈ pool.completions, ∃ request, pool.Owns c.job request ∧
    pool.Justified c.job request c.response

/-! ## What stays true -/

/-- The history of a pool grows, and its surroundings move on. -/
structure Grows (pool pool' : Pool ρ) : Prop where
  environment : pool.environment.Earlier pool'.environment
  admitted : pool.admitted <+: pool'.admitted
  preflights : pool.preflights ⊆ pool'.preflights
  dispatches : pool.dispatches ⊆ pool'.dispatches

theorem Grows.refl (pool : Pool ρ) : Grows pool pool :=
  ⟨.refl _, List.prefix_rfl, List.Subset.refl _, List.Subset.refl _⟩

theorem Grows.trans {pool'' : Pool ρ} (h : Grows pool pool') (h' : Grows pool' pool'') :
    Grows pool pool'' :=
  ⟨h.environment.trans h'.environment, h.admitted.trans h'.admitted,
    fun _ he => h'.preflights (h.preflights he), fun _ hd => h'.dispatches (h.dispatches hd)⟩

theorem Owns.mono (hgrows : Grows pool pool') {id : Nat} {request : InferenceRequest}
    (h : pool.Owns id request) : pool'.Owns id request := by
  obtain ⟨more, hmore⟩ := hgrows.admitted
  rw [Owns, ← hmore, List.getElem?_append_left (List.getElem?_eq_some_iff.1 h).1]
  exact h

theorem Justified.mono (hgrows : Grows pool pool') {id : Nat} {request : InferenceRequest}
    {response : Result ρ} (h : pool.Justified id request response) :
    pool'.Justified id request response := by
  rcases h with hinterrupted | ⟨d, hd, hposition⟩
  · exact .inl (hinterrupted.mono hgrows.environment)
  · exact .inr ⟨d, hgrows.dispatches hd, hposition⟩

theorem Tracks.mono (hgrows : Grows pool pool') (h : pool.Tracks worker) :
    pool'.Tracks worker := by
  cases worker with
  | running turn =>
    obtain ⟨hjobs, hviews, hactive, hpassed, hreached, hdue⟩ := h
    exact ⟨fun job hjob => (hjobs job hjob).mono hgrows, hviews.imp fun _ _ => Owns.mono hgrows,
      hactive, fun id hid => hgrows.preflights (hpassed id hid), hreached,
      fun e he job hjob hid hnot => (hdue e he job hjob hid hnot).mono hgrows⟩
  | _ => trivial

/-- An action adds to the history. -/
theorem Acts.grows (h : Acts options pool worker pool' worker') : Grows pool pool' := by
  cases h with
  | refuse => exact ⟨.refl _, List.prefix_rfl, List.subset_append_left _ _, List.Subset.refl _⟩
  | pass => exact ⟨.refl _, List.prefix_rfl, List.subset_append_left _ _, List.Subset.refl _⟩
  | answer => exact ⟨.refl _, List.prefix_rfl, List.Subset.refl _, List.subset_append_left _ _⟩
  | _ => exact ⟨.refl _, List.prefix_rfl, List.Subset.refl _, List.Subset.refl _⟩

/-- A step adds to the history. -/
theorem Moves.grows (h : Moves options pool pool') : Grows pool pool' := by
  cases h with
  | reject rows => exact ⟨.refl _, List.prefix_rfl, List.Subset.refl _, List.Subset.refl _⟩
  | accept rows receiver hstopping hroom =>
    exact ⟨.refl _, List.prefix_append _ _, List.Subset.refl _, List.Subset.refl _⟩
  | surroundings hearlier hstopping =>
    exact ⟨hearlier, List.prefix_rfl, List.Subset.refl _, List.Subset.refl _⟩
  | work hworkers hacts =>
    obtain ⟨henvironment, hadmitted, hpreflights, hdispatches⟩ := hacts.grows
    exact ⟨henvironment, hadmitted, hpreflights, hdispatches⟩

/-! ## What an action does to the routing -/

/-- Finishing a job changes nothing else about it. -/
theorem finishJob_request (env : Environment) (job : Job) (response : Result ρ) :
    (finishJob env job response).1.request = job.request := by
  unfold finishJob
  split_ifs <;> rfl

/-- A job is completed with the error of its request or with the response it was finished with. -/
theorem finishJob_response {env : Environment} {job : Job} {response : Result ρ}
    {c : Completion ρ} (h : (finishJob env job response).2 = some c) :
    job.finished = false ∧ c.job = job.id ∧
      (Interrupted env job.request c.response ∨ c.response = response) := by
  unfold finishJob at h
  split_ifs at h with hfinished
  obtain rfl := Option.some.inj h
  refine ⟨Bool.eq_false_of_not_eq_true hfinished, rfl, ?_⟩
  cases herror : executionError env job.request with
  | none => exact .inr rfl
  | some failure => exact .inl (interrupted_of_executionError herror)

/-- What is due after the end of a call is what the wrapped backend said at the position of the
job. -/
theorem element_of_mem_deliveries {turn : Turn ρ} {a : Answer ρ} {e : Nat × Result ρ}
    (hlength : turn.active.length = turn.views.length) (hactive : e.1 ∈ turn.active)
    (he : e ∈ deliveries turn a) :
    ∃ position, turn.active[position]? = some e.1 ∧
      (⟨turn.active, turn.views, a⟩ : Dispatch ρ).element position = some e.2 := by
  obtain ⟨position, hposition⟩ := List.mem_iff_getElem?.1 hactive
  unfold deliveries at he
  cases a with
  | failure failure =>
    obtain ⟨id, -, rfl⟩ := List.mem_map.1 he
    exact ⟨position, hposition, rfl⟩
  | responses rs =>
    dsimp only at he
    split_ifs at he with hcount
    · obtain ⟨id, -, rfl⟩ := List.mem_map.1 he
      refine ⟨position, hposition, ?_⟩
      exact if_pos (hlength ▸ hcount)
    · obtain ⟨i, hi⟩ := List.mem_iff_getElem?.1 he
      obtain ⟨hjob, hresponse⟩ := List.getElem?_zip_eq_some.1 hi
      refine ⟨i, hjob, ?_⟩
      rw [List.getElem?_map] at hresponse
      exact (if_neg (hlength ▸ hcount)).trans hresponse
  | stdException what =>
    obtain ⟨job, -, rfl⟩ := List.mem_map.1 he
    exact ⟨position, hposition, rfl⟩
  | otherException =>
    obtain ⟨job, -, rfl⟩ := List.mem_map.1 he
    exact ⟨position, hposition, rfl⟩

/-- The reached part of a batch grows by the job at the position of the loop. -/
theorem take_reached {batch : List Job} {next : Nat} {job : Job} (hjob : batch[next]? = some job) :
    (batch.map Job.id).take (next + 1) = (batch.map Job.id).take next ++ [job.id] := by
  rw [List.take_add_one, List.getElem?_map, hjob]
  rfl

/-- The preflights and the reached part of a batch grow by the same job. -/
theorem perm_reached {batch : List Job} {next : Nat} {job : Job} (hjob : batch[next]? = some job)
    (verdict : Option Error) (retired : List Nat) (preflights : List (Nat × Option Error)) :
    (retired ++ (batch.map Job.id).take (next + 1) ++ preflights.map Prod.fst).Perm
      (retired ++ (batch.map Job.id).take next ++
        (preflights ++ [(job.id, verdict)]).map Prod.fst) := by
  rw [take_reached hjob, List.map_append, List.perm_iff_count]
  intro a
  simp only [List.count_append, List.map_cons, List.map_nil]
  omega

/-- An unfinished job of a batch is active when the wrapped backend is called. -/
theorem mem_active_of_calling {turn : Turn ρ} (hcovered : turn.Covered)
    (hphase : turn.phase = .calling) {job : Job} (hjob : job ∈ turn.batch)
    (hnot : job.finished = false) : job.id ∈ turn.active := by
  obtain ⟨hnext, hpending⟩ := hcovered.called hphase
  exact (hcovered.through hpending hnext hjob).resolve_left (by rw [hnot]; nofun)

/-- An action keeps the turn of its worker on track. -/
theorem Acts.tracks (h : Acts options pool worker pool' worker') (hcovered : worker.Covered)
    (htracks : pool.Tracks worker) (hqueued : ∀ job ∈ pool.queue, pool.Owns job.id job.request) :
    pool'.Tracks worker' := by
  have hgrows := h.grows
  cases h with
  | exit => trivial
  | anchor => trivial
  | lost => trivial
  | extract hqueue htake =>
    have hperm := perm_of_takeBatch htake
    rw [← hqueue] at hperm
    refine ⟨fun job hjob => hqueued job (hperm.subset (List.mem_append_left _ hjob)), .nil,
      List.nil_sublist _, nofun, fun h => absurd rfl h, nofun⟩
  | refuse hphase hpending hjob hverdict =>
    rename_i turn job failure
    obtain ⟨hjobs, hviews, hactive, hpassed, -, -⟩ := htracks
    refine ⟨hjobs, hviews, ?_, fun id hid => hgrows.preflights (hpassed id hid),
      fun h => absurd hphase h, fun e he job' hjob' hid hnot => ?_⟩
    · rw [take_reached hjob]
      exact hactive.trans (List.sublist_append_left _ _)
    · obtain rfl := List.mem_singleton.1 he
      have hrequest : job'.request = job.request := Option.some.inj
        ((hjobs job' hjob').symm.trans (hid ▸ hjobs job (List.mem_of_getElem? hjob)))
      rw [hrequest]
      exact .inl (interrupted_of_executionError hverdict)
  | pass hphase hpending hjob hverdict =>
    rename_i turn job
    obtain ⟨hjobs, hviews, hactive, hpassed, -, -⟩ := htracks
    have howns := hjobs job (List.mem_of_getElem? hjob)
    refine ⟨hjobs, List.rel_append hviews (.cons howns .nil), ?_, fun id hid => ?_,
      fun h => absurd hphase h, fun e he => ?_⟩
    · rw [take_reached hjob]
      exact hactive.append (List.Sublist.refl _)
    · rcases List.mem_append.1 hid with hid | hid
      · exact hgrows.preflights (hpassed id hid)
      · obtain rfl := List.mem_singleton.1 hid
        exact List.mem_append_right _ (List.mem_singleton_self _)
    · rw [hpending] at he
      cases he
  | skip hphase hpending hnext hactive =>
    obtain ⟨hjobs, hviews, hsublist, hpassed, -, hdue⟩ := htracks
    exact ⟨hjobs, hviews, hsublist, hpassed, fun _ => hnext, hdue⟩
  | call hphase hpending hnext =>
    obtain ⟨hjobs, hviews, hsublist, hpassed, -, hdue⟩ := htracks
    exact ⟨hjobs, hviews, hsublist, hpassed, fun _ => hnext, hdue⟩
  | answer a hphase =>
    rename_i turn
    obtain ⟨hjobs, hviews, hsublist, hpassed, hreached, -⟩ := htracks
    refine ⟨hjobs, hviews, hsublist, hpassed, fun _ => hreached (hphase ▸ nofun),
      fun e he job hjob hid hnot => ?_⟩
    have hactive := mem_active_of_calling hcovered hphase hjob hnot
    obtain ⟨position, hposition, helement⟩ :=
      element_of_mem_deliveries hviews.length_eq (hid ▸ hactive) he
    exact .inr ⟨_, List.mem_append_right _ (List.mem_singleton_self _), position, hid ▸ hposition,
      helement⟩
  | finish hpending hjob =>
    rename_i turn id response rest job
    obtain rfl := id_of_find? hjob
    have hsame := map_id_finish turn.batch (finishJob_id pool.environment job response)
    have hmem := List.mem_of_find?_eq_some hjob
    obtain ⟨hjobs, hviews, hsublist, hpassed, hreached, hdue⟩ := htracks
    refine ⟨fun j' hj' => ?_, hviews, ?_, hpassed, fun hphase => ?_, fun e he j' hj' hid hnot => ?_⟩
    · obtain ⟨j, hj, rfl⟩ := List.mem_map.1 hj'
      split_ifs
      · rw [finishJob_id, finishJob_request]
        exact hjobs job hmem
      · exact hjobs j hj
    · exact hsame ▸ hsublist
    · exact (hreached hphase).trans (List.length_map _).symm
    · obtain ⟨j, hj, rfl⟩ := List.mem_map.1 hj'
      by_cases heq : j.id = job.id
      · rw [if_pos heq, finishJob_finished] at hnot
        cases hnot
      · rw [if_neg heq] at hid hnot ⊢
        exact hdue e (hpending ▸ List.mem_cons_of_mem _ he) j hj hid hnot
  | retire => trivial

/-- An action completes jobs with justified responses. -/
theorem Acts.completions (h : Acts options pool worker pool' worker')
    (htracks : pool.Tracks worker) : ∀ c ∈ pool'.completions, c ∈ pool.completions ∨
      ∃ request, pool.Owns c.job request ∧ pool.Justified c.job request c.response := by
  cases h with
  | finish hpending hjob =>
    rename_i turn id response rest job
    obtain rfl := id_of_find? hjob
    have hmem := List.mem_of_find?_eq_some hjob
    obtain ⟨hjobs, -, -, -, -, hdue⟩ := htracks
    intro c hc
    refine (List.mem_append.1 hc).imp_right fun hc => ?_
    obtain ⟨hnot, hcjob, hresponse⟩ := finishJob_response (Option.mem_toList.1 hc)
    rw [hcjob]
    refine ⟨job.request, hjobs job hmem, ?_⟩
    rcases hresponse with hinterrupted | heq
    · exact .inl hinterrupted
    · rw [heq]
      exact hdue _ (hpending ▸ List.mem_cons_self) job hmem rfl hnot
  | _ => exact fun c hc => .inl hc

/-- The preflights follow the position of the loop. -/
theorem Acts.checked (h : Acts options pool worker pool' worker')
    (htracks : pool.Tracks worker) :
    (pool'.retired ++ worker'.checked ++ pool.preflights.map Prod.fst).Perm
      (pool.retired ++ worker.checked ++ pool'.preflights.map Prod.fst) := by
  cases h with
  | refuse hphase hpending hjob hverdict => exact perm_reached hjob (some _) _ _
  | pass hphase hpending hjob hverdict => exact perm_reached hjob none _ _
  | finish hpending hjob =>
    rename_i turn id response rest job
    obtain rfl := id_of_find? hjob
    have hsame := map_id_finish turn.batch (finishJob_id pool.environment job response)
    exact .of_eq (congrArg (fun ids => pool.retired ++ ids.take turn.next ++ _) hsame)
  | retire hphase hpending =>
    rename_i turn
    have hreached := htracks.reached (hphase ▸ nofun)
    show (pool.retired ++ turn.batch.map Job.id ++ [] ++ _).Perm
      (pool.retired ++ (turn.batch.map Job.id).take turn.next ++ _)
    rw [hreached, List.take_of_length_le (List.length_map _).le, List.append_nil]
  | _ => exact .refl _

/-- A call of the wrapped backend is accounted for by the worker that made it. -/
theorem Acts.dispatched (h : Acts options pool worker pool' worker') (htracks : pool.Tracks worker)
    (id : Nat) :
    (pool'.dispatches.flatMap Dispatch.jobs).count id +
        (pool.retired ++ worker.answered).count id ≤
      (pool.dispatches.flatMap Dispatch.jobs).count id +
        (pool'.retired ++ worker'.answered).count id := by
  cases h with
  | refuse hphase hpending hjob hverdict => simp [Worker.answered, hphase]
  | pass hphase hpending hjob hverdict => simp [Worker.answered, hphase]
  | skip hphase hpending hnext hactive => simp [Worker.answered, hphase]
  | call hphase hpending hnext => simp [Worker.answered, hphase]
  | answer a hphase =>
    rename_i turn
    have hactive : turn.active.count id ≤ (turn.batch.map Job.id).count id :=
      (htracks.active.trans (List.take_sublist _ _)).count_le id
    simp only [Worker.answered, hphase, List.flatMap_append, List.flatMap_singleton,
      List.count_append, if_true, reduceCtorEq, if_false, List.count_nil]
    omega
  | finish hpending hjob =>
    rename_i turn id' response rest job
    obtain rfl := id_of_find? hjob
    have hsame := map_id_finish turn.batch (finishJob_id pool.environment job response)
    simp only [Worker.answered, hsame]
    exact le_rfl
  | retire hphase hpending => simp [Worker.answered, hphase]
  | _ => exact le_rfl

/-- A preflight without success has found the request of its job interrupted. -/
theorem Acts.verdicts (h : Acts options pool worker pool' worker') (htracks : pool.Tracks worker) :
    ∀ e ∈ pool'.preflights, e ∈ pool.preflights ∨ ∀ failure, e.2 = some failure →
      ∃ request, pool.Owns e.1 request ∧
        Interrupted pool.environment request (.error failure : Result ρ) := by
  cases h with
  | refuse hphase hpending hjob hverdict =>
    intro e he
    refine (List.mem_append.1 he).imp_right fun he failure hfailure => ?_
    obtain rfl := List.mem_singleton.1 he
    obtain rfl := Option.some.inj hfailure
    exact ⟨_, htracks.jobs _ (List.mem_of_getElem? hjob), interrupted_of_executionError hverdict⟩
  | pass hphase hpending hjob hverdict =>
    intro e he
    refine (List.mem_append.1 he).imp_right fun he failure hfailure => ?_
    obtain rfl := List.mem_singleton.1 he
    cases hfailure
  | _ => exact fun e he => .inl he

/-- The wrapped backend is passed the requests of the active jobs, which have passed their
preflight. -/
theorem Acts.dispatches (h : Acts options pool worker pool' worker')
    (htracks : pool.Tracks worker) : ∀ d ∈ pool'.dispatches, d ∈ pool.dispatches ∨
      List.Forall₂ pool.Owns d.jobs d.views ∧ ∀ id ∈ d.jobs, (id, none) ∈ pool.preflights := by
  cases h with
  | answer a hphase =>
    intro d hd
    refine (List.mem_append.1 hd).imp_right fun hd => ?_
    obtain rfl := List.mem_singleton.1 hd
    exact ⟨htracks.views, htracks.passed⟩
  | _ => exact fun d hd => .inl hd

/-! ## The steps keep the routing -/

/-- What holds of a pool with a longer history and the same jobs. -/
theorem Routed.of_grows (h : Routed pool) (hgrows : Grows pool pool')
    (hqueue : ∀ job ∈ pool'.queue, pool'.Owns job.id job.request)
    (hworkers : pool'.workers = pool.workers) (hpreflights : pool'.preflights = pool.preflights)
    (hdispatches : pool'.dispatches = pool.dispatches)
    (hcompletions : pool'.completions = pool.completions)
    (hretired : pool'.retired = pool.retired) : Routed pool' where
  queued := hqueue
  turns := fun worker hworker => (h.turns worker (hworkers ▸ hworker)).mono hgrows
  checked := by
    rw [hpreflights, hretired, hworkers]
    exact h.checked
  verdicts := fun e he failure hfailure => by
    obtain ⟨request, howns, hinterrupted⟩ := h.verdicts e (hpreflights ▸ he) failure hfailure
    exact ⟨request, howns.mono hgrows, hinterrupted.mono hgrows.environment⟩
  views := fun d hd => (h.views d (hdispatches ▸ hd)).imp fun _ _ => Owns.mono hgrows
  passed := fun d hd id hid => hgrows.preflights (h.passed d (hdispatches ▸ hd) id hid)
  dispatchedOnce := by
    rw [hdispatches, hretired, hworkers]
    exact h.dispatchedOnce
  completions := fun c hc => by
    obtain ⟨request, howns, hjustified⟩ := h.completions c (hcompletions ▸ hc)
    exact ⟨request, howns.mono hgrows, hjustified.mono hgrows⟩

/-- New jobs have the requests they were made from. -/
theorem owns_newJobs (pool : Pool ρ) (rows : List InferenceRequest) (receiver : Receiver) :
    ∀ job ∈ pool.newJobs rows receiver, (pool.accept rows receiver).Owns job.id job.request := by
  intro job hjob
  obtain ⟨⟨row, id⟩, hrow, rfl⟩ := List.mem_map.1 hjob
  obtain ⟨hle, hget⟩ := List.mem_zipIdx_iff_le_and_getElem?_sub.1 hrow
  exact (List.getElem?_append_right hle).trans hget

/-- A worker that acts keeps the routing. -/
theorem Routed.work (h : Routed pool) {before after : List (Worker ρ)}
    (hworkers : pool.workers = before ++ worker :: after)
    (hacts : Acts options pool worker pool' worker') (hcovered : worker.Covered) :
    Routed { pool' with workers := before ++ worker' :: after } := by
  have hmem : worker ∈ pool.workers := by rw [hworkers]; simp
  have htracks := h.turns worker hmem
  have hgrows := hacts.grows
  set next : Pool ρ := { pool' with workers := before ++ worker' :: after } with hnext
  have hsame : Grows pool' next :=
    ⟨.refl _, List.prefix_rfl, List.Subset.refl _, List.Subset.refl _⟩
  have hall := hgrows.trans hsame
  refine
    { queued := fun job hjob => (h.queued job (hacts.queue.1 hjob)).mono hall
      turns := fun w hw => ?turns
      checked := ?checked
      verdicts := fun e he failure hfailure => ?verdicts
      views := fun d hd => ?views
      passed := fun d hd id hid => ?passed
      dispatchedOnce := fun id => ?dispatchedOnce
      completions := fun c hc => ?completions }
  case turns =>
    rcases mem_replaced hw with rfl | hw
    · exact (hacts.tracks hcovered htracks h.queued).mono hsame
    · exact (h.turns w (hworkers ▸ hw)).mono hall
  case checked =>
    have hchecked := perm_flatMap_replaced before after (hacts.checked htracks)
    have hbefore := h.checked
    show (pool'.preflights.map Prod.fst).Perm
      (pool'.retired ++ (before ++ worker' :: after).flatMap Worker.checked)
    rw [hworkers] at hbefore
    exact perm_of_conserved hchecked hbefore
  case verdicts =>
    rcases hacts.verdicts htracks e he with hold | hnew
    · obtain ⟨request, howns, hinterrupted⟩ := h.verdicts e hold failure hfailure
      exact ⟨request, howns.mono hall, hinterrupted.mono hall.environment⟩
    · obtain ⟨request, howns, hinterrupted⟩ := hnew failure hfailure
      exact ⟨request, howns.mono hall, hinterrupted.mono hall.environment⟩
  case views =>
    have hviews := (hacts.dispatches htracks d hd).elim (h.views d) And.left
    exact hviews.imp fun _ _ => Owns.mono hall
  case passed =>
    have hpassed := (hacts.dispatches htracks d hd).elim (h.passed d) And.right
    exact hall.preflights (hpassed id hid)
  case dispatchedOnce =>
    have hdispatched := hacts.dispatched htracks id
    have hbefore := h.dispatchedOnce id
    show (pool'.dispatches.flatMap Dispatch.jobs).count id ≤
      (pool'.retired ++ (before ++ worker' :: after).flatMap Worker.answered).count id
    rw [hworkers] at hbefore
    simp only [List.flatMap_append, List.flatMap_cons, List.count_append] at hdispatched hbefore ⊢
    omega
  case completions =>
    obtain ⟨request, howns, hjustified⟩ :=
      (hacts.completions htracks c hc).elim (h.completions c) id
    exact ⟨request, howns.mono hall, hjustified.mono hall⟩

/-- **Every step keeps the routing.** -/
theorem Routed.step (h : Routed pool) (hconsistent : Consistent options pool) {label : Label ρ}
    (hstep : pool.step options label = some pool') : Routed pool' := by
  have hmoves := moves_of_step hstep
  have hgrows := hmoves.grows
  cases hmoves with
  | reject rows => exact h.of_grows hgrows h.queued rfl rfl rfl rfl rfl
  | accept rows receiver hstopping hroom =>
    refine h.of_grows hgrows (fun job hjob => ?_) rfl rfl rfl rfl rfl
    rcases List.mem_append.1 hjob with hjob | hjob
    · exact (h.queued job hjob).mono hgrows
    · exact owns_newJobs pool rows receiver job hjob
  | surroundings hearlier hstopping => exact h.of_grows hgrows h.queued rfl rfl rfl rfl rfl
  | work hworkers hacts =>
    exact h.work hworkers hacts (hconsistent.covered _ (by rw [hworkers]; simp))

/-- A new pool has routed nothing. -/
theorem Routed.create {wrapped : Bool} {environment : Environment}
    (h : create wrapped options environment = .ok pool) : Routed pool := by
  unfold Pool.create at h
  split_ifs at h
  obtain rfl := Except.ok.inj h
  refine
    { queued := nofun
      turns := fun worker hworker => ?_
      checked := ?_
      verdicts := nofun
      views := nofun
      passed := nofun
      dispatchedOnce := fun id => Nat.zero_le _
      completions := nofun }
  · rw [List.eq_of_mem_replicate hworker]
    trivial
  · simp [Worker.checked]

/-- A reachable pool has routed everything. -/
theorem IsReachable.routed (h : IsReachable options pool) : Routed pool := by
  obtain ⟨wrapped, environment, pool₀, hcreate, hreachable⟩ := h
  have hboth : Consistent options pool ∧ Routed pool :=
    hreachable.invariant (I := fun p => Consistent options p ∧ Routed p)
      ⟨.create hcreate, .create hcreate⟩
      fun _ _ _ hI hstep => ⟨hI.1.step hstep, hI.2.step hI.1 hstep⟩
  exact hboth.2

end Pool

end Jevt
