import Jevt.Batching.Delivery
import Jevt.Batching.Routing
import Jevt.Batching.Waiting

/-!
# Completions on an executor

`asio_backend` of `include/jevt/asio.hpp`. An operation of `async_predict` copies its request at
once and is submitted to a pool when its token initiates it. The callback it leaves with the pool
posts the completion to an executor, and a thread of the executor runs the handler. If the pool
refuses the request, the callback is called by the thread that submits it.

`pool_` is shared. Handles and the operations that are under way own it: one that is prepared, and
one whose state is in a callback or in a posted completion. The last owner destroys the pool, and
the destructor joins the workers, so it must not run on one of them. `destroyedBy` is the thread on
which it runs.

The executor may run posted completions in any order and on any number of threads. It outlives the
operations, as the header demands, and counts the guards that they hold (`work`).
-/

namespace Jevt

open Library

variable {ρ : Type} {options : BatchingOptions}

/-- Where an operation is: prepared, given up before it was initiated, waiting for its job, refused
and not posted yet, posted, in its handler, or through with it. -/
inductive Stage (ρ : Type) where
  | prepared
  | abandoned
  | waiting
  | refused (response : Result ρ)
  | posted (response : Result ρ)
  | running (response : Result ρ)
  | delivered (response : Result ρ)

namespace Stage

/-- Whether the operation owns the pool. -/
def holdsPool : Stage ρ → Bool
  | .abandoned => false
  | .delivered _ => false
  | _ => true

/-- Whether the operation has a guard that keeps the executor at work. -/
def holdsWork : Stage ρ → Bool
  | .waiting => true
  | .refused _ => true
  | .posted _ => true
  | _ => false

/-- What the handler has been called with. -/
def handled : Stage ρ → Option (Result ρ)
  | .running response => some response
  | .delivered response => some response
  | _ => none

/-- The steps that are ahead of an operation, those of the pool apart. -/
def ahead : Stage ρ → Nat
  | .refused _ => 3
  | .waiting => 2
  | .posted _ => 2
  | .running _ => 1
  | _ => 0

/-- An operation that has been initiated. -/
def initiated : Stage ρ → Bool
  | .prepared => false
  | .abandoned => false
  | _ => true

end Stage

/-- `owned`, the job it has become, and where the operation is. -/
structure Operation (ρ : Type) where
  request : InferenceRequest
  job : Option Nat := none
  stage : Stage ρ := .prepared

/-- The callback of an operation, when its job is among the completed ones. -/
def Operation.notified (completions : List (Completion ρ)) (op : Operation ρ) : Operation ρ :=
  match op.stage, op.job with
  | .waiting, some job =>
    match completions.find? fun c => c.job = job with
    | some c => { op with stage := .posted c.response }
    | none => op
  | _, _ => op

/-- The threads that may release a reference to the pool. -/
inductive Releaser where
  | caller
  | executor
  | worker (index : Nat)
  deriving DecidableEq, Repr

/-- `asio_backend`, with the pool, the operations, and the calls of handlers. -/
structure AsioBackend (ρ : Type) where
  pool : Pool ρ
  handles : Nat := 1
  operations : List (Operation ρ) := []
  work : Nat := 0
  invoked : List (Nat × Result ρ) := []
  destroyedBy : Option Releaser := none

/-- The labels: `async_predict`, the initiation of an operation or its end without one, the thread
that submitted a refused request posts its completion, a worker acts, a thread of the executor calls
a handler and comes back from it, a handle is copied or goes away, and what else happens to the
pool. -/
inductive AsioLabel (ρ : Type) where
  | asyncPredict (request : InferenceRequest)
  | initiate (k : Nat)
  | abandon (k : Nat)
  | post (k : Nat)
  | work (index : Nat) (action : Pool.Action ρ)
  | invoke (k : Nat)
  | complete (k : Nat)
  | copy
  | drop
  | shutdown
  | advance (now : Int)
  | requestStop (source : Nat)

/-- The thread that takes a step. -/
def AsioLabel.thread : AsioLabel ρ → Releaser
  | .work index _ => .worker index
  | .invoke _ => .executor
  | .complete _ => .executor
  | _ => .caller

/-- The steps of the threads that have something to do. -/
def AsioLabel.ofThreads : AsioLabel ρ → Bool
  | .post _ => true
  | .work _ _ => true
  | .invoke _ => true
  | .complete _ => true
  | _ => false

/-- A label that gives the threads nothing to do. -/
def AsioLabel.isQuiet : AsioLabel ρ → Bool
  | .asyncPredict _ => false
  | .initiate _ => false
  | _ => true

/-- What happens to the pool from outside. -/
def AsioLabel.surroundings : AsioLabel ρ → Option (Pool.Label ρ)
  | .shutdown => some .shutdown
  | .advance now => some (.advance now)
  | .requestStop source => some (.requestStop source)
  | _ => none

/-- The request of a call of `async_predict`. -/
def AsioLabel.predicted : AsioLabel ρ → Option InferenceRequest
  | .asyncPredict request => some request
  | _ => none

namespace AsioBackend

/-- The constructor, once its pool has been made. -/
def start (pool : Pool ρ) : AsioBackend ρ := { pool }

/-- The owners of the pool. -/
def references (s : AsioBackend ρ) : Nat :=
  s.handles + s.operations.countP fun op => op.stage.holdsPool

/-- The end of a step: if no owner is left, the destructor of the pool runs on this thread. -/
def released (thread : Releaser) (s : AsioBackend ρ) : AsioBackend ρ :=
  if s.references = 0 ∧ s.destroyedBy = none then
    { s with destroyedBy := some thread, pool := { s.pool with stopping := true } }
  else s

/-- What a step does, apart from the destructor. -/
def act (options : BatchingOptions) (s : AsioBackend ρ) : AsioLabel ρ → Option (AsioBackend ρ)
  | .asyncPredict request =>
    if 0 < s.handles then some { s with operations := s.operations ++ [{ request }] } else none
  | .initiate k =>
    match s.operations[k]? with
    | some ⟨request, _, .prepared⟩ =>
      match s.pool.enqueueCallback options request true with
      | .ok (pool, some failure) => some { s with
          pool
          work := s.work + 1
          operations := s.operations.set k ⟨request, none, .refused (.error failure)⟩ }
      | .ok (pool, none) => some { s with
          pool
          work := s.work + 1
          operations := s.operations.set k ⟨request, some s.pool.admitted.length, .waiting⟩ }
      | .error _ => none
    | _ => none
  | .abandon k =>
    match s.operations[k]? with
    | some ⟨request, job, .prepared⟩ =>
      some { s with operations := s.operations.set k ⟨request, job, .abandoned⟩ }
    | _ => none
  | .post k =>
    match s.operations[k]? with
    | some ⟨request, job, .refused response⟩ =>
      some { s with operations := s.operations.set k ⟨request, job, .posted response⟩ }
    | _ => none
  | .work index action =>
    (s.pool.step options (.work index action)).map fun pool => { s with
      pool
      operations := s.operations.map
        (Operation.notified (pool.completions.drop s.pool.completions.length)) }
  | .invoke k =>
    match s.operations[k]? with
    | some ⟨request, job, .posted response⟩ => some { s with
        work := s.work - 1
        operations := s.operations.set k ⟨request, job, .running response⟩
        invoked := s.invoked ++ [(k, response)] }
    | _ => none
  | .complete k =>
    match s.operations[k]? with
    | some ⟨request, job, .running response⟩ =>
      some { s with operations := s.operations.set k ⟨request, job, .delivered response⟩ }
    | _ => none
  | .copy => if 0 < s.handles then some { s with handles := s.handles + 1 } else none
  | .drop => if 0 < s.handles then some { s with handles := s.handles - 1 } else none
  | .shutdown =>
    if 0 < s.handles then (s.pool.step options .shutdown).map fun pool => { s with pool } else none
  | .advance now => (s.pool.step options (.advance now)).map fun pool => { s with pool }
  | .requestStop source =>
    (s.pool.step options (.requestStop source)).map fun pool => { s with pool }

/-- One step. -/
def step (options : BatchingOptions) (s : AsioBackend ρ) (label : AsioLabel ρ) :
    Option (AsioBackend ρ) :=
  (s.act options label).map (released label.thread)

/-! ## What a step can do -/

variable {s s' : AsioBackend ρ}

/-- What a step does, apart from the destructor. -/
inductive Proceeds (options : BatchingOptions) (s : AsioBackend ρ) :
    AsioLabel ρ → AsioBackend ρ → Prop
  | asyncPredict {request : InferenceRequest} (hhandles : 0 < s.handles) :
    Proceeds options s (.asyncPredict request)
      { s with operations := s.operations ++ [{ request }] }
  | refuse {k : Nat} {op : Operation ρ} (hop : s.operations[k]? = some op)
      (hstage : op.stage = .prepared)
      (hstep : s.pool.step options (.enqueueCallback op.request true) = some (s.pool.reject 1)) :
    Proceeds options s (.initiate k) { s with
      pool := s.pool.reject 1
      work := s.work + 1
      operations := s.operations.set k
        ⟨op.request, none, .refused (.error (Pool.refusal s.pool.stopping))⟩ }
  | accept {k : Nat} {op : Operation ρ} (hop : s.operations[k]? = some op)
      (hstage : op.stage = .prepared)
      (hstep : s.pool.step options (.enqueueCallback op.request true) =
        some (s.pool.accept [op.request] .callback)) :
    Proceeds options s (.initiate k) { s with
      pool := s.pool.accept [op.request] .callback
      work := s.work + 1
      operations := s.operations.set k ⟨op.request, some s.pool.admitted.length, .waiting⟩ }
  | abandon {k : Nat} {op : Operation ρ} (hop : s.operations[k]? = some op)
      (hstage : op.stage = .prepared) :
    Proceeds options s (.abandon k)
      { s with operations := s.operations.set k { op with stage := .abandoned } }
  | post {k : Nat} {op : Operation ρ} {response : Result ρ} (hop : s.operations[k]? = some op)
      (hstage : op.stage = .refused response) :
    Proceeds options s (.post k)
      { s with operations := s.operations.set k { op with stage := .posted response } }
  | work {index : Nat} {action : Pool.Action ρ} {pool : Pool ρ}
      (hstep : s.pool.step options (.work index action) = some pool) :
    Proceeds options s (.work index action) { s with
      pool
      operations := s.operations.map
        (Operation.notified (pool.completions.drop s.pool.completions.length)) }
  | invoke {k : Nat} {op : Operation ρ} {response : Result ρ} (hop : s.operations[k]? = some op)
      (hstage : op.stage = .posted response) :
    Proceeds options s (.invoke k) { s with
      work := s.work - 1
      operations := s.operations.set k { op with stage := .running response }
      invoked := s.invoked ++ [(k, response)] }
  | complete {k : Nat} {op : Operation ρ} {response : Result ρ} (hop : s.operations[k]? = some op)
      (hstage : op.stage = .running response) :
    Proceeds options s (.complete k)
      { s with operations := s.operations.set k { op with stage := .delivered response } }
  | copy (hhandles : 0 < s.handles) :
    Proceeds options s .copy { s with handles := s.handles + 1 }
  | drop (hhandles : 0 < s.handles) :
    Proceeds options s .drop { s with handles := s.handles - 1 }
  | surroundings {label : AsioLabel ρ} {inner : Pool.Label ρ} {pool : Pool ρ}
      (hinner : label.surroundings = some inner) (hstep : s.pool.step options inner = some pool) :
    Proceeds options s label { s with pool }

/-- What `enqueue_callback` leaves behind is a step of the pool. -/
theorem step_enqueueCallback {pool pool' : Pool ρ} {request : InferenceRequest}
    {refused : Option Error}
    (h : pool.enqueueCallback options request true = .ok (pool', refused)) :
    pool.step options (.enqueueCallback request true) = some pool' := by
  unfold Pool.step
  dsimp only
  rw [h]

/-- A pool that is given a callback refuses the request or admits it. -/
theorem enqueueCallback_true (options : BatchingOptions) (pool : Pool ρ)
    (request : InferenceRequest) :
    pool.enqueueCallback options request true =
        .ok (pool.reject 1, some (Pool.refusal pool.stopping)) ∨
      pool.enqueueCallback options request true = .ok (pool.accept [request] .callback, none) := by
  unfold Pool.enqueueCallback
  rw [if_neg (by decide)]
  split_ifs
  · exact .inl rfl
  · exact .inr rfl

/-- The steps do what `Proceeds` says. -/
theorem proceeds_of_act {label : AsioLabel ρ} (h : s.act options label = some s') :
    Proceeds options s label s' := by
  cases label with
  | asyncPredict request =>
    unfold act at h
    dsimp only at h
    split_ifs at h with hhandles
    exact Option.some.inj h ▸ .asyncPredict hhandles
  | initiate k =>
    unfold act at h
    dsimp only at h
    split at h
    · next request job hop =>
      rcases enqueueCallback_true options s.pool request with henqueue | henqueue
      · rw [henqueue] at h
        exact Option.some.inj h ▸ .refuse hop rfl (step_enqueueCallback henqueue)
      · rw [henqueue] at h
        exact Option.some.inj h ▸ .accept hop rfl (step_enqueueCallback henqueue)
    · cases h
  | abandon k =>
    unfold act at h
    dsimp only at h
    split at h
    · next hop => exact Option.some.inj h ▸ .abandon hop rfl
    · cases h
  | post k =>
    unfold act at h
    dsimp only at h
    split at h
    · next hop => exact Option.some.inj h ▸ .post hop rfl
    · cases h
  | work index action =>
    obtain ⟨pool, hstep, rfl⟩ := Option.map_eq_some_iff.1 h
    exact .work hstep
  | invoke k =>
    unfold act at h
    dsimp only at h
    split at h
    · next hop => exact Option.some.inj h ▸ .invoke hop rfl
    · cases h
  | complete k =>
    unfold act at h
    dsimp only at h
    split at h
    · next hop => exact Option.some.inj h ▸ .complete hop rfl
    · cases h
  | copy =>
    unfold act at h
    dsimp only at h
    split_ifs at h with hhandles
    exact Option.some.inj h ▸ .copy hhandles
  | drop =>
    unfold act at h
    dsimp only at h
    split_ifs at h with hhandles
    exact Option.some.inj h ▸ .drop hhandles
  | shutdown =>
    unfold act at h
    dsimp only at h
    split_ifs at h
    obtain ⟨pool, hstep, rfl⟩ := Option.map_eq_some_iff.1 h
    exact .surroundings rfl hstep
  | advance now =>
    obtain ⟨pool, hstep, rfl⟩ := Option.map_eq_some_iff.1 h
    exact .surroundings rfl hstep
  | requestStop source =>
    unfold act at h
    obtain ⟨pool, hstep, rfl⟩ := Option.map_eq_some_iff.1 h
    exact .surroundings rfl hstep

/-- What happens to the pool from outside is no step of a thread and submits nothing. -/
theorem surroundings_quiet {label : AsioLabel ρ} {inner : Pool.Label ρ}
    (h : label.surroundings = some inner) : inner.isSubmission = false ∧
      label.ofThreads = false ∧ label.predicted = none ∧ label.thread = .caller := by
  cases label <;> cases h <;> exact ⟨rfl, rfl, rfl, rfl⟩

/-- What happens to the pool from outside completes and admits nothing. -/
theorem surroundings_same {label : AsioLabel ρ} {inner : Pool.Label ρ} {pool pool' : Pool ρ}
    (h : label.surroundings = some inner) (hstep : pool.step options inner = some pool') :
    pool'.completions = pool.completions ∧ pool'.admitted = pool.admitted ∧
      (pool.stopping = true → pool'.stopping = true) := by
  cases label with
  | shutdown =>
    obtain rfl := Option.some.inj h
    exact Option.some.inj hstep ▸ ⟨rfl, rfl, fun _ => rfl⟩
  | advance now =>
    obtain rfl := Option.some.inj h
    unfold Pool.step at hstep
    dsimp only at hstep
    split_ifs at hstep
    exact Option.some.inj hstep ▸ ⟨rfl, rfl, id⟩
  | requestStop source =>
    obtain rfl := Option.some.inj h
    exact Option.some.inj hstep ▸ ⟨rfl, rfl, id⟩
  | _ => cases h

/-! ## Operations and their jobs -/

end AsioBackend

namespace Operation

variable {pool pool' : Pool ρ} {op : Operation ρ}

/-- A response that the handler of an operation may be called with: the refusal of its request, or
what its job has been completed with. -/
def Answered (pool : Pool ρ) (op : Operation ρ) (response : Result ρ) : Prop :=
  (op.job = none ∧ ∃ stopping, response = .error (Pool.refusal stopping)) ∨
    ∃ c ∈ pool.completions, op.job = some c.job ∧ pool.Owns c.job op.request ∧
      response = c.response

/-- An operation fits the pool: it has a job that is its own request from its initiation on, unless
that has been refused, and it waits exactly until the job is completed. -/
def Fits (pool : Pool ρ) (op : Operation ρ) : Prop :=
  match op.stage with
  | .prepared => op.job = none
  | .abandoned => op.job = none
  | .waiting => ∃ job, op.job = some job ∧ pool.Owns job op.request ∧
      job ∉ pool.completions.map Completion.job
  | .refused response => op.job = none ∧ op.Answered pool response
  | .posted response => op.Answered pool response
  | .running response => op.Answered pool response
  | .delivered response => op.Answered pool response

/-- What an operation in a given stage fits with. -/
theorem Fits.stage (h : op.Fits pool) {stage : Stage ρ} (hstage : op.stage = stage) :
    ({ op with stage } : Operation ρ).Fits pool := by
  subst hstage
  exact h

/-- An answer stays one. -/
theorem Answered.mono {response : Result ρ} (h : op.Answered pool response)
    (hgrows : pool.Grows pool') (hcompletions : pool.completions ⊆ pool'.completions) :
    op.Answered pool' response := by
  rcases h with hrefused | ⟨c, hc, hjob, howns, hresponse⟩
  · exact .inl hrefused
  · exact .inr ⟨c, hcompletions hc, hjob, howns.mono hgrows, hresponse⟩

/-- An operation that does not wait fits the pool later on. -/
theorem Fits.mono (h : op.Fits pool) (hstage : op.stage ≠ .waiting) (hgrows : pool.Grows pool')
    (hcompletions : pool.completions ⊆ pool'.completions) : op.Fits pool' := by
  unfold Fits at h ⊢
  split at h
  · exact h
  · exact h
  · next hwaiting => exact absurd hwaiting hstage
  · exact ⟨h.1, h.2.mono hgrows hcompletions⟩
  · exact h.mono hgrows hcompletions
  · exact h.mono hgrows hcompletions
  · exact h.mono hgrows hcompletions

/-- An operation fits the pool as long as no job is completed. -/
theorem Fits.of_same (h : op.Fits pool) (hgrows : pool.Grows pool')
    (hcompletions : pool'.completions = pool.completions) : op.Fits pool' := by
  by_cases hstage : op.stage = .waiting
  · unfold Fits at h ⊢
    rw [hstage] at h ⊢
    obtain ⟨job, hjob, howns, hnot⟩ := h
    exact ⟨job, hjob, howns.mono hgrows, hcompletions ▸ hnot⟩
  · exact h.mono hstage hgrows (hcompletions ▸ List.Subset.refl _)

/-- The callback changes where its operation is, and nothing else. -/
theorem notified_fields (completions : List (Completion ρ)) (op : Operation ρ) :
    (op.notified completions).request = op.request ∧ (op.notified completions).job = op.job := by
  unfold notified
  split
  · split <;> exact ⟨rfl, rfl⟩
  · exact ⟨rfl, rfl⟩

/-- The callback leaves the counts of the stages alone. -/
theorem notified_stage {α : Type} (f : Stage ρ → α)
    (hf : ∀ response, f (.posted response) = f .waiting) (completions : List (Completion ρ))
    (op : Operation ρ) : f (op.notified completions).stage = f op.stage := by
  unfold notified
  split
  · next hstage hjob =>
    split
    · exact (hf _).trans (congrArg f hstage).symm
    · rfl
  · rfl

/-- The callbacks of new completions keep an operation fitting. -/
theorem Fits.notified (h : op.Fits pool) (hgrows : pool.Grows pool') {new : List (Completion ρ)}
    (hnew : pool'.completions = pool.completions ++ new) : (op.notified new).Fits pool' := by
  have hsubset : pool.completions ⊆ pool'.completions :=
    hnew ▸ List.subset_append_left _ _
  unfold Operation.notified
  split
  · next job hstage hjob =>
    unfold Fits at h
    rw [hstage] at h
    obtain ⟨job', hjob', howns, hnot⟩ := h
    obtain rfl : job' = job := Option.some.inj (hjob'.symm.trans hjob)
    split
    · next c hfind =>
      obtain rfl : c.job = job' := by simpa using List.find?_some hfind
      have hmem : c ∈ pool'.completions :=
        hnew ▸ List.mem_append_right _ (List.mem_of_find?_eq_some hfind)
      exact .inr ⟨c, hmem, hjob, howns.mono hgrows, rfl⟩
    · next hfind =>
      unfold Fits
      rw [hstage]
      refine ⟨job', hjob, howns.mono hgrows, fun hcompleted => ?_⟩
      rw [hnew, List.map_append, List.mem_append] at hcompleted
      rcases hcompleted with hold | hlater
      · exact hnot hold
      · obtain ⟨c, hc, rfl⟩ := List.mem_map.1 hlater
        exact absurd (List.find?_eq_none.1 hfind c hc) (by simp)
  · next hother =>
    refine h.mono (fun hstage => ?_) hgrows hsubset
    -- a waiting operation has a job
    unfold Fits at h
    rw [hstage] at h
    obtain ⟨job, hjob, -⟩ := h
    exact hother job hstage hjob

end Operation

/-- A worker completes jobs behind those that have been completed. -/
theorem Pool.completions_of_step {pool pool' : Pool ρ} {index : Nat} {action : Pool.Action ρ}
    (hstep : pool.step options (.work index action) = some pool') :
    pool'.completions =
      pool.completions ++ pool'.completions.drop pool.completions.length := by
  obtain ⟨before, worker, after, middle, worker', -, hacts, rfl⟩ := acts_of_step hstep
  cases hacts with
  | finish => exact (congrArg _ List.drop_left).symm
  | _ => exact (List.append_nil _).symm.trans (congrArg _ List.drop_length.symm)

/-- A worker admits nothing. -/
theorem Pool.admitted_of_step {pool pool' : Pool ρ} {index : Nat} {action : Pool.Action ρ}
    (hstep : pool.step options (.work index action) = some pool') :
    pool'.admitted = pool.admitted := by
  obtain ⟨before, worker, after, middle, worker', -, hacts, rfl⟩ := acts_of_step hstep
  exact hacts.frame.2.2.1

/-- A job that has been completed has been admitted. -/
theorem Pool.Consistent.completed_lt {pool : Pool ρ} (h : pool.Consistent options) {job : Nat}
    (hjob : job ∈ pool.completions.map Completion.job) : job < pool.admitted.length := by
  have hmem : job ∈ pool.queue.map Job.id ++ pool.workers.flatMap Worker.ids ++ pool.retired := by
    rcases List.mem_append.1 (h.logged.mem_iff.1 hjob) with hretired | hfinished
    · exact List.mem_append_right _ hretired
    · exact List.mem_append_left _
        (List.mem_append_right _ ((finished_sublist_ids _).subset hfinished))
  exact List.mem_range.1 (h.once.mem_iff.1 hmem)

namespace AsioBackend

variable {s s' : AsioBackend ρ}

/-! ## The invariant of the deliveries -/

/-- What the handler of the operation at an index has been called with. -/
def handled (operations : List (Operation ρ)) (k : Nat) : Option (Result ρ) :=
  operations[k]?.bind fun op => op.stage.handled

/-- The operations at every moment: the pool is one that its threads can produce; every admitted job
belongs to one operation; the operations fit the pool; the executor has a guard for each that is not
in its handler yet; and every handler has been called once, with the response of its operation. -/
structure Delivering (options : BatchingOptions) (s : AsioBackend ρ) : Prop where
  consistent : s.pool.Consistent options
  routed : s.pool.Routed
  jobs : (s.operations.filterMap Operation.job).Perm (List.range s.pool.admitted.length)
  fits : ∀ op ∈ s.operations, op.Fits s.pool
  work : s.work = s.operations.countP fun op => op.stage.holdsWork
  once : (s.invoked.map Prod.fst).Nodup
  invoked : ∀ k response, (k, response) ∈ s.invoked ↔ handled s.operations k = some response

/-- A counted list after one of its elements has been replaced. -/
theorem countP_replaced {α : Type} {p : α → Bool} {l : List α} {k : Nat} {a b : α}
    (h : l[k]? = some a) : (l.set k b).countP p + (if p a then 1 else 0) =
      l.countP p + if p b then 1 else 0 := by
  obtain ⟨before, after, rfl, hset⟩ := Pool.split_at_index h
  rw [hset, List.countP_append, List.countP_append, List.countP_cons, List.countP_cons]
  omega

/-- Replacing an operation changes what is handled at its index only. -/
theorem handled_set {operations : List (Operation ρ)} {k : Nat} {op op' : Operation ρ}
    (hop : operations[k]? = some op) (i : Nat) :
    handled (operations.set k op') i =
      if i = k then op'.stage.handled else handled operations i := by
  have hlt := (List.getElem?_eq_some_iff.1 hop).1
  unfold handled
  rw [List.getElem?_set]
  split_ifs with hki hik hik
  · rfl
  · exact absurd hki.symm hik
  · exact absurd hik.symm hki
  · rfl

/-- What is handled when the handler of an operation has not been called more often than before. -/
theorem handled_set_same {operations : List (Operation ρ)} {k : Nat} {op op' : Operation ρ}
    (hop : operations[k]? = some op) (hhandled : op'.stage.handled = op.stage.handled) (i : Nat) :
    handled (operations.set k op') i = handled operations i := by
  rw [handled_set hop]
  split_ifs with hik
  · rw [hik, handled, hop, hhandled]
    rfl
  · rfl

/-- The jobs of the operations when one of them keeps its own. -/
theorem jobs_set_same {operations : List (Operation ρ)} {k : Nat} {op op' : Operation ρ}
    (hop : operations[k]? = some op) (hjob : op'.job = op.job) :
    (operations.set k op').filterMap Operation.job = operations.filterMap Operation.job := by
  obtain ⟨before, after, rfl, hset⟩ := Pool.split_at_index hop
  rw [hset, List.filterMap_append, List.filterMap_append, List.filterMap_cons, List.filterMap_cons,
    hjob]

/-- An operation goes on, and the pool stays as it is. -/
theorem Delivering.move (h : Delivering options s) {k : Nat} {op op' : Operation ρ}
    (hop : s.operations[k]? = some op) (hjob : op'.job = op.job) (hfits : op'.Fits s.pool)
    (hwork : op'.stage.holdsWork = op.stage.holdsWork)
    (hhandled : op'.stage.handled = op.stage.handled) :
    Delivering options { s with operations := s.operations.set k op' } where
  consistent := h.consistent
  routed := h.routed
  jobs := (jobs_set_same hop hjob).symm ▸ h.jobs
  fits := fun o ho => (List.mem_or_eq_of_mem_set ho).elim (h.fits o) fun heq => heq ▸ hfits
  work := by
    have hcount := countP_replaced (p := fun o : Operation ρ => o.stage.holdsWork) (b := op') hop
    rw [hwork, ← h.work] at hcount
    exact (Nat.add_right_cancel hcount).symm
  once := h.once
  invoked := fun i response => by
    rw [handled_set_same hop hhandled]
    exact h.invoked i response

/-- An operation is initiated, and the pool admits or refuses it. -/
theorem Delivering.initiate (h : Delivering options s) {k : Nat} {op op' : Operation ρ}
    (hop : s.operations[k]? = some op) (hstage : op.stage = .prepared)
    (hwork : op'.stage.holdsWork = true) (hhandled : op'.stage.handled = none) {pool : Pool ρ}
    {label : Pool.Label ρ} (hstep : s.pool.step options label = some pool)
    (hcompletions : pool.completions = s.pool.completions) (hfits : op'.Fits pool)
    (hjobs : ((s.operations.set k op').filterMap Operation.job).Perm
      (List.range pool.admitted.length)) :
    Delivering options { s with
      pool, work := s.work + 1, operations := s.operations.set k op' } where
  consistent := h.consistent.step hstep
  routed := h.routed.step h.consistent hstep
  jobs := hjobs
  fits := fun o ho => (List.mem_or_eq_of_mem_set ho).elim
    (fun hmem => (h.fits o hmem).of_same (Pool.moves_of_step hstep).grows hcompletions)
    fun heq => heq ▸ hfits
  work := by
    have hcount := countP_replaced (p := fun o : Operation ρ => o.stage.holdsWork) (b := op') hop
    rw [hwork, hstage, ← h.work] at hcount
    exact hcount.symm
  once := h.once
  invoked := fun i response => by
    rw [handled_set_same hop (hhandled.trans (hstage ▸ rfl))]
    exact h.invoked i response

/-- A new operation has not come to its handler. -/
theorem handled_concat (operations : List (Operation ρ)) (request : InferenceRequest) (k : Nat) :
    handled (operations ++ [{ request : Operation ρ }]) k = handled operations k := by
  unfold handled
  rw [List.getElem?_append]
  split_ifs with hlt
  · rfl
  · rw [List.getElem?_eq_none (Nat.le_of_not_lt hlt)]
    cases hindex : k - operations.length with
    | zero => rfl
    | succ n => rfl

/-- A caller makes an operation. -/
theorem Delivering.asyncPredict (h : Delivering options s) (request : InferenceRequest) :
    Delivering options { s with operations := s.operations ++ [{ request }] } where
  consistent := h.consistent
  routed := h.routed
  jobs := by
    rw [List.filterMap_append]
    exact (List.append_nil _).symm ▸ h.jobs
  fits := fun o ho => by
    rcases List.mem_append.1 ho with hold | hnew
    · exact h.fits o hold
    · obtain rfl := List.mem_singleton.1 hnew
      rfl
  work := by
    rw [List.countP_append]
    exact h.work
  once := h.once
  invoked := fun i response => by
    rw [handled_concat]
    exact h.invoked i response

/-- The pool admits the request of an operation. -/
theorem Delivering.accept (h : Delivering options s) {k : Nat} {op : Operation ρ}
    (hop : s.operations[k]? = some op) (hstage : op.stage = .prepared)
    (hstep : s.pool.step options (.enqueueCallback op.request true) =
      some (s.pool.accept [op.request] .callback)) :
    Delivering options { s with
      pool := s.pool.accept [op.request] .callback
      work := s.work + 1
      operations := s.operations.set k ⟨op.request, some s.pool.admitted.length, .waiting⟩ } := by
  have hjob : op.job = none := (h.fits op (List.mem_of_getElem? hop)).stage hstage
  refine h.initiate hop hstage rfl rfl hstep rfl ⟨_, rfl, ?_, fun hcompleted => ?_⟩ ?_
  · exact List.getElem?_concat_length
  · -- a job that is new has not been completed
    have hlogged := h.consistent.completed_lt hcompleted
    exact absurd hlogged (Nat.lt_irrefl _)
  · obtain ⟨before, after, hsplit, hset⟩ := Pool.split_at_index hop
    have hjobs := h.jobs
    rw [hsplit, List.filterMap_append, List.filterMap_cons, hjob] at hjobs
    rw [hset, List.filterMap_append, List.filterMap_cons]
    show (_ ++ s.pool.admitted.length :: _).Perm
      (List.range (s.pool.admitted ++ [op.request]).length)
    rw [List.length_append, List.length_singleton, List.range_succ]
    exact List.perm_middle.trans
      ((hjobs.cons _).trans (List.perm_append_singleton _ _).symm)

/-- The pool takes a step in which it completes nothing. -/
theorem Delivering.surroundings (h : Delivering options s) {pool : Pool ρ} {label : Pool.Label ρ}
    (hstep : s.pool.step options label = some pool)
    (hcompletions : pool.completions = s.pool.completions)
    (hadmitted : pool.admitted = s.pool.admitted) :
    Delivering options { s with pool } where
  consistent := h.consistent.step hstep
  routed := h.routed.step h.consistent hstep
  jobs := hadmitted.symm ▸ h.jobs
  fits := fun o ho => (h.fits o ho).of_same (Pool.moves_of_step hstep).grows hcompletions
  work := h.work
  once := h.once
  invoked := h.invoked

/-- A worker acts: the operations whose jobs it completes are posted. -/
theorem Delivering.workers (h : Delivering options s) {index : Nat} {action : Pool.Action ρ}
    {pool : Pool ρ} (hstep : s.pool.step options (.work index action) = some pool) :
    Delivering options { s with
      pool
      operations := s.operations.map
        (Operation.notified (pool.completions.drop s.pool.completions.length)) } where
  consistent := h.consistent.step hstep
  routed := h.routed.step h.consistent hstep
  jobs := by
    have hjobs : ∀ new, Operation.job ∘ Operation.notified new =
        (Operation.job : Operation ρ → Option Nat) :=
      fun new => funext fun op => (Operation.notified_fields new op).2
    rw [List.filterMap_map, hjobs]
    exact (Pool.admitted_of_step hstep).symm ▸ h.jobs
  fits := fun o ho => by
    obtain ⟨op, hop, rfl⟩ := List.mem_map.1 ho
    exact (h.fits op hop).notified (Pool.moves_of_step hstep).grows
      (Pool.completions_of_step hstep)
  work := by
    have hholds : (fun op : Operation ρ => op.stage.holdsWork) ∘
        Operation.notified (pool.completions.drop s.pool.completions.length) =
          fun op => op.stage.holdsWork :=
      funext fun op => Operation.notified_stage Stage.holdsWork (fun _ => rfl) _ op
    rw [List.countP_map, hholds]
    exact h.work
  once := h.once
  invoked := fun i response => by
    have hsame : handled (s.operations.map
        (Operation.notified (pool.completions.drop s.pool.completions.length))) i =
          handled s.operations i := by
      unfold handled
      rw [List.getElem?_map]
      cases s.operations[i]? with
      | none => rfl
      | some op => exact Operation.notified_stage Stage.handled (fun _ => rfl) _ op
    rw [hsame]
    exact h.invoked i response

/-- A thread of the executor calls the handler of a posted operation. -/
theorem Delivering.invoke (h : Delivering options s) {k : Nat} {op : Operation ρ}
    {response : Result ρ} (hop : s.operations[k]? = some op)
    (hstage : op.stage = .posted response) :
    Delivering options { s with
      work := s.work - 1
      operations := s.operations.set k { op with stage := .running response }
      invoked := s.invoked ++ [(k, response)] } where
  consistent := h.consistent
  routed := h.routed
  jobs := by
    have hjobs : (s.operations.set k { op with stage := .running response }).filterMap
        Operation.job = s.operations.filterMap Operation.job := jobs_set_same hop rfl
    exact hjobs.symm ▸ h.jobs
  fits := fun o ho => by
    have hfits := (h.fits op (List.mem_of_getElem? hop)).stage hstage
    rcases List.mem_or_eq_of_mem_set ho with hmem | rfl
    · exact h.fits o hmem
    · exact hfits
  work := by
    have hcount := countP_replaced (p := fun o : Operation ρ => o.stage.holdsWork)
      (b := { op with stage := .running response }) hop
    rw [hstage, ← h.work] at hcount
    exact (Nat.sub_eq_of_eq_add hcount.symm)
  once := by
    have hnew : k ∉ s.invoked.map Prod.fst := fun hmem => by
      obtain ⟨⟨i, response'⟩, hinvoked, rfl⟩ := List.mem_map.1 hmem
      have hhandled := (h.invoked i response').1 hinvoked
      rw [handled, hop, Option.bind_some, hstage] at hhandled
      cases hhandled
    rw [List.map_append, List.nodup_append]
    refine ⟨h.once, List.nodup_singleton _, fun i hi j hj heq => hnew ?_⟩
    obtain rfl := List.mem_singleton.1 hj
    exact heq ▸ hi
  invoked := fun i response' => by
    rw [handled_set hop, List.mem_append, List.mem_singleton, Prod.mk.injEq, h.invoked]
    split_ifs with hik
    · have hnone : handled s.operations i = none := by
        rw [hik, handled, hop, Option.bind_some, hstage]
        rfl
      rw [hnone]
      constructor
      · rintro (hsome | ⟨-, rfl⟩)
        · cases hsome
        · rfl
      · intro heq
        exact .inr ⟨hik, (Option.some.inj heq).symm⟩
    · exact or_iff_left fun heq => hik heq.1

/-- **Every step keeps the deliveries.** -/
theorem Delivering.act (h : Delivering options s) {label : AsioLabel ρ}
    (hact : s.act options label = some s') : Delivering options s' := by
  cases proceeds_of_act hact with
  | asyncPredict hhandles => exact h.asyncPredict _
  | refuse hop hstage hstep =>
    have hjob : Operation.job _ = none := (h.fits _ (List.mem_of_getElem? hop)).stage hstage
    refine h.initiate hop hstage rfl rfl hstep rfl ⟨rfl, .inl ⟨rfl, _, rfl⟩⟩ ?_
    rw [jobs_set_same hop hjob.symm]
    exact h.jobs
  | accept hop hstage hstep => exact h.accept hop hstage hstep
  | abandon hop hstage =>
    have hfits := (h.fits _ (List.mem_of_getElem? hop)).stage hstage
    exact h.move hop rfl hfits (hstage ▸ rfl) (hstage ▸ rfl)
  | post hop hstage =>
    have hfits := (h.fits _ (List.mem_of_getElem? hop)).stage hstage
    exact h.move hop rfl hfits.2 (hstage ▸ rfl) (hstage ▸ rfl)
  | work hstep => exact h.workers hstep
  | invoke hop hstage => exact h.invoke hop hstage
  | complete hop hstage =>
    have hfits := (h.fits _ (List.mem_of_getElem? hop)).stage hstage
    exact h.move hop rfl hfits (hstage ▸ rfl) (hstage ▸ rfl)
  | copy hhandles => exact { h with }
  | drop hhandles => exact { h with }
  | surroundings hinner hstep =>
    obtain ⟨hcompletions, hadmitted, -⟩ := surroundings_same hinner hstep
    exact h.surroundings hstep hcompletions hadmitted

/-- The destructor keeps the deliveries. -/
theorem Delivering.released (h : Delivering options s) (thread : Releaser) :
    Delivering options (s.released thread) := by
  unfold AsioBackend.released
  split_ifs
  · have hshutdown : s.pool.step options .shutdown = some { s.pool with stopping := true } := rfl
    have hstop := h.surroundings hshutdown rfl rfl
    exact { hstop with }
  · exact h

/-- A step is what the thread does and, possibly, the destructor. -/
theorem exists_act {label : AsioLabel ρ} (h : s.step options label = some s') :
    ∃ a, s.act options label = some a ∧ s' = released label.thread a := by
  obtain ⟨a, hact, rfl⟩ := Option.map_eq_some_iff.1 h
  exact ⟨a, hact, rfl⟩

/-- **Every step keeps the deliveries.** -/
theorem Delivering.step (h : Delivering options s) {label : AsioLabel ρ}
    (hstep : s.step options label = some s') : Delivering options s' := by
  obtain ⟨a, hact, rfl⟩ := exists_act hstep
  exact (h.act hact).released label.thread

/-- Nothing has been delivered in the beginning. -/
theorem Delivering.start {wrapped : Bool} {environment : Environment} {pool : Pool ρ}
    (hcreate : Pool.create wrapped options environment = .ok pool) :
    Delivering options (AsioBackend.start pool) where
  consistent := .create hcreate
  routed := .create hcreate
  jobs := by
    have hadmitted : pool.admitted = [] := by
      unfold Pool.create at hcreate
      split_ifs at hcreate
      exact Except.ok.inj hcreate ▸ rfl
    show List.Perm [] (List.range pool.admitted.length)
    rw [hadmitted]
    exact .nil
  fits := fun op hop => absurd hop List.not_mem_nil
  work := rfl
  once := .nil
  invoked := fun k response => by
    have hnone : handled ([] : List (Operation ρ)) k = none := rfl
    show (k, response) ∈ [] ↔ handled [] k = some response
    simp [hnone]

/-! ## The requests -/

/-- The destructor leaves the operations alone. -/
theorem released_operations (thread : Releaser) (s : AsioBackend ρ) :
    (s.released thread).operations = s.operations := by
  unfold released
  split_ifs <;> rfl

/-- Replacing an operation by one with the same request. -/
theorem requests_set {operations : List (Operation ρ)} {k : Nat} {op op' : Operation ρ}
    (hop : operations[k]? = some op) (hrequest : op'.request = op.request) :
    (operations.set k op').map Operation.request = operations.map Operation.request := by
  obtain ⟨before, after, rfl, hset⟩ := Pool.split_at_index hop
  rw [hset, List.map_append, List.map_append, List.map_cons, List.map_cons, hrequest]

/-- A step adds the request of a call of `async_predict` and changes none. -/
theorem requests_of_act {label : AsioLabel ρ} (hact : s.act options label = some s') :
    s'.operations.map Operation.request =
      s.operations.map Operation.request ++ label.predicted.toList := by
  cases proceeds_of_act hact with
  | asyncPredict hhandles => exact List.map_append
  | refuse hop => exact (requests_set hop (by rfl)).trans (List.append_nil _).symm
  | accept hop => exact (requests_set hop (by rfl)).trans (List.append_nil _).symm
  | abandon hop => exact (requests_set hop (by rfl)).trans (List.append_nil _).symm
  | post hop => exact (requests_set hop (by rfl)).trans (List.append_nil _).symm
  | work hstep =>
    rw [List.map_map]
    exact (List.map_congr_left fun op _ => (Operation.notified_fields _ op).1).trans
      (List.append_nil _).symm
  | invoke hop => exact (requests_set hop (by rfl)).trans (List.append_nil _).symm
  | complete hop => exact (requests_set hop (by rfl)).trans (List.append_nil _).symm
  | copy => exact (List.append_nil _).symm
  | drop => exact (List.append_nil _).symm
  | surroundings hinner =>
    rw [(surroundings_quiet hinner).2.2.1]
    exact (List.append_nil _).symm

/-- The operations of a run have the requests that `async_predict` was called with. -/
theorem requests_of_run {labels : List (AsioLabel ρ)} (hrun : Run (step options) s labels s') :
    s'.operations.map Operation.request =
      s.operations.map Operation.request ++ labels.filterMap AsioLabel.predicted := by
  induction labels generalizing s with
  | nil =>
    obtain rfl := Run.nil_iff.1 hrun
    exact (List.append_nil _).symm
  | cons label labels ih =>
    obtain ⟨middle, hstep, hrest⟩ := Run.cons_iff.1 hrun
    obtain ⟨a, hact, rfl⟩ := exists_act hstep
    rw [ih hrest, released_operations, requests_of_act hact, List.append_assoc]
    cases hpredicted : label.predicted with
    | none => rw [List.filterMap_cons_none hpredicted]; rfl
    | some request => rw [List.filterMap_cons_some hpredicted]; rfl

/-! ## Progress -/

/-- The steps that the threads can take before they get new work. -/
def effort (s : AsioBackend ρ) : Nat :=
  s.pool.remaining + (s.operations.map fun op => op.stage.ahead).sum

/-- A sum over a list after one of its elements has been replaced. -/
theorem sum_replaced {α : Type} {f : α → Nat} {l : List α} {k : Nat} {a b : α}
    (h : l[k]? = some a) : ((l.set k b).map f).sum + f a = (l.map f).sum + f b := by
  obtain ⟨before, after, rfl, hset⟩ := Pool.split_at_index h
  rw [hset, List.map_append, List.map_append, List.map_cons, List.map_cons, List.sum_append,
    List.sum_append, List.sum_cons, List.sum_cons]
  omega

/-- The steps of the threads lower what is ahead, and the others do not raise it. -/
theorem effort_of_act (hroom : 0 < options.maxBatchSize) {label : AsioLabel ρ}
    (hquiet : label.isQuiet = true) (hact : s.act options label = some s') :
    (if label.ofThreads then 1 else 0) + s'.effort ≤ s.effort := by
  -- an operation that has come closer to its end
  have hcloser : ∀ {k : Nat} {op : Operation ρ} {stage : Stage ρ}, s.operations[k]? = some op →
      stage.ahead + 1 = op.stage.ahead →
      1 + (s.pool.remaining +
        ((s.operations.set k { op with stage }).map fun o => o.stage.ahead).sum) ≤ s.effort := by
    intro k op stage hop hahead
    have hsum := sum_replaced (f := fun o : Operation ρ => o.stage.ahead)
      (b := { op with stage }) hop
    dsimp only at hsum
    unfold effort
    omega
  cases proceeds_of_act hact with
  | asyncPredict => cases hquiet
  | refuse => cases hquiet
  | accept => cases hquiet
  | abandon hop hstage =>
    rename_i k op
    have hsum := sum_replaced (f := fun o : Operation ρ => o.stage.ahead)
      (b := { op with stage := .abandoned }) hop
    rw [hstage] at hsum
    exact (Nat.zero_add _).trans_le (Nat.add_le_add_left hsum.le _)
  | post hop hstage => exact hcloser hop (hstage ▸ rfl)
  | work hstep =>
    have hlt := Pool.remaining_of_step hroom rfl hstep
    have hsame : ∀ new, (fun op : Operation ρ => op.stage.ahead) ∘ Operation.notified new =
        fun op => op.stage.ahead :=
      fun new => funext fun op => Operation.notified_stage Stage.ahead (fun _ => rfl) new op
    show 1 + (_ + _) ≤ _
    rw [List.map_map, hsame, ← Nat.add_assoc]
    exact Nat.add_le_add_right hlt _
  | invoke hop hstage => exact hcloser hop (hstage ▸ rfl)
  | complete hop hstage => exact hcloser hop (hstage ▸ rfl)
  | copy => exact (Nat.zero_add _).le
  | drop => exact (Nat.zero_add _).le
  | surroundings hinner hstep =>
    rw [(surroundings_quiet hinner).2.1]
    have hle := Pool.remaining_of_step hroom (surroundings_quiet hinner).1 hstep
    have hle' : Pool.remaining _ ≤ s.pool.remaining := (Nat.le_add_left _ _).trans hle
    exact (Nat.zero_add _).trans_le (Nat.add_le_add_right hle' _)

/-- The destructor leaves what is ahead alone. -/
theorem effort_released (thread : Releaser) (s : AsioBackend ρ) :
    (s.released thread).effort = s.effort := by
  unfold released
  split_ifs <;> rfl

/-- **Without new work the threads take a bounded number of steps.** -/
theorem steps_le_effort (hroom : 0 < options.maxBatchSize) {labels : List (AsioLabel ρ)}
    (hquiet : ∀ label ∈ labels, label.isQuiet = true) (hrun : Run (step options) s labels s') :
    labels.countP AsioLabel.ofThreads + s'.effort ≤ s.effort := by
  induction labels generalizing s with
  | nil =>
    obtain rfl := Run.nil_iff.1 hrun
    exact (Nat.zero_add _).le
  | cons label labels ih =>
    obtain ⟨hlabel, hlabels⟩ := List.forall_mem_cons.1 hquiet
    obtain ⟨middle, hstep, hrest⟩ := Run.cons_iff.1 hrun
    obtain ⟨a, hact, rfl⟩ := exists_act hstep
    have hfirst := effort_of_act hroom hlabel hact
    have hlater := ih hlabels hrest
    rw [effort_released] at hlater
    rw [List.countP_cons]
    omega

/-- The operations and their pool at another time. -/
def later (s : AsioBackend ρ) (now : Int) : AsioBackend ρ :=
  { s with pool := { s.pool with environment := { s.pool.environment with now } } }

/-- No thread can take a step, however late it is and whatever the wrapped backend answers. -/
def AtRest (options : BatchingOptions) (s : AsioBackend ρ) : Prop :=
  ∀ now, s.pool.environment.now ≤ now → ∀ label, label.ofThreads = true →
    (s.later now).act options label = none

/-- The pool of operations at rest has nothing left to do. -/
theorem AtRest.settled (hrest : AtRest options s) (h : Delivering options s)
    (hworkers : 0 < options.workerCount) : ¬s.pool.HasWork ∧
      ∀ worker ∈ s.pool.workers, worker = if s.pool.stopping then .exited else .idle := by
  refine h.consistent.settled hworkers fun now hnow worker hmem action => ?_
  obtain ⟨index, hindex⟩ := List.mem_iff_getElem?.1 hmem
  by_contra hact
  obtain ⟨⟨pool', worker'⟩, hact⟩ := Option.ne_none_iff_exists'.1 hact
  have hindex' : (s.later now).pool.workers[index]? = some worker := hindex
  obtain ⟨before, after, -, hstep⟩ := Pool.step_work hindex' hact
  have hnone := hrest now hnow (.work index action) rfl
  unfold act at hnone
  rw [Option.map_eq_none_iff, hstep] at hnone
  cases hnone

/-- **The threads come to rest only when every operation that was initiated has been delivered.** -/
theorem AtRest.delivered (hrest : AtRest options s) (h : Delivering options s)
    (hworkers : 0 < options.workerCount) {k : Nat} {op : Operation ρ}
    (hop : s.operations[k]? = some op) (hinitiated : op.stage.initiated = true) :
    ∃ response, op.stage = .delivered response := by
  have hact := hrest _ le_rfl
  have hop' : (s.later s.pool.environment.now).operations[k]? = some op := hop
  obtain ⟨request, job, stage⟩ := op
  cases stage with
  | prepared => cases hinitiated
  | abandoned => cases hinitiated
  | waiting =>
    obtain ⟨job', -, howns, hnot⟩ := h.fits _ (List.mem_of_getElem? hop)
    obtain ⟨-, hcompleted⟩ := h.consistent.all_completed (hrest.settled h hworkers).1
    have hlt := (List.getElem?_eq_some_iff.1 howns).1
    exact absurd (hcompleted.mem_iff.2 (List.mem_range.2 hlt)) hnot
  | refused response =>
    have hnone := hact (.post k) rfl
    simp [act, hop'] at hnone
  | posted response =>
    have hnone := hact (.invoke k) rfl
    simp [act, hop'] at hnone
  | running response =>
    have hnone := hact (.complete k) rfl
    simp [act, hop'] at hnone
  | delivered response => exact ⟨response, rfl⟩

/-- **Every handler runs once, with the response of its own request.** For every accepted
configuration and every run, however callers, workers and threads of the executor interleave: the
operations have the requests `async_predict` was called with, and different jobs; a handler is
called at most once, with the refusal of its request or with what the pool justifies for its job;
the executor has a guard as long as an operation has not come to its handler; without new operations
the threads take a bounded number of steps, and they come to rest only when the handler of every
operation that was initiated has been called. -/
theorem handlers_run_once {wrapped : Bool} {environment : Environment} {pool : Pool ρ}
    (hcreate : Pool.create wrapped options environment = .ok pool)
    {labels : List (AsioLabel ρ)} (hrun : Run (step options) (start pool) labels s) :
    s.operations.map Operation.request = labels.filterMap AsioLabel.predicted ∧
      (s.operations.filterMap Operation.job).Nodup ∧
      (s.invoked.map Prod.fst).Nodup ∧
      (∀ k response, (k, response) ∈ s.invoked → ∃ op, s.operations[k]? = some op ∧
        ((∃ stopping, response = .error (Pool.refusal stopping)) ∨
          ∃ job, op.job = some job ∧ s.pool.Justified job op.request response)) ∧
      (s.work = 0 → ∀ op ∈ s.operations, op.stage.holdsWork = false) ∧
      (∀ after s', (∀ label ∈ after, label.isQuiet = true) → Run (step options) s after s' →
        after.countP AsioLabel.ofThreads + s'.effort ≤ s.effort) ∧
      (AtRest options s → ∀ k op, s.operations[k]? = some op → op.stage.initiated = true →
        ∃ response, (k, response) ∈ s.invoked) := by
  obtain ⟨hworkers, hroom⟩ := Pool.configured_of_create hcreate
  have h : Delivering options s :=
    Reachable.invariant (.start hcreate) (fun _ _ _ h hstep => h.step hstep) ⟨labels, hrun⟩
  refine ⟨requests_of_run hrun, h.jobs.nodup_iff.2 List.nodup_range, h.once,
    fun k response hinvoked => ?_, fun hwork op hop => ?_,
    fun after s' hquiet hafter => steps_le_effort hroom hquiet hafter,
    fun hrest k op hop hinitiated => ?_⟩
  · have hhandled := (h.invoked k response).1 hinvoked
    obtain ⟨op, hop, hstage⟩ := Option.bind_eq_some_iff.1 hhandled
    refine ⟨op, hop, ?_⟩
    have hanswered : op.Answered s.pool response := by
      have hfits := h.fits op (List.mem_of_getElem? hop)
      unfold Operation.Fits at hfits
      unfold Stage.handled at hstage
      split at hstage
      · next hrunning => rw [hrunning] at hfits; exact Option.some.inj hstage ▸ hfits
      · next hdelivered => rw [hdelivered] at hfits; exact Option.some.inj hstage ▸ hfits
      · cases hstage
    rcases hanswered with ⟨-, hrefused⟩ | ⟨c, hc, hjob, howns, rfl⟩
    · exact .inl hrefused
    · obtain ⟨request, howns', hjustified⟩ := h.routed.completions c hc
      obtain rfl : request = op.request := Option.some.inj (howns'.symm.trans howns)
      exact .inr ⟨c.job, hjob, hjustified⟩
  · have hnone := List.countP_eq_zero.1 (h.work.symm.trans hwork) op hop
    exact Bool.eq_false_of_not_eq_true hnone
  · obtain ⟨response, hdelivered⟩ := hrest.delivered h hworkers hop hinitiated
    refine ⟨response, (h.invoked k response).2 ?_⟩
    rw [handled, hop, Option.bind_some, hdelivered]
    rfl

/-- Two operations, the second of which finds the queue full, until the worker has answered the
first. -/
def quotes : List (AsioLabel Nat) :=
  [.asyncPredict {}, .initiate 0, .asyncPredict {}, .initiate 1, .work 0 .wake, .post 1,
    .work 0 .extract, .work 0 .check, .work 0 .call, .work 0 (.answer (.responses [7])), .invoke 1,
    .work 0 .finish, .invoke 0, .complete 0]

/-- Both handlers have been called, the second one first. -/
theorem handlers_run_once_quotes : ∃ s : AsioBackend Nat,
    s.invoked = [(1, .error (Pool.refusal false)), (0, .ok 7)] ∧
      (s.invoked.map Prod.fst).Nodup ∧ s.operations.map Operation.request = [{}, {}] := by
  obtain ⟨pool, s, hcreate, hrun, hinvoked⟩ :
      ∃ (pool : Pool Nat) (s : AsioBackend Nat),
        Pool.create true { queueCapacity := 1, maxBatchSize := 1 } { now := 0 } = .ok pool ∧
        Run (step { queueCapacity := 1, maxBatchSize := 1 }) (start pool) quotes s ∧
        s.invoked = [(1, .error (Pool.refusal false)), (0, .ok 7)] :=
    ⟨_, _, rfl, rfl, rfl⟩
  obtain ⟨hrequests, -, honce, -⟩ := handlers_run_once hcreate hrun
  exact ⟨s, hinvoked, honce, hrequests⟩

end AsioBackend

end Jevt
