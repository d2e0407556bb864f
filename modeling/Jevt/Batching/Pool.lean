import Jevt.Core.Request

/-!
# The batching pool

`batching_backend` of `src/batching.cpp` as a machine. Callers admit requests into a bounded queue,
and workers take them out in batches, hand the ones that can still be answered to the wrapped
backend, and complete every one of them. A step is what a thread does while it holds the mutex, or
one thing a worker does to its own batch without it; a label says which thread moves, and carries
what the wrapped backend answers and how the time passes. Memory is never short. What a worker calls
on its own pool and the code refuses at once, `predict`, `predict_batch` and `shutdown`, is no step.

The identity of a job is the number of jobs admitted before it, so a pointer to a job is its number.
The state also keeps a history that the code does not: what was admitted, what each preflight found,
what was passed to the wrapped backend, and what the promises and callbacks were completed with.
-/

namespace Jevt

/-! ## The parts of a pool -/

/-- `batching_options`. The delay is in microseconds. -/
structure BatchingOptions where
  workerCount : Nat := 1
  queueCapacity : Nat := 256
  maxBatchSize : Nat := 16
  maxDelay : Int := 1000
  lengthBucketWidth : Nat := 0
  deriving DecidableEq, Repr

/-- `batching_stats`. -/
structure BatchingStats where
  queued : Nat := 0
  inFlight : Nat := 0
  accepted : Nat := 0
  rejected : Nat := 0
  completed : Nat := 0
  batches : Nat := 0
  deriving DecidableEq, Repr

/-- Who waits for a job: the future of its promise, or the callback it was submitted with. -/
inductive Receiver where
  | promise
  | callback
  deriving DecidableEq, Repr

/-- `impl::job`. -/
structure Job where
  id : Nat
  request : InferenceRequest
  bytes : Nat
  arrival : Int
  receiver : Receiver
  finished : Bool := false
  deriving DecidableEq, Repr

/-- A promise that is set, or a callback that is called. -/
structure Completion (ρ : Type) where
  job : Nat
  receiver : Receiver
  response : Result ρ

/-- How the call of the wrapped backend ends. -/
inductive Answer (ρ : Type) where
  | failure (e : Error)
  | responses (rs : List ρ)
  | stdException (what : Bytes)
  | otherException

/-- A call of the wrapped backend: the active jobs, the requests it was passed, and its end. -/
structure Dispatch (ρ : Type) where
  jobs : List Nat
  views : List InferenceRequest
  answer : Answer ρ

/-- Where a worker is with its batch: in the loop of the preflights, in the call of the wrapped
backend, or behind it. -/
inductive Phase where
  | preflight
  | calling
  | answered
  deriving DecidableEq, Repr

/-- The variables of a worker that has a batch. `next` is the position of the preflight loop, and
`pending` are the calls of `finish` that are ahead. -/
structure Turn (ρ : Type) where
  batch : List Job
  next : Nat := 0
  views : List InferenceRequest := []
  active : List Nat := []
  phase : Phase := .preflight
  pending : List (Nat × Result ρ) := []

/-- A worker: before its first wait, in its second wait, with a batch, or gone. -/
inductive Worker (ρ : Type) where
  | idle
  | waiting (deadline : Int)
  | running (turn : Turn ρ)
  | exited

/-- The batch of a worker. -/
def Worker.batch {ρ : Type} : Worker ρ → List Job
  | .running turn => turn.batch
  | _ => []

/-- `impl`, with what its threads see and its history. -/
structure Pool (ρ : Type) where
  environment : Environment
  queue : List Job := []
  workers : List (Worker ρ)
  counters : BatchingStats := {}
  stopping : Bool := false
  presented : Nat := 0
  admitted : List InferenceRequest := []
  preflights : List (Nat × Option Error) := []
  dispatches : List (Dispatch ρ) := []
  completions : List (Completion ρ) := []
  retired : List Nat := []

namespace Pool

variable {ρ : Type}

/-- The constructor. The wrapped backend may be missing. -/
def create (wrapped : Bool) (options : BatchingOptions) (environment : Environment) :
    Except StdException (Pool ρ) :=
  if wrapped = false ∨ options.workerCount = 0 ∨ options.queueCapacity = 0 ∨
      options.maxBatchSize = 0 ∨ options.maxDelay < 0 then
    .error (.invalidArgument (lit "invalid batching backend configuration"))
  else .ok { environment, workers := List.replicate options.workerCount .idle }

/-- `stats`. -/
def stats (pool : Pool ρ) : BatchingStats :=
  { pool.counters with queued := pool.queue.length }

/-! ## Admission -/

/-- A future: it is ready at once when its request is refused, and waits for a job otherwise. -/
inductive Future (ρ : Type) where
  | ready (response : Result ρ)
  | job (id : Nat)

/-- `future::get`, when it does not block. -/
def Future.get (pool : Pool ρ) : Future ρ → Option (Result ρ)
  | .ready response => some response
  | .job id => (pool.completions.find? fun c => c.job = id).map Completion.response

/-- The error of a request that is refused. -/
def refusal (stopping : Bool) : Error :=
  { code := if stopping then .shuttingDown else .overloaded
    message := if stopping then lit "batching backend is shutting down"
      else lit "batching backend queue is full" }

/-- The pool refuses some rows. -/
def reject (pool : Pool ρ) (rows : Nat) : Pool ρ :=
  { pool with
    counters := { pool.counters with rejected := pool.counters.rejected + rows }
    presented := pool.presented + rows }

/-- The jobs of some rows. -/
def newJobs (pool : Pool ρ) (rows : List InferenceRequest) (receiver : Receiver) : List Job :=
  (rows.zipIdx pool.admitted.length).map fun row =>
    { id := row.2
      request := row.1
      bytes := row.1.bytes
      arrival := pool.environment.now
      receiver }

/-- The pool admits some rows. -/
def accept (pool : Pool ρ) (rows : List InferenceRequest) (receiver : Receiver) : Pool ρ :=
  { pool with
    queue := pool.queue ++ pool.newJobs rows receiver
    counters := { pool.counters with accepted := pool.counters.accepted + rows.length }
    presented := pool.presented + rows.length
    admitted := pool.admitted ++ rows }

/-- `impl::enqueue`. -/
def enqueue (options : BatchingOptions) (pool : Pool ρ) (rows : List InferenceRequest) :
    Pool ρ × List (Future ρ) :=
  if pool.stopping = true ∨ rows.length > sizeSub options.queueCapacity pool.queue.length then
    (pool.reject rows.length, rows.map fun _ => .ready (.error (refusal pool.stopping)))
  else
    (pool.accept rows .promise, (pool.newJobs rows .promise).map fun job => .job job.id)

/-- `impl::enqueue_callback`, with a callback or an empty one. The second component is what the
callback is called with at once. -/
def enqueueCallback (options : BatchingOptions) (pool : Pool ρ) (request : InferenceRequest)
    (callback : Bool) : Except StdException (Pool ρ × Option Error) :=
  if callback = false then
    .error (.invalidArgument (lit "batching completion callback is empty"))
  else if pool.stopping = true ∨ pool.queue.length = options.queueCapacity then
    .ok (pool.reject 1, some (refusal pool.stopping))
  else .ok (pool.accept [request] .callback, none)

/-- The loop of `predict_batch` over its futures: the responses, or the first error. -/
def collect : List (Result ρ) → Result (List ρ)
  | [] => .ok []
  | .error failure :: _ => .error failure
  | .ok response :: rest => (collect rest).map (response :: ·)

/-! ## Workers -/

/-- `impl::bucket`. -/
def bucket (options : BatchingOptions) (job : Job) : Nat :=
  if options.lengthBucketWidth ≠ 0 then job.bytes / options.lengthBucketWidth else 0

/-- The predicate of the second wait. -/
def ready (options : BatchingOptions) (pool : Pool ρ) : Bool :=
  match pool.queue with
  | [] => true
  | front :: _ =>
    pool.stopping || decide (options.maxBatchSize ≤
      pool.queue.countP fun job => bucket options job = bucket options front)

/-- The loop that takes a batch out of the queue: at most `room` jobs of the bucket `key`. The
second component is the queue it leaves. -/
def takeBatch (options : BatchingOptions) (key : Nat) : Nat → List Job → List Job × List Job
  | 0, queue => ([], queue)
  | _ + 1, [] => ([], [])
  | room + 1, job :: rest =>
    if bucket options job = key then
      (job :: (takeBatch options key room rest).1, (takeBatch options key room rest).2)
    else
      ((takeBatch options key (room + 1) rest).1, job :: (takeBatch options key (room + 1) rest).2)

/-- `job::finish`: a job is completed once, and with the error of its own request if that has been
cancelled or has expired meanwhile. -/
def finishJob (env : Environment) (job : Job) (response : Result ρ) :
    Job × Option (Completion ρ) :=
  if job.finished then (job, none)
  else
    let response := match executionError env job.request with
      | some failure => .error failure
      | none => response
    ({ job with finished := true }, some { job := job.id, receiver := job.receiver, response })

/-- The calls of `finish` after the wrapped backend has returned or thrown. -/
def deliveries (turn : Turn ρ) : Answer ρ → List (Nat × Result ρ)
  | .failure e => turn.active.map fun id => (id, .error e)
  | .responses rs =>
    if rs.length ≠ turn.active.length then
      turn.active.map fun id => (id, .error
        { code := .invalidBackendOutput
          message := lit "batching backend response count mismatch" })
    else turn.active.zip (rs.map .ok)
  | .stdException what =>
    turn.batch.map fun job => (job.id, .error { code := .backendFailure, message := what })
  | .otherException =>
    turn.batch.map fun job => (job.id, .error
      { code := .backendFailure, message := lit "wrapped backend threw an unknown exception" })

/-- What a worker does next: it returns from its first wait, it returns from its second wait and
takes a batch, it looks at the next row, it calls the wrapped backend, the wrapped backend ends, it
finishes a job, or it gives the batch up. -/
inductive Action (ρ : Type) where
  | wake
  | extract
  | check
  | call
  | answer (a : Answer ρ)
  | finish
  | retire

/-- The first wait ends when there is something to do. A worker exits when it finds the queue empty,
and otherwise waits for the batch of the oldest job to fill up. The deadline is the sum of the code
as long as the clock of 64 bits has such a tick: for a delay of up to `9 * 10 ^ 15` microseconds, in
the first seven years of the clock. -/
def wake (options : BatchingOptions) (pool : Pool ρ) : Option (Worker ρ) :=
  match pool.queue with
  | [] => if pool.stopping then some .exited else none
  | front :: _ => some (.waiting (front.arrival + 1000 * options.maxDelay))

/-- The second wait ends when the predicate holds or the time is up. Another worker may have emptied
the queue meanwhile. -/
def extract (options : BatchingOptions) (pool : Pool ρ) (deadline : Int) :
    Option (Pool ρ × Worker ρ) :=
  if pool.ready options = true ∨ deadline ≤ pool.environment.now then
    match pool.queue with
    | [] => some (pool, .idle)
    | front :: rest =>
      let (batch, left) :=
        takeBatch options (bucket options front) options.maxBatchSize (front :: rest)
      some ({ pool with
        queue := left
        counters := { pool.counters with inFlight := pool.counters.inFlight + batch.length } },
        .running { batch })
  else none

/-- One row of the preflight loop. -/
def check (pool : Pool ρ) (turn : Turn ρ) : Option (Pool ρ × Worker ρ) :=
  match turn.phase, turn.pending, turn.batch[turn.next]? with
  | .preflight, [], some job =>
    let verdict := executionError pool.environment job.request
    let pool := { pool with preflights := pool.preflights ++ [(job.id, verdict)] }
    some (pool, .running (match verdict with
      | some failure =>
        { turn with next := turn.next + 1, pending := [(job.id, .error failure)] }
      | none =>
        { turn with
          next := turn.next + 1
          views := turn.views ++ [job.request]
          active := turn.active ++ [job.id] }))
  | _, _, _ => none

/-- The end of the preflight loop. -/
def call (pool : Pool ρ) (turn : Turn ρ) : Option (Pool ρ × Worker ρ) :=
  if turn.phase = .preflight ∧ turn.pending.isEmpty = true ∧ turn.next = turn.batch.length then
    if turn.active.isEmpty then some (pool, .running { turn with phase := .answered })
    else some ({ pool with
      counters := { pool.counters with batches := pool.counters.batches + 1 } },
      .running { turn with phase := .calling })
  else none

/-- The wrapped backend returns or throws. -/
def answer (pool : Pool ρ) (turn : Turn ρ) (a : Answer ρ) : Option (Pool ρ × Worker ρ) :=
  if turn.phase = .calling then
    some ({ pool with dispatches := pool.dispatches ++ [⟨turn.active, turn.views, a⟩] },
      .running { turn with phase := .answered, pending := deliveries turn a })
  else none

/-- The next call of `finish`. -/
def finish (pool : Pool ρ) (turn : Turn ρ) : Option (Pool ρ × Worker ρ) :=
  match turn.pending with
  | [] => none
  | (id, response) :: rest =>
    match turn.batch.find? fun job => job.id = id with
    | none => none
    | some job =>
      some ({ pool with
        completions := pool.completions ++
          (finishJob pool.environment job response).2.toList },
        .running { turn with
          batch := turn.batch.map fun job' =>
            if job'.id = id then (finishJob pool.environment job response).1 else job'
          pending := rest })

/-- The end of a turn of the worker loop. -/
def retire (pool : Pool ρ) (turn : Turn ρ) : Option (Pool ρ × Worker ρ) :=
  if turn.phase = .answered ∧ turn.pending.isEmpty = true then
    some ({ pool with
      counters := { pool.counters with
        inFlight := pool.counters.inFlight - turn.batch.length
        completed := pool.counters.completed + turn.batch.length }
      retired := pool.retired ++ turn.batch.map Job.id }, .idle)
  else none

/-- `impl::run`, one action at a time. -/
def act (options : BatchingOptions) (pool : Pool ρ) : Worker ρ → Action ρ →
    Option (Pool ρ × Worker ρ)
  | .idle, .wake => (pool.wake options).map fun worker => (pool, worker)
  | .waiting deadline, .extract => pool.extract options deadline
  | .running turn, .check => pool.check turn
  | .running turn, .call => pool.call turn
  | .running turn, .answer a => pool.answer turn a
  | .running turn, .finish => pool.finish turn
  | .running turn, .retire => pool.retire turn
  | _, _ => none

/-! ## The machine -/

/-- The labels: a caller submits rows, with or without a callback; the pool is shut down; the time
passes; a stop source is stopped; the worker at an index acts. -/
inductive Label (ρ : Type) where
  | enqueue (rows : List InferenceRequest)
  | enqueueCallback (request : InferenceRequest) (callback : Bool)
  | shutdown
  | advance (now : Int)
  | requestStop (source : Nat)
  | work (index : Nat) (action : Action ρ)

/-- One step of the pool. -/
def step (options : BatchingOptions) (pool : Pool ρ) : Label ρ → Option (Pool ρ)
  | .enqueue rows => some (pool.enqueue options rows).1
  | .enqueueCallback request callback =>
    match pool.enqueueCallback options request callback with
    | .error _ => some pool
    | .ok (pool', _) => some pool'
  | .shutdown => some { pool with stopping := true }
  | .advance now =>
    if pool.environment.now ≤ now then
      some { pool with environment := { pool.environment with now } }
    else none
  | .requestStop source =>
    some { pool with
      environment := { pool.environment with stopped := source :: pool.environment.stopped } }
  | .work index action =>
    match pool.workers[index]? with
    | none => none
    | some worker =>
      match pool.act options worker action with
      | none => none
      | some (pool', worker') => some { pool' with workers := pool'.workers.set index worker' }

end Pool

end Jevt
