import Jevt.Batching.Pool
import Jevt.Library.Throwing
import Jevt.Runtime.Backend

/-!
# Exceptions in a worker

One turn of `impl::run` of `src/batching.cpp` by one worker, with the exceptions it may meet: the
ones of the wrapped backend, of the callbacks, of a promise that is set twice, and the
`length_error` of `vector::reserve`. The machine of the pool leaves the last ones out, and splits
the turn at the points where other threads may come in; here other threads show only in the moments
at which the clock and the stop tokens are read. An exception that leaves the turn leaves the
function of the thread and ends the process.

What stands in the `try` block is contained whatever the backend and the callbacks do. The three
reservations stand before it, and the constructor bounds `max_batch_size` from below only, so the
turn is contained exactly when the three vectors can be that long (`iterate_contained_iff`).
-/

namespace Jevt

open Library

/-! ## The turn -/

/-- The `max_size` of the vectors of a turn. -/
structure VectorSizes where
  batch : Nat
  views : Nat
  active : Nat
  deriving DecidableEq, Repr

/-- What a turn meets: the clock and the stop tokens at each reading, the call of the wrapped
backend, and what the callback of the job at a position throws when it is given a result. -/
structure Surroundings (ρ : Type) where
  environment : Nat → Environment
  predictBatch : List InferenceRequest → Except Thrown (Result (List ρ))
  callback : Nat → Result ρ → Option Thrown

/-- The variables of a turn, and the counters and the queue of its pool. A pointer to a job is its
position in `batch`. The promises and callbacks that have been completed are kept with the positions
of their jobs. -/
structure Desk (ρ : Type) where
  queue : List Job
  counters : BatchingStats := {}
  batch : List Job := []
  views : List InferenceRequest := []
  active : List Nat := []
  completions : List (Nat × Completion ρ) := []
  reading : Nat := 0

/-- A job that is finished. -/
def Job.done (job : Job) : Job :=
  { job with finished := true }

@[simp]
theorem Job.done_done (job : Job) : job.done.done = job.done := rfl

/-- A finished job stays as it is. -/
theorem Job.done_of_finished {job : Job} (h : job.finished = true) : job.done = job := by
  cases job
  cases h
  rfl

namespace Desk

variable {ρ : Type}

/-- `vector::reserve` on a vector of this `max_size`. -/
def reserve (maxSize n : Nat) (desk : Desk ρ) : Ending Thrown (Desk ρ) :=
  ⟨desk, if maxSize < n then some (.stdException (lit "vector::reserve")) else none⟩

/-- The loop that takes the batch out of the queue. -/
def extract (options : BatchingOptions) (front : Job) (desk : Desk ρ) : Desk ρ :=
  let (batch, left) :=
    Pool.takeBatch options (Pool.bucket options front) options.maxBatchSize desk.queue
  { desk with
    queue := left
    batch
    counters := { desk.counters with inFlight := desk.counters.inFlight + batch.length } }

/-- A promise is set, or a callback is called under its own `try`. -/
def deliver (around : Surroundings ρ) (position : Nat) (completion : Completion ρ)
    (desk : Desk ρ) : Ending Thrown (Desk ρ) :=
  let completed := { desk with completions := desk.completions ++ [(position, completion)] }
  match completion.receiver with
  | .callback =>
    (Ending.mk completed (around.callback position completion.response)).catching
      fun _ desk => ⟨desk, none⟩
  | .promise =>
    if desk.completions.any fun c => c.1 = position then
      ⟨desk, some (.stdException (lit "std::future_error: Promise already satisfied"))⟩
    else ⟨completed, none⟩

/-- A job has read the clock and is written back. -/
def put (desk : Desk ρ) (position : Nat) (job : Job) : Desk ρ :=
  { desk with batch := desk.batch.set position job, reading := desk.reading + 1 }

/-- `job::finish`, of the job at a position. -/
def finish (around : Surroundings ρ) (position : Nat) (response : Result ρ) (desk : Desk ρ) :
    Ending Thrown (Desk ρ) :=
  match desk.batch[position]? with
  | none => ⟨desk, none⟩
  | some job =>
    match Pool.finishJob (around.environment desk.reading) job response with
    | (_, none) => ⟨desk, none⟩
    | (job, some completion) =>
      deliver around position completion (desk.put position job)

/-- A row of the preflight loop. -/
def preflight (around : Surroundings ρ) (position : Nat) (desk : Desk ρ) :
    Ending Thrown (Desk ρ) :=
  match desk.batch[position]? with
  | none => ⟨desk, none⟩
  | some job =>
    match executionError (around.environment desk.reading) job.request with
    | some failure =>
      finish around position (.error failure) { desk with reading := desk.reading + 1 }
    | none => ⟨{ desk with
        views := desk.views ++ [job.request]
        active := desk.active ++ [position]
        reading := desk.reading + 1 }, none⟩

/-- The preflight loop. -/
def preflights (around : Surroundings ρ) (desk : Desk ρ) : Ending Thrown (Desk ρ) :=
  Ending.forEach (preflight around) (List.range desk.batch.length) desk

/-- The results of the active jobs are at hand. -/
def finishActive (around : Surroundings ρ) (desk : Desk ρ) :
    Result (List ρ) → Ending Thrown (Desk ρ)
  | .error failure =>
    Ending.forEach (fun position => finish around position (.error failure)) desk.active desk
  | .ok responses =>
    if responses.length ≠ desk.active.length then
      Ending.forEach (fun position => finish around position (.error
        { code := .invalidBackendOutput
          message := lit "batching backend response count mismatch" })) desk.active desk
    else
      Ending.forEach (fun row => finish around row.1 (.ok row.2)) (desk.active.zip responses) desk

/-- The call of the wrapped backend, when some jobs are active. -/
def call (around : Surroundings ρ) (desk : Desk ρ) : Ending Thrown (Desk ρ) :=
  if desk.active.isEmpty then ⟨desk, none⟩
  else
    let desk := { desk with counters := { desk.counters with
      batches := desk.counters.batches + 1 } }
    match around.predictBatch desk.views with
    | .error thrown => ⟨desk, some thrown⟩
    | .ok responses => finishActive around desk responses

/-- The two handlers. -/
def rescue (around : Surroundings ρ) (thrown : Thrown) (desk : Desk ρ) :
    Ending Thrown (Desk ρ) :=
  let message := match thrown with
    | .stdException what => what
    | .otherException => lit "wrapped backend threw an unknown exception"
  Ending.forEach (fun position => finish around position (.error
    { code := .backendFailure, message })) (List.range desk.batch.length) desk

/-- The `try` block with its handlers. -/
def work (around : Surroundings ρ) (desk : Desk ρ) : Ending Thrown (Desk ρ) :=
  ((preflights around desk).andThen (call around)).catching (rescue around)

/-- The end of the turn. -/
def retire (desk : Desk ρ) : Desk ρ :=
  { desk with counters := { desk.counters with
    inFlight := desk.counters.inFlight - desk.batch.length
    completed := desk.counters.completed + desk.batch.length } }

/-- `impl::run`, from the end of the second wait to the end of the turn. -/
def iterate (options : BatchingOptions) (sizes : VectorSizes) (around : Surroundings ρ)
    (desk : Desk ρ) : Ending Thrown (Desk ρ) :=
  match desk.queue with
  | [] => ⟨desk, none⟩
  | front :: _ =>
    (((reserve sizes.batch options.maxBatchSize desk).andThen
      (reserve sizes.views options.maxBatchSize)).andThen
      (reserve sizes.active options.maxBatchSize)).andThen fun desk =>
        (work around (desk.extract options front)).andThen fun desk => ⟨desk.retire, none⟩

/-! ## What a turn keeps -/

variable {around : Surroundings ρ} {extracted : List Job} {desk desk' desk'' : Desk ρ}

/-- The job at a position is finished. -/
def Finished (desk : Desk ρ) (position : Nat) : Prop :=
  ∃ job, desk.batch[position]? = some job ∧ job.finished = true

/-- The batch is the extracted jobs up to what is finished, and what has been completed is
finished: a promise that a job still has to set is not set. -/
structure Settled (extracted : List Job) (desk : Desk ρ) : Prop where
  jobs : desk.batch.map Job.done = extracted.map Job.done
  completed : ∀ c ∈ desk.completions, desk.Finished c.1

/-- What was finished stays finished, and the active jobs are the same. -/
structure Follows (before after : Desk ρ) : Prop where
  finished : ∀ position, before.Finished position → after.Finished position
  active : after.active = before.active

theorem Follows.refl (desk : Desk ρ) : Follows desk desk :=
  ⟨fun _ h => h, rfl⟩

theorem Follows.trans (h : Follows desk desk') (h' : Follows desk' desk'') :
    Follows desk desk'' :=
  ⟨fun position hposition => h'.finished position (h.finished position hposition),
    h'.active.trans h.active⟩

/-- The batch has as many jobs as were extracted. -/
theorem Settled.length_eq (h : Settled extracted desk) : desk.batch.length = extracted.length := by
  have hlength := congrArg List.length h.jobs
  simpa only [List.length_map] using hlength

/-- Where every job is finished, the batch is the extracted jobs, finished. -/
theorem Settled.batch_eq (h : Settled extracted desk)
    (hall : ∀ position < extracted.length, desk.Finished position) :
    desk.batch = extracted.map Job.done := by
  rw [← h.jobs]
  refine List.ext_getElem (by simp) fun position hposition hposition' => ?_
  obtain ⟨job, hjob, hfinished⟩ := hall position (h.length_eq ▸ hposition)
  rw [List.getElem?_eq_getElem hposition] at hjob
  rw [List.getElem_map, Option.some.inj hjob, Job.done_of_finished hfinished]

/-- A finished job is written back: the others are as they were. -/
theorem Settled.put {position : Nat} {job : Job} (h : Settled extracted desk)
    (hjob : desk.batch[position]? = some job) :
    Settled extracted (desk.put position job.done) ∧ Follows desk (desk.put position job.done) ∧
      (desk.put position job.done).Finished position := by
  obtain ⟨hlt, _⟩ := List.getElem?_eq_some_iff.1 hjob
  have hself : (desk.put position job.done).Finished position :=
    ⟨job.done, List.getElem?_set_self hlt, rfl⟩
  have hfinished : ∀ q, desk.Finished q → (desk.put position job.done).Finished q := by
    rintro q ⟨other, hother, hdone⟩
    obtain rfl | hq := eq_or_ne position q
    · exact hself
    · exact ⟨other, (List.getElem?_set_ne hq).trans hother, hdone⟩
  have hsame : (desk.batch.map Job.done)[position]? = some job.done := by
    rw [List.getElem?_map, hjob]
    rfl
  obtain ⟨_, hget⟩ := List.getElem?_eq_some_iff.1 hsame
  refine ⟨⟨?_, fun c hc => hfinished c.1 (h.completed c hc)⟩, ⟨hfinished, rfl⟩, hself⟩
  calc (desk.batch.set position job.done).map Job.done
      = (desk.batch.map Job.done).set position job.done := by rw [List.map_set, Job.done_done]
    _ = desk.batch.map Job.done := by rw [← hget, List.set_getElem_self]
    _ = extracted.map Job.done := h.jobs

/-- An unfinished job has not been completed. -/
theorem Settled.not_completed {position : Nat} {job : Job} (h : Settled extracted desk)
    (hjob : desk.batch[position]? = some job) (hopen : job.finished = false) :
    ∀ c ∈ desk.completions, c.1 ≠ position := by
  rintro c hc rfl
  obtain ⟨other, hother, hdone⟩ := h.completed c hc
  rw [hjob] at hother
  obtain rfl := Option.some.inj hother
  exact Bool.false_ne_true (hopen.symm.trans hdone)

/-- A promise that is not set yet takes its value, and a callback may throw. -/
theorem deliver_meets {position : Nat} {completion : Completion ρ} (h : Settled extracted desk)
    (hposition : desk.Finished position)
    (hopen : ∀ c ∈ desk.completions, c.1 ≠ position) :
    (deliver around position completion desk).Meets
      (fun d => Settled extracted d ∧ Follows desk d) (fun _ _ => False) := by
  have hcompleted : ∀ c ∈ desk.completions ++ [(position, completion)], desk.Finished c.1 := by
    intro c hc
    obtain hc | hc := List.mem_append.1 hc
    · exact h.completed c hc
    · rw [List.mem_singleton.1 hc]
      exact hposition
  have hdone : Settled extracted { desk with
      completions := desk.completions ++ [(position, completion)] } := ⟨h.jobs, hcompleted⟩
  unfold deliver
  cases completion.receiver with
  | callback =>
    refine Ending.Meets.catching (T := fun _ d => Settled extracted d ∧ Follows desk d) ?_
      fun _ d hd => hd
    unfold Ending.Meets
    split
    · exact ⟨hdone, fun _ h => h, rfl⟩
    · exact ⟨hdone, fun _ h => h, rfl⟩
  | promise =>
    have hany : (desk.completions.any fun c => decide (c.1 = position)) = false := by
      simpa using fun c r hc => hopen (c, r) hc
    simp only [hany]
    exact ⟨hdone, fun _ h => h, rfl⟩

/-- `finish` ends normally, and its job is finished. -/
theorem finish_meets (position : Nat) (response : Result ρ) (h : Settled extracted desk) :
    (finish around position response desk).Meets
      (fun d => Settled extracted d ∧ Follows desk d ∧
        (position < extracted.length → d.Finished position)) (fun _ _ => False) := by
  unfold finish
  cases hjob : desk.batch[position]? with
  | none =>
    refine ⟨h, .refl desk, fun hlt => absurd hlt ?_⟩
    rw [← h.length_eq]
    exact Nat.not_lt.2 (List.getElem?_eq_none_iff.1 hjob)
  | some job =>
    cases hopen : job.finished with
    | true =>
      simp only [Pool.finishJob, hopen, if_true]
      exact ⟨h, .refl desk, fun _ => ⟨job, hjob, hopen⟩⟩
    | false =>
      simp only [Pool.finishJob, hopen]
      obtain ⟨hput, hfollows, hself⟩ := h.put hjob
      exact (deliver_meets hput hself (h.not_completed hjob hopen)).imp
        (fun d hd => ⟨hd.1, hfollows.trans hd.2, fun _ => hd.2.finished position hself⟩)
        fun _ _ hd => hd

/-! ## The loops of a turn -/

/-- A loop of calls of `finish`: the jobs it names are finished. -/
theorem forEach_finish_meets {α : Type} (position : α → Nat) (response : α → Result ρ)
    (l : List α) (h : Settled extracted desk) :
    (Ending.forEach (fun a => finish around (position a) (response a)) l desk).Meets
      (fun d => Settled extracted d ∧ Follows desk d ∧
        ∀ a ∈ l, position a < extracted.length → d.Finished (position a)) (fun _ _ => False) := by
  refine Ending.meets_forEach (I := fun done d => Settled extracted d ∧ Follows desk d ∧
    ∀ a ∈ done, position a < extracted.length → d.Finished (position a)) ?_
    ⟨h, .refl desk, nofun⟩
  intro done a rest d _ ⟨hsettled, hfollows, hdone⟩
  refine (finish_meets (position a) (response a) hsettled).imp ?_ fun _ _ hd => hd
  intro d' ⟨hsettled', hfollows', hself⟩
  refine ⟨hsettled', hfollows.trans hfollows', fun b hb hlt => ?_⟩
  obtain hb | hb := List.mem_append.1 hb
  · exact hfollows'.finished _ (hdone b hb hlt)
  · rw [List.mem_singleton.1 hb] at hlt ⊢
    exact hself hlt

/-- What holds behind the preflight loop: a job is finished or active. -/
def Covered (extracted : List Job) (desk : Desk ρ) : Prop :=
  Settled extracted desk ∧
    ∀ position < extracted.length, desk.Finished position ∨ position ∈ desk.active

/-- A row of the preflight loop finishes its job or makes it active. -/
theorem preflight_meets (position : Nat) (h : Settled extracted desk) :
    (preflight around position desk).Meets
      (fun d => Settled extracted d ∧ (∀ q, desk.Finished q → d.Finished q) ∧
        desk.active ⊆ d.active ∧
        (position < extracted.length → d.Finished position ∨ position ∈ d.active))
      (fun _ _ => False) := by
  unfold preflight
  cases hjob : desk.batch[position]? with
  | none =>
    refine ⟨h, fun _ hq => hq, fun _ hq => hq, fun hlt => absurd hlt ?_⟩
    rw [← h.length_eq]
    exact Nat.not_lt.2 (List.getElem?_eq_none_iff.1 hjob)
  | some job =>
    cases hverdict : executionError (around.environment desk.reading) job.request with
    | none =>
      simp only [hverdict]
      exact ⟨⟨h.jobs, h.completed⟩, fun _ hq => hq, List.subset_append_left _ _,
        fun _ => .inr (List.mem_append_right _ (List.mem_singleton_self position))⟩
    | some failure =>
      simp only [hverdict]
      have hread : Settled extracted { desk with reading := desk.reading + 1 } :=
        ⟨h.jobs, h.completed⟩
      refine (finish_meets position (.error failure) hread).imp ?_ fun _ _ hd => hd
      intro d ⟨hsettled, hfollows, hself⟩
      exact ⟨hsettled, hfollows.finished, fun _ hq => hfollows.active ▸ hq,
        fun hlt => .inl (hself hlt)⟩

/-- The checks cover the jobs of a batch and throw nothing. -/
theorem preflights_meets (h : Settled extracted desk) :
    (preflights around desk).Meets (Covered extracted) (fun _ _ => False) := by
  have hloop : (preflights around desk).Meets (fun d => Settled extracted d ∧
      ∀ position ∈ List.range desk.batch.length, position < extracted.length →
        d.Finished position ∨ position ∈ d.active) (fun _ _ => False) := by
    refine Ending.meets_forEach (I := fun done d => Settled extracted d ∧
      ∀ position ∈ done, position < extracted.length →
        d.Finished position ∨ position ∈ d.active) ?_ ⟨h, nofun⟩
    intro done position rest d _ ⟨hsettled, hdone⟩
    refine (preflight_meets position hsettled).imp ?_ fun _ _ hd => hd
    intro d' ⟨hsettled', hfinished, hactive, hself⟩
    refine ⟨hsettled', fun q hq hlt => ?_⟩
    obtain hq | hq := List.mem_append.1 hq
    · exact (hdone q hq hlt).imp (hfinished q) (@hactive q)
    · rw [List.mem_singleton.1 hq] at hlt ⊢
      exact hself hlt
  refine hloop.imp ?_ fun _ _ hd => hd
  intro d ⟨hsettled, hdone⟩
  exact ⟨hsettled, fun position hlt =>
    hdone position (List.mem_range.2 (h.length_eq ▸ hlt)) hlt⟩

/-- What holds behind the `try` block. -/
def AllFinished (extracted : List Job) (desk : Desk ρ) : Prop :=
  Settled extracted desk ∧ ∀ position < extracted.length, desk.Finished position

/-- A loop of calls of `finish` over all the active jobs. -/
theorem allFinished_of_active {α : Type} {position : α → Nat} {response : α → Result ρ}
    {l : List α} (h : Covered extracted desk) (hl : l.map position = desk.active) :
    (Ending.forEach (fun a => finish around (position a) (response a)) l desk).Meets
      (AllFinished extracted) (fun _ d => Settled extracted d) := by
  refine (forEach_finish_meets position response l h.1).imp ?_ fun _ _ hd => hd.elim
  intro d ⟨hsettled, hfollows, hdone⟩
  refine ⟨hsettled, fun q hlt => ?_⟩
  obtain hq | hq := h.2 q hlt
  · exact hfollows.finished q hq
  · rw [← hl] at hq
    obtain ⟨a, ha, rfl⟩ := List.mem_map.1 hq
    exact hdone a ha hlt

/-- Every job is finished behind the call, or an exception leaves the batch settled. -/
theorem finishActive_meets (h : Covered extracted desk) (responses : Result (List ρ)) :
    (finishActive around desk responses).Meets (AllFinished extracted)
      (fun _ d => Settled extracted d) := by
  unfold finishActive
  cases responses with
  | error failure => exact allFinished_of_active h (List.map_id _)
  | ok responses =>
    by_cases hlength : responses.length ≠ desk.active.length
    · simp only [if_pos hlength]
      exact allFinished_of_active h (List.map_id _)
    · simp only [if_neg hlength]
      have hle : desk.active.length ≤ responses.length := (not_not.1 hlength).ge
      exact allFinished_of_active h (List.map_fst_zip hle)

/-- The call of the wrapped backend: whatever it throws, the batch is settled. -/
theorem call_meets (h : Covered extracted desk) :
    (call around desk).Meets (AllFinished extracted) (fun _ d => Settled extracted d) := by
  unfold call
  split
  · next hempty =>
    have hactive : desk.active = [] := List.isEmpty_iff.1 hempty
    refine ⟨h.1, fun position hlt => (h.2 position hlt).resolve_right ?_⟩
    rw [hactive]
    exact List.not_mem_nil
  · have hcounted : Covered extracted { desk with counters := { desk.counters with
        batches := desk.counters.batches + 1 } } := ⟨⟨h.1.jobs, h.1.completed⟩, h.2⟩
    cases hanswer : around.predictBatch desk.views with
    | error thrown =>
      simp only [hanswer]
      exact hcounted.1
    | ok responses =>
      simp only [hanswer]
      exact finishActive_meets hcounted responses

/-- A handler finishes what is left. -/
theorem rescue_meets (thrown : Thrown) (h : Settled extracted desk) :
    (rescue around thrown desk).Meets (AllFinished extracted) (fun _ _ => False) := by
  unfold rescue
  refine (forEach_finish_meets id _ (List.range desk.batch.length) h).imp ?_ fun _ _ hd => hd
  intro d ⟨hsettled, _, hdone⟩
  exact ⟨hsettled, fun position hlt =>
    hdone position (List.mem_range.2 (h.length_eq ▸ hlt)) hlt⟩

/-- The `try` block contains what it meets. -/
theorem work_meets (h : Settled extracted desk) :
    (work around desk).Meets (AllFinished extracted) (fun _ _ => False) := by
  have htry : ((preflights around desk).andThen (call around)).Meets (AllFinished extracted)
      (fun _ d => Settled extracted d) :=
    ((preflights_meets h).imp (fun _ hd => hd) fun _ _ hd => hd.elim).andThen
      fun _ hd => call_meets hd
  exact htry.catching fun thrown _ hd => rescue_meets thrown hd

/-! ## The turn -/

/-- Nothing leaves the turn, and the jobs it takes out of the queue are finished. -/
def Contained (options : BatchingOptions) (front : Job) (queue : List Job)
    (turn : Ending Thrown (Desk ρ)) : Prop :=
  turn.thrown = none ∧ turn.state.batch =
    (Pool.takeBatch options (Pool.bucket options front) options.maxBatchSize queue).1.map Job.done

/-- A reservation within the size of a vector succeeds. -/
theorem reserve_of_le {maxSize n : Nat} (h : n ≤ maxSize) :
    reserve maxSize n desk = ⟨desk, none⟩ := by
  rw [reserve, if_neg (Nat.not_lt.2 h)]

/-- A reservation beyond it throws. -/
theorem reserve_of_lt {maxSize n : Nat} (h : maxSize < n) :
    reserve maxSize n desk = ⟨desk, some (.stdException (lit "vector::reserve"))⟩ := by
  rw [reserve, if_pos h]

section
variable {options : BatchingOptions} {sizes : VectorSizes}

/-- A turn that gets through its reservations is contained. -/
theorem iterate_contained (around : Surroundings ρ) (front : Job) (rest : List Job)
    (counters : BatchingStats) (hbatch : options.maxBatchSize ≤ sizes.batch)
    (hviews : options.maxBatchSize ≤ sizes.views) (hactive : options.maxBatchSize ≤ sizes.active) :
    Contained options front (front :: rest)
      (iterate options sizes around { queue := front :: rest, counters }) := by
  let extracted := (Pool.takeBatch options (Pool.bucket options front) options.maxBatchSize
    (front :: rest)).1
  let desk : Desk ρ := extract options front { queue := front :: rest, counters }
  have hstart : Settled extracted desk := ⟨rfl, nofun⟩
  have hwork : (work around desk).Meets (fun d => d.batch = extracted.map Job.done)
      (fun _ _ => False) :=
    (work_meets hstart).imp (fun _ hd => hd.1.batch_eq hd.2) fun _ _ hd => hd
  have hturn : ((work around desk).andThen fun d => ⟨d.retire, none⟩).Meets
      (fun d => d.batch = extracted.map Job.done) (fun _ _ => False) :=
    hwork.andThen fun _ hd => hd
  simpa only [Contained, iterate, reserve_of_le hbatch, reserve_of_le hviews,
    reserve_of_le hactive, Ending.andThen_mk_none] using Ending.meets_iff.1 hturn

/-- A turn that does not is left by an exception. -/
theorem iterate_thrown (around : Surroundings ρ) (front : Job) (rest : List Job)
    (counters : BatchingStats) (h : ¬ (options.maxBatchSize ≤ sizes.batch ∧
      options.maxBatchSize ≤ sizes.views ∧ options.maxBatchSize ≤ sizes.active)) :
    (iterate options sizes around { queue := front :: rest, counters }).thrown =
      some (.stdException (lit "vector::reserve")) := by
  rcases Nat.lt_or_ge sizes.batch options.maxBatchSize with hbatch | hbatch
  · simp only [iterate, reserve_of_lt hbatch, Ending.andThen_mk_some]
  rcases Nat.lt_or_ge sizes.views options.maxBatchSize with hviews | hviews
  · simp only [iterate, reserve_of_le hbatch, reserve_of_lt hviews, Ending.andThen_mk_none,
      Ending.andThen_mk_some]
  rcases Nat.lt_or_ge sizes.active options.maxBatchSize with hactive | hactive
  · simp only [iterate, reserve_of_le hbatch, reserve_of_le hviews, reserve_of_lt hactive,
      Ending.andThen_mk_none, Ending.andThen_mk_some]
  exact absurd ⟨hbatch, hviews, hactive⟩ h

end

/-- For every batch, backend and callback a turn is contained if and only if the vectors of the
turn can hold `max_batch_size` elements. -/
theorem iterate_contained_iff (options : BatchingOptions) (sizes : VectorSizes)
    (around : Surroundings ρ) (front : Job) (rest : List Job) (counters : BatchingStats) :
    Contained options front (front :: rest)
      (iterate options sizes around { queue := front :: rest, counters }) ↔
    options.maxBatchSize ≤ sizes.batch ∧ options.maxBatchSize ≤ sizes.views ∧
      options.maxBatchSize ≤ sizes.active := by
  constructor
  · intro h
    by_contra hsizes
    have hthrown := iterate_thrown around front rest counters hsizes
    rw [h.1] at hthrown
    cases hthrown
  · rintro ⟨hbatch, hviews, hactive⟩
    exact iterate_contained around front rest counters hbatch hviews hactive

/-- A pool with the largest `max_batch_size` is accepted, and its worker does not survive the first
job. -/
theorem iterate_not_contained :
    (Pool.create true { maxBatchSize := 2 ^ 64 - 1 } ⟨0, []⟩ : Except _ (Pool Unit)).isOk = true ∧
    ¬ Contained { maxBatchSize := 2 ^ 64 - 1 } ⟨0, { input := lit "a" }, 1, 0, .promise, false⟩
      [⟨0, { input := lit "a" }, 1, 0, .promise, false⟩]
      (iterate { maxBatchSize := 2 ^ 64 - 1 }
        ⟨(2 ^ 63 - 1) / 8, (2 ^ 63 - 1) / 136, (2 ^ 63 - 1) / 8⟩
        ⟨fun _ => ⟨0, []⟩, fun rows => .ok (.ok (rows.map fun _ => ())), fun _ _ => none⟩
        { queue := [⟨0, { input := lit "a" }, 1, 0, .promise, false⟩] }) := by
  refine ⟨rfl, fun h => ?_⟩
  cases h.1

end Desk

end Jevt
