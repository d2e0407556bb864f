import Mathlib.Algebra.BigOperators.Group.List.Basic
import Mathlib.Algebra.GroupWithZero.Nat
import Mathlib.Data.List.Perm.Basic
import Jevt.Batching.Steps
import Jevt.Library.Keyed
import Jevt.Library.Selection

/-!
# What every pool keeps

`Consistent` says where the admitted jobs are and what has been promised about them: each is in the
queue, in the batch of one worker, or retired; the completions are those of the retired jobs and of
the finished ones in the batches; and a worker that gives its batch up has finished all of it, for
whatever the wrapped backend did, each job of the batch is finished or still owed a call of `finish`
(`Turn.Covered`).

An action of a worker moves jobs between the queue, its batch and the retired ones. What it
conserves is said for each of the counted things by itself (`Acts.inFlight`, `Acts.ids`,
`Acts.logged`), without the other workers.
-/

namespace Jevt

open Library

variable {ρ : Type} {options : BatchingOptions}

/-- The numbers of the jobs in the batch of a worker. -/
def Worker.ids (worker : Worker ρ) : List Nat :=
  worker.batch.map Job.id

/-- The numbers of the finished jobs in the batch of a worker. -/
def Worker.finished (worker : Worker ρ) : List Nat :=
  (worker.batch.filter Job.finished).map Job.id

/-- Every job of a batch is finished, or a call of `finish` is ahead for it: one that is due, or one
that will be due, because the job is active or the preflight loop has not reached it. -/
structure Turn.Covered (turn : Turn ρ) : Prop where
  next : turn.next ≤ turn.batch.length
  active : turn.active ⊆ turn.batch.map Job.id
  called : turn.phase = .calling → turn.next = turn.batch.length ∧ turn.pending = []
  pending : turn.pending.map Prod.fst ⊆ turn.batch.map Job.id
  covered : ∀ job ∈ turn.batch, job.finished = true ∨ job.id ∈ turn.pending.map Prod.fst ∨
    turn.phase ≠ .answered ∧
      (job.id ∈ turn.active ∨ job.id ∈ (turn.batch.map Job.id).drop turn.next)

/-- The part of a batch ahead of the preflight loop loses the job at the position of the loop. -/
theorem drop_reached {batch : List Job} {next : Nat} {job : Job} (hjob : batch[next]? = some job) :
    (batch.map Job.id).drop next = job.id :: (batch.map Job.id).drop (next + 1) := by
  obtain ⟨hlt, rfl⟩ := List.getElem?_eq_some_iff.1 hjob
  rw [List.drop_eq_getElem_cons (by rwa [List.length_map]), List.getElem_map]

/-- When nothing is due, a job of a batch is finished, active, the one that the preflight loop has
reached, or ahead of it. -/
theorem Turn.Covered.reach {turn : Turn ρ} (hcovered : turn.Covered) (hpending : turn.pending = [])
    {job : Job} (hjob : turn.batch[turn.next]? = some job) {job' : Job}
    (hjob' : job' ∈ turn.batch) :
    job'.finished = true ∨ job'.id ∈ turn.active ∨ job'.id = job.id ∨
      job'.id ∈ (turn.batch.map Job.id).drop (turn.next + 1) := by
  rcases hcovered.covered job' hjob' with hfinished | hdue | ⟨-, hactive | hahead⟩
  · exact .inl hfinished
  · rw [hpending] at hdue
    cases hdue
  · exact .inr (.inl hactive)
  · rw [drop_reached hjob] at hahead
    exact .inr (.inr (List.mem_cons.1 hahead))

/-- When nothing is due and the preflight loop is through, the unfinished jobs are active. -/
theorem Turn.Covered.through {turn : Turn ρ} (hcovered : turn.Covered)
    (hpending : turn.pending = []) (hnext : turn.next = turn.batch.length) {job : Job}
    (hjob : job ∈ turn.batch) : job.finished = true ∨ job.id ∈ turn.active := by
  rcases hcovered.covered job hjob with hfinished | hdue | ⟨-, hactive | hahead⟩
  · exact .inl hfinished
  · rw [hpending] at hdue
    cases hdue
  · exact .inr hactive
  · rw [hnext, List.drop_eq_nil_of_le (List.length_map _).le] at hahead
    cases hahead

/-- The batch of a worker is covered. -/
def Worker.Covered : Worker ρ → Prop
  | .running turn => turn.Covered
  | _ => True

namespace Pool

variable {pool pool' : Pool ρ} {worker worker' : Worker ρ}

/-- The invariant of a pool: the bounds, the meaning of the counters, the whereabouts of the
admitted jobs, the completions, the coverage of the batches, and that no worker leaves work behind
when it exits. -/
structure Consistent (options : BatchingOptions) (pool : Pool ρ) : Prop where
  workers : pool.workers.length = options.workerCount
  capacity : pool.queue.length ≤ options.queueCapacity
  batches : ∀ worker ∈ pool.workers, worker.batch.length ≤ options.maxBatchSize
  inFlight : pool.counters.inFlight = (pool.workers.map fun worker => worker.batch.length).sum
  accepted : pool.counters.accepted = pool.admitted.length
  presented : pool.counters.accepted + pool.counters.rejected = pool.presented
  completed : pool.counters.completed = pool.retired.length
  once : (pool.queue.map Job.id ++ pool.workers.flatMap Worker.ids ++ pool.retired).Perm
    (List.range pool.admitted.length)
  fresh : ∀ job ∈ pool.queue, job.finished = false
  logged : (pool.completions.map Completion.job).Perm
    (pool.retired ++ pool.workers.flatMap Worker.finished)
  covered : ∀ worker ∈ pool.workers, worker.Covered
  exited : Worker.exited ∈ pool.workers → pool.stopping = true ∧ pool.queue = []

/-! ## The functions of a worker -/

/-- The batch of a worker is selected by its bucket. -/
theorem takeBatch_eq_select (options : BatchingOptions) (key room : Nat) (queue : List Job) :
    takeBatch options key room queue = select (fun job => bucket options job = key) room queue := by
  induction queue generalizing room with
  | nil => cases room <;> rfl
  | cons job rest ih =>
    cases room with
    | zero => rfl
    | succ room => rw [takeBatch, select, ih, ih]

/-- The batch and the rest of the queue together are the queue. -/
theorem takeBatch_perm (options : BatchingOptions) (key room : Nat) (queue : List Job) :
    ((takeBatch options key room queue).1 ++ (takeBatch options key room queue).2).Perm queue := by
  rw [takeBatch_eq_select]
  exact select_perm _ room queue

/-- What a worker takes out of the queue, and what it leaves there. -/
theorem perm_of_takeBatch {key room : Nat} {queue batch left : List Job}
    (htake : takeBatch options key room queue = (batch, left)) : (batch ++ left).Perm queue := by
  have hperm := takeBatch_perm options key room queue
  rwa [htake] at hperm

/-- The batch fits. -/
theorem length_takeBatch_le (options : BatchingOptions) (key room : Nat) (queue : List Job) :
    (takeBatch options key room queue).1.length ≤ room := by
  rw [takeBatch_eq_select, select_fst]
  exact List.length_take_le _ _

/-- A job that has been finished is finished. -/
theorem finishJob_finished (env : Environment) (job : Job) (response : Result ρ) :
    (finishJob env job response).1.finished = true := by
  unfold finishJob
  split_ifs with hfinished
  · exact hfinished
  · rfl

/-- Finishing a job changes nothing else about it. -/
theorem finishJob_id (env : Environment) (job : Job) (response : Result ρ) :
    (finishJob env job response).1.id = job.id := by
  unfold finishJob
  split_ifs <;> rfl

/-- A job is completed when it is finished for the first time. -/
theorem finishJob_completion (env : Environment) (job : Job) (response : Result ρ) :
    (finishJob env job response).2.toList.map Completion.job =
      if job.finished then [] else [job.id] := by
  unfold finishJob
  split_ifs <;> rfl

/-- `finish` is called for the active jobs or, after an exception, for the whole batch. -/
theorem map_fst_deliveries (turn : Turn ρ) (a : Answer ρ) :
    (deliveries turn a).map Prod.fst = turn.active ∨
      (deliveries turn a).map Prod.fst = turn.batch.map Job.id := by
  unfold deliveries
  cases a with
  | failure e => exact .inl (by simp [Function.comp_def])
  | responses rs =>
    dsimp only
    split_ifs with hlength
    · exact .inl (by simp [Function.comp_def])
    · exact .inl (List.map_fst_zip (by rw [List.length_map]; omega))
  | stdException what => exact .inr (by simp [Function.comp_def])
  | otherException => exact .inr (by simp [Function.comp_def])

/-- The job `finish` looks up has the number it looks for. -/
theorem id_of_find? {batch : List Job} {id : Nat} {job : Job}
    (hjob : batch.find? (fun job => job.id = id) = some job) : job.id = id := by
  simpa using List.find?_some hjob

/-- Finishing one job of a batch keeps the numbers. -/
theorem map_id_finish (batch : List Job) {job job' : Job} (hid : job'.id = job.id) :
    (batch.map fun j => if j.id = job.id then job' else j).map Job.id = batch.map Job.id := by
  rw [List.map_map]
  refine List.map_congr_left fun j _ => ?_
  rw [Function.comp_apply]
  split_ifs with heq
  · exact hid.trans heq.symm
  · rfl

/-- Finishing a job of a batch for the first time adds its number to those of the finished jobs. -/
theorem finished_finish {batch : List Job} (hnodup : (batch.map Job.id).Nodup) {job job' : Job}
    (hjob : job ∈ batch) (hnot : job.finished = false) (hid : job'.id = job.id)
    (hfinished : job'.finished = true) :
    (((batch.map fun j => if j.id = job.id then job' else j).filter Job.finished).map Job.id).Perm
      (job.id :: (batch.filter Job.finished).map Job.id) := by
  obtain ⟨before, after, rfl⟩ := List.append_of_mem hjob
  have hothers : ∀ js : List Job, (∀ j ∈ js, j.id ≠ job.id) →
      (js.map fun j => if j.id = job.id then job' else j) = js := fun js hjs => by
    conv_rhs => rw [← List.map_id js]
    exact List.map_congr_left fun j hj => if_neg (hjs j hj)
  have hbefore : ∀ j ∈ before, j.id ≠ job.id := fun j hj heq => by
    have hsame := eq_of_key_eq hnodup (List.mem_append_left _ hj) hjob heq
    rw [List.map_append, List.nodup_append] at hnodup
    exact hnodup.2.2 _ (List.mem_map_of_mem hj) _ (List.mem_map_of_mem List.mem_cons_self) heq
  have hafter : ∀ j ∈ after, j.id ≠ job.id := fun j hj heq => by
    rw [List.map_append, List.nodup_append, List.map_cons, List.nodup_cons] at hnodup
    exact hnodup.2.1.1 (heq ▸ List.mem_map_of_mem hj)
  rw [List.map_append, List.map_cons, hothers before hbefore, hothers after hafter, if_pos rfl,
    List.filter_append, List.filter_append, List.filter_cons_of_pos hfinished,
    List.filter_cons_of_neg (by simp [hnot]), List.map_append, List.map_append, List.map_cons, hid]
  exact List.perm_middle

/-! ## What an action conserves -/

/-- An action leaves the callers' side of the pool and the surroundings alone. -/
theorem Acts.frame (h : Acts options pool worker pool' worker') :
    pool'.environment = pool.environment ∧ pool'.stopping = pool.stopping ∧
      pool'.admitted = pool.admitted ∧ pool'.presented = pool.presented ∧
      pool'.counters.accepted = pool.counters.accepted ∧
      pool'.counters.rejected = pool.counters.rejected := by
  cases h <;> exact ⟨rfl, rfl, rfl, rfl, rfl, rfl⟩

/-- Workers only take jobs out of the queue. -/
theorem Acts.queue (h : Acts options pool worker pool' worker') :
    pool'.queue ⊆ pool.queue ∧ pool'.queue.length ≤ pool.queue.length := by
  cases h with
  | extract hqueue htake =>
    have hperm := perm_of_takeBatch htake
    rw [hqueue]
    refine ⟨fun job hjob => hperm.subset (List.mem_append_right _ hjob), ?_⟩
    rw [← hperm.length_eq, List.length_append]
    exact Nat.le_add_left _ _
  | _ => exact ⟨List.Subset.refl _, le_rfl⟩

/-- A batch never grows beyond its bound. -/
theorem Acts.batch_le (h : Acts options pool worker pool' worker')
    (hle : worker.batch.length ≤ options.maxBatchSize) :
    worker'.batch.length ≤ options.maxBatchSize := by
  cases h with
  | extract hqueue htake =>
    rename_i front rest batch left
    have hlength :=
      length_takeBatch_le options (bucket options front) options.maxBatchSize (front :: rest)
    rwa [htake] at hlength
  | finish hpending hjob => exact (List.length_map _).trans_le hle
  | _ => first | exact hle | exact Nat.zero_le _

/-- `in_flight` follows the batch. -/
theorem Acts.inFlight (h : Acts options pool worker pool' worker')
    (hle : worker.batch.length ≤ pool.counters.inFlight) :
    pool'.counters.inFlight + worker.batch.length =
      pool.counters.inFlight + worker'.batch.length := by
  cases h with
  | extract hqueue htake => rfl
  | finish hpending hjob =>
    show pool.counters.inFlight + _ = pool.counters.inFlight + (List.map _ _).length
    rw [List.length_map]
    rfl
  | retire hphase hpending =>
    show pool.counters.inFlight - _ + _ = pool.counters.inFlight + 0
    exact Nat.sub_add_cancel hle
  | _ => rfl

/-- `completed` counts the retired jobs. -/
theorem Acts.completed (h : Acts options pool worker pool' worker')
    (hcompleted : pool.counters.completed = pool.retired.length) :
    pool'.counters.completed = pool'.retired.length := by
  cases h with
  | retire hphase hpending =>
    show pool.counters.completed + _ = (pool.retired ++ _).length
    rw [hcompleted, List.length_append, List.length_map]
  | _ => exact hcompleted

/-- A job stays in the queue, in the batch, or retired. -/
theorem Acts.ids (h : Acts options pool worker pool' worker') :
    (pool'.queue.map Job.id ++ worker'.ids ++ pool'.retired).Perm
      (pool.queue.map Job.id ++ worker.ids ++ pool.retired) := by
  cases h with
  | extract hqueue htake =>
    rename_i front rest batch left
    refine List.Perm.append_right _ ?_
    show (left.map Job.id ++ batch.map Job.id).Perm (pool.queue.map Job.id ++ [])
    rw [hqueue, List.append_nil, ← List.map_append]
    exact (List.perm_append_comm.trans (perm_of_takeBatch htake)).map _
  | finish hpending hjob =>
    rename_i turn id response rest job
    obtain rfl := id_of_find? hjob
    have hsame := map_id_finish turn.batch (finishJob_id pool.environment job response)
    exact .of_eq (congrArg (pool.queue.map Job.id ++ · ++ pool.retired) hsame)
  | retire hphase hpending =>
    rename_i turn
    show (pool.queue.map Job.id ++ [] ++ (pool.retired ++ turn.batch.map Job.id)).Perm
      (pool.queue.map Job.id ++ turn.batch.map Job.id ++ pool.retired)
    rw [List.append_nil, List.append_assoc]
    exact List.perm_append_comm.append_left _
  | _ => exact .refl _

/-- An action keeps the batch covered. -/
theorem Acts.covered (h : Acts options pool worker pool' worker') (hcovered : worker.Covered) :
    worker'.Covered := by
  cases h with
  | exit => trivial
  | anchor => trivial
  | lost => trivial
  | extract hqueue htake =>
    refine ⟨Nat.zero_le _, List.nil_subset _, nofun, List.nil_subset _, fun job hjob => ?_⟩
    exact .inr (.inr ⟨nofun, .inr (List.mem_map_of_mem hjob)⟩)
  | refuse hphase hpending hjob hverdict =>
    rename_i turn job failure
    have hmem := List.mem_map_of_mem (f := Job.id) (List.mem_of_getElem? hjob)
    obtain ⟨hlt, -⟩ := List.getElem?_eq_some_iff.1 hjob
    refine ⟨hlt, hcovered.active, fun h => absurd (hphase.symm.trans h) nofun, ?_, ?_⟩
    · exact List.cons_subset.2 ⟨hmem, List.nil_subset _⟩
    · intro job' hjob'
      rcases hcovered.reach hpending hjob hjob' with hfinished | hactive | heq | hahead
      · exact .inl hfinished
      · exact .inr (.inr ⟨hphase ▸ nofun, .inl hactive⟩)
      · exact .inr (.inl (List.mem_singleton.2 heq))
      · exact .inr (.inr ⟨hphase ▸ nofun, .inr hahead⟩)
  | pass hphase hpending hjob hverdict =>
    rename_i turn job
    have hmem := List.mem_map_of_mem (f := Job.id) (List.mem_of_getElem? hjob)
    obtain ⟨hlt, -⟩ := List.getElem?_eq_some_iff.1 hjob
    refine ⟨hlt, ?_, fun h => absurd (hphase.symm.trans h) nofun, hcovered.pending, ?_⟩
    · exact List.append_subset.2 ⟨hcovered.active, List.cons_subset.2 ⟨hmem, List.nil_subset _⟩⟩
    · intro job' hjob'
      rcases hcovered.reach hpending hjob hjob' with hfinished | hactive | heq | hahead
      · exact .inl hfinished
      · exact .inr (.inr ⟨hphase ▸ nofun, .inl (List.mem_append_left _ hactive)⟩)
      · exact .inr (.inr ⟨hphase ▸ nofun, .inl (heq ▸ List.mem_append_right _ (by simp))⟩)
      · exact .inr (.inr ⟨hphase ▸ nofun, .inr hahead⟩)
  | skip hphase hpending hnext hactive =>
    refine ⟨hcovered.next, hcovered.active, nofun, hcovered.pending, fun job hjob => ?_⟩
    rcases hcovered.through hpending hnext hjob with hfinished | hact
    · exact .inl hfinished
    · rw [hactive] at hact
      cases hact
  | call hphase hpending hnext =>
    obtain ⟨hle, hsubset, -, hpendingSubset, hall⟩ := hcovered
    exact ⟨hle, hsubset, fun _ => ⟨hnext, hpending⟩, hpendingSubset,
      fun job hjob => (hall job hjob).imp_right fun h => h.imp_right fun h => ⟨nofun, h.2⟩⟩
  | answer a hphase =>
    rename_i turn
    obtain ⟨hnext, hpending⟩ := hcovered.called hphase
    have hdue : turn.active ⊆ (deliveries turn a).map Prod.fst ∧
        (deliveries turn a).map Prod.fst ⊆ turn.batch.map Job.id := by
      rcases map_fst_deliveries turn a with heq | heq <;> rw [heq]
      · exact ⟨List.Subset.refl _, hcovered.active⟩
      · exact ⟨hcovered.active, List.Subset.refl _⟩
    refine ⟨hcovered.next, hcovered.active, nofun, hdue.2, fun job hjob => ?_⟩
    rcases hcovered.through hpending hnext hjob with hfinished | hact
    · exact .inl hfinished
    · exact .inr (.inl (hdue.1 hact))
  | finish hpending hjob =>
    rename_i turn id response rest job
    obtain rfl := id_of_find? hjob
    have hsame := map_id_finish turn.batch (finishJob_id pool.environment job response)
    obtain ⟨hle, hsubset, hcalled, hpendingSubset, hall⟩ := hcovered
    rw [hpending, List.map_cons, List.cons_subset] at hpendingSubset
    refine ⟨?_, ?_, fun h => ?_, ?_, fun j' hj' => ?_⟩
    · exact hle.trans_eq (List.length_map _).symm
    · exact fun id hid => hsame ▸ hsubset hid
    · rw [(hcalled h).2] at hpending
      cases hpending
    · exact fun id hid => hsame ▸ hpendingSubset.2 hid
    · obtain ⟨j, hj, rfl⟩ := List.mem_map.1 hj'
      split_ifs with heq
      · exact .inl (finishJob_finished _ _ _)
      · rw [hsame]
        rcases hall j hj with hfinished | hdue | hlater
        · exact .inl hfinished
        · rw [hpending, List.map_cons] at hdue
          exact .inr (.inl ((List.mem_cons.1 hdue).resolve_left heq))
        · exact .inr (.inr hlater)
  | retire => trivial

/-- The completions follow the finished jobs. -/
theorem Acts.logged (h : Acts options pool worker pool' worker') (hcovered : worker.Covered)
    (hnodup : worker.ids.Nodup) (hfresh : ∀ job ∈ pool.queue, job.finished = false) :
    (pool'.retired ++ worker'.finished ++ pool.completions.map Completion.job).Perm
      (pool.retired ++ worker.finished ++ pool'.completions.map Completion.job) := by
  cases h with
  | extract hqueue htake =>
    rename_i front rest batch left
    have hperm := perm_of_takeBatch htake
    rw [← hqueue] at hperm
    have hnone : batch.filter Job.finished = [] := by
      refine List.filter_eq_nil_iff.2 fun job hjob => ?_
      simp [hfresh job (hperm.subset (List.mem_append_left _ hjob))]
    show (pool.retired ++ (batch.filter Job.finished).map Job.id ++ _).Perm
      (pool.retired ++ [] ++ _)
    rw [hnone, List.map_nil]
  | finish hpending hjob =>
    rename_i turn id response rest job
    obtain rfl := id_of_find? hjob
    have hmem := List.mem_of_find?_eq_some hjob
    show (pool.retired ++ ((turn.batch.map _).filter Job.finished).map Job.id ++
      pool.completions.map Completion.job).Perm (pool.retired ++
      (turn.batch.filter Job.finished).map Job.id ++ (pool.completions ++ _).map Completion.job)
    rw [List.map_append, finishJob_completion]
    cases hfinished : job.finished with
    | true =>
      have hsame : (turn.batch.map fun j => if j.id = job.id then
          (finishJob pool.environment job response).1 else j) = turn.batch := by
        conv_rhs => rw [← List.map_id turn.batch]
        refine List.map_congr_left fun j hj => ?_
        split_ifs with heq
        · rw [finishJob, if_pos hfinished]
          exact eq_of_key_eq hnodup hmem hj heq.symm
        · rfl
      rw [hsame, if_pos rfl, List.append_nil]
    | false =>
      have hids : (turn.batch.map Job.id).Nodup := hnodup
      have hmore := finished_finish hids hmem hfinished
        (finishJob_id pool.environment job response)
        (finishJob_finished pool.environment job response)
      rw [if_neg (by simp)]
      refine ((hmore.append_left _).append_right _).trans ?_
      rw [List.perm_iff_count]
      intro a
      simp only [List.count_append, List.count_cons, List.count_nil]
      omega
  | retire hphase hpending =>
    rename_i turn
    have hall : turn.batch.filter Job.finished = turn.batch := by
      refine List.filter_eq_self.2 fun job hjob => ?_
      rcases hcovered.covered job hjob with hfinished | hdue | ⟨hlater, -⟩
      · exact hfinished
      · rw [hpending] at hdue
        cases hdue
      · exact absurd hphase hlater
    show (pool.retired ++ turn.batch.map Job.id ++ [] ++ _).Perm
      (pool.retired ++ (turn.batch.filter Job.finished).map Job.id ++ _)
    rw [hall, List.append_nil]
  | _ => exact .refl _

/-- A worker exits only when nothing is left to do. -/
theorem Acts.exited (h : Acts options pool worker pool' worker') (hexited : worker' = .exited) :
    pool'.stopping = true ∧ pool'.queue = [] := by
  cases h with
  | exit hqueue hstopping => exact ⟨hstopping, hqueue⟩
  | _ => cases hexited

/-! ## The steps keep the invariant -/

/-- Rows that are rejected are counted. -/
theorem Consistent.reject (h : Consistent options pool) (rows : Nat) :
    Consistent options (pool.reject rows) := by
  refine { h with presented := ?_ }
  show pool.counters.accepted + (pool.counters.rejected + rows) = pool.presented + rows
  rw [← h.presented, Nat.add_assoc]

/-- The numbers of new jobs are the next ones. -/
theorem map_id_newJobs (pool : Pool ρ) (rows : List InferenceRequest) (receiver : Receiver) :
    (pool.newJobs rows receiver).map Job.id = List.range' pool.admitted.length rows.length := by
  unfold newJobs
  rw [List.map_map, ← List.zipIdx_map_snd pool.admitted.length rows]
  rfl

/-- Admission finds a place for every row. -/
theorem Consistent.accept (h : Consistent options pool) (rows : List InferenceRequest)
    (receiver : Receiver) (hstopping : pool.stopping = false)
    (hroom : pool.queue.length + rows.length ≤ options.queueCapacity) :
    Consistent options (pool.accept rows receiver) := by
  have hlength : (pool.newJobs rows receiver).length = rows.length := by
    unfold newJobs
    rw [List.length_map, List.length_zipIdx]
  refine
    { h with
      capacity := ?capacity
      accepted := ?accepted
      presented := ?presented
      once := ?once
      fresh := ?fresh
      exited := ?exited }
  case capacity =>
    show (pool.queue ++ _).length ≤ _
    rw [List.length_append, hlength]
    exact hroom
  case accepted =>
    show pool.counters.accepted + rows.length = (pool.admitted ++ rows).length
    rw [List.length_append, h.accepted]
  case presented =>
    show pool.counters.accepted + rows.length + pool.counters.rejected =
      pool.presented + rows.length
    rw [← h.presented]
    omega
  case once =>
    show ((pool.queue ++ pool.newJobs rows receiver).map Job.id ++
      pool.workers.flatMap Worker.ids ++ pool.retired).Perm
      (List.range (pool.admitted ++ rows).length)
    rw [List.map_append, map_id_newJobs, List.length_append, List.range_add]
    have honce := h.once
    rw [List.perm_iff_count] at honce ⊢
    intro a
    have ha := honce a
    simp only [List.count_append] at ha ⊢
    rw [List.range'_eq_map_range]
    omega
  case fresh =>
    intro job hjob
    rcases List.mem_append.1 hjob with hjob | hjob
    · exact h.fresh job hjob
    · obtain ⟨row, -, rfl⟩ := List.mem_map.1 hjob
      rfl
  case exited =>
    intro hexited
    rw [(h.exited hexited).1] at hstopping
    cases hstopping

/-- The time passes, a stop source is stopped or the pool is shut down. -/
theorem Consistent.surroundings (h : Consistent options pool) (environment : Environment)
    {stopping : Bool} (hstopping : pool.stopping = true → stopping = true) :
    Consistent options { pool with environment, stopping } :=
  { h with exited := fun hexited => ⟨hstopping (h.exited hexited).1, (h.exited hexited).2⟩ }

/-- The batch of a worker holds different jobs. -/
theorem Consistent.nodup_ids (h : Consistent options pool) (hworker : worker ∈ pool.workers) :
    worker.ids.Nodup := by
  have hnodup := h.once.nodup_iff.2 List.nodup_range
  rw [List.append_assoc, List.nodup_append, List.nodup_append] at hnodup
  exact (List.nodup_flatMap.1 hnodup.2.1.1).1 worker hworker

/-- A worker that acts keeps the pool consistent. -/
theorem Consistent.work (h : Consistent options pool) {before after : List (Worker ρ)}
    (hworkers : pool.workers = before ++ worker :: after)
    (hacts : Acts options pool worker pool' worker') :
    Consistent options { pool' with workers := before ++ worker' :: after } := by
  have hmem : worker ∈ pool.workers := by rw [hworkers]; simp
  have hothers : ∀ {P : Worker ρ → Prop}, (∀ w ∈ pool.workers, P w) → P worker' →
      ∀ w ∈ before ++ worker' :: after, P w := by
    intro P hall hnew w hw
    rcases mem_replaced hw with rfl | hw
    · exact hnew
    · exact hall w (hworkers ▸ hw)
  obtain ⟨-, hstopping, hadmitted, hpresented, haccepted, hrejected⟩ := hacts.frame
  have hsum := h.inFlight
  rw [hworkers, List.map_append, List.map_cons, List.sum_append, List.sum_cons] at hsum
  have hinFlight := hacts.inFlight (by omega)
  have hcovered := h.covered worker hmem
  refine
    { workers := ?workers
      capacity := hacts.queue.2.trans h.capacity
      batches := hothers h.batches (hacts.batch_le (h.batches worker hmem))
      inFlight := ?inFlight
      accepted := ?accepted
      presented := ?presented
      completed := hacts.completed h.completed
      once := ?once
      fresh := fun job hjob => h.fresh job (hacts.queue.1 hjob)
      logged := ?logged
      covered := hothers h.covered (hacts.covered hcovered)
      exited := fun hexited => ?exited }
  case workers =>
    have hlength := h.workers
    rw [hworkers] at hlength
    simpa using hlength
  case inFlight =>
    show pool'.counters.inFlight =
      ((before ++ worker' :: after).map fun worker => worker.batch.length).sum
    rw [List.map_append, List.map_cons, List.sum_append, List.sum_cons]
    omega
  case accepted =>
    show pool'.counters.accepted = pool'.admitted.length
    rw [haccepted, hadmitted, h.accepted]
  case presented =>
    show pool'.counters.accepted + pool'.counters.rejected = pool'.presented
    rw [haccepted, hrejected, hpresented, h.presented]
  case once =>
    have honce := h.once
    show (pool'.queue.map Job.id ++ (before ++ worker' :: after).flatMap Worker.ids ++
      pool'.retired).Perm (List.range pool'.admitted.length)
    rw [hadmitted]
    rw [hworkers] at honce
    exact (perm_flatMap_replaced before after hacts.ids).trans honce
  case logged =>
    have hlogged := h.logged
    have hcompletions := perm_flatMap_replaced before after
      (hacts.logged hcovered (h.nodup_ids hmem) h.fresh)
    show (pool'.completions.map Completion.job).Perm
      (pool'.retired ++ (before ++ worker' :: after).flatMap Worker.finished)
    rw [hworkers] at hlogged
    exact perm_of_conserved hcompletions hlogged
  case exited =>
    rcases mem_replaced hexited with hnew | hold
    · exact hacts.exited hnew.symm
    · rw [← hworkers] at hold
      obtain ⟨hstop, hempty⟩ := h.exited hold
      refine ⟨hstopping.trans hstop, List.eq_nil_iff_forall_not_mem.2 fun job hjob => ?_⟩
      have hjob' := hacts.queue.1 hjob
      rw [hempty] at hjob'
      cases hjob'

/-- **Every step keeps the pool consistent.** -/
theorem Consistent.step (h : Consistent options pool) {label : Label ρ}
    (hstep : pool.step options label = some pool') : Consistent options pool' := by
  cases moves_of_step hstep with
  | reject rows => exact h.reject rows
  | accept rows receiver hstopping hroom =>
    refine h.accept rows receiver hstopping ?_
    have hcapacity := h.capacity
    rw [sizeSub_of_le hcapacity] at hroom
    omega
  | surroundings hearlier hstopping => exact h.surroundings _ hstopping
  | work hworkers hacts => exact h.work hworkers hacts

/-- A new pool is consistent. -/
theorem Consistent.create {wrapped : Bool} {environment : Environment}
    (h : create wrapped options environment = .ok pool) : Consistent options pool := by
  unfold Pool.create at h
  split_ifs at h
  obtain rfl := Except.ok.inj h
  have hidle : ∀ worker ∈ List.replicate options.workerCount (Worker.idle : Worker ρ),
      worker = .idle := fun worker hworker => List.eq_of_mem_replicate hworker
  refine
    { workers := List.length_replicate
      capacity := Nat.zero_le _
      batches := fun worker hworker => ?batches
      inFlight := ?inFlight
      accepted := rfl
      presented := rfl
      completed := rfl
      once := ?once
      fresh := nofun
      logged := ?logged
      covered := fun worker hworker => ?covered
      exited := fun hexited => absurd (hidle _ hexited) nofun }
  case batches =>
    rw [hidle worker hworker]
    exact Nat.zero_le _
  case inFlight => simp [Worker.batch]
  case once => simp [Worker.ids, Worker.batch]
  case logged => simp [Worker.finished, Worker.batch]
  case covered =>
    rw [hidle worker hworker]
    trivial

end Pool

end Jevt
