import Mathlib.Algebra.Order.BigOperators.Group.List
import Mathlib.Algebra.Order.Group.Nat
import Mathlib.Data.List.Pairwise
import Jevt.Batching.Progress

/-!
# No job is lost and none is completed twice

What a reader of the header relies on, in every pool the threads can produce (`Accounts`,
`Consistent.accounts`): the bounds hold, the counters balance, and every admitted job is in one
place and completed once, at the latest when its batch is retired. Together with the progress of the
workers every admitted promise is kept (`admitted_jobs_are_completed`).
-/

namespace Jevt.Pool

open Library

variable {ρ : Type} {options : BatchingOptions} {pool : Pool ρ} {worker : Worker ρ}

/-- The pools the threads can produce from a constructed one. -/
def IsReachable (options : BatchingOptions) (pool : Pool ρ) : Prop :=
  ∃ wrapped environment pool₀, create wrapped options environment = .ok pool₀ ∧
    Reachable (step options) pool₀ pool

/-- The account a pool can give at any time: the queue and the batches are within their bounds, and
the free room is computed without wrapping around; the counters balance; every admitted job is in
the queue, in one batch, or retired; no job is completed twice, none in the queue is completed, one
in a batch is when it is finished, and a retired one is; and when all workers have exited every
admitted job has been completed. -/
structure Accounts (options : BatchingOptions) (pool : Pool ρ) : Prop where
  capacity : pool.queue.length ≤ options.queueCapacity
  room : sizeSub options.queueCapacity pool.queue.length =
    options.queueCapacity - pool.queue.length
  inFlight : pool.stats.inFlight ≤ options.workerCount * options.maxBatchSize
  accepted : pool.stats.accepted =
    pool.stats.queued + pool.stats.inFlight + pool.stats.completed
  presented : pool.stats.accepted + pool.stats.rejected = pool.presented
  once : (pool.queue.map Job.id ++ pool.workers.flatMap Worker.ids ++ pool.retired).Perm
    (List.range pool.admitted.length)
  completedOnce : (pool.completions.map Completion.job).Nodup
  queued : ∀ job ∈ pool.queue, job.id ∉ pool.completions.map Completion.job
  running : ∀ worker ∈ pool.workers, ∀ job ∈ worker.batch,
    job.id ∈ pool.completions.map Completion.job ↔ job.finished = true
  retired : ∀ id ∈ pool.retired, id ∈ pool.completions.map Completion.job
  exited : (∀ worker ∈ pool.workers, worker = .exited) →
    (pool.completions.map Completion.job).Perm (List.range pool.admitted.length)

/-- A new pool has been configured. -/
theorem configured_of_create {wrapped : Bool} {environment : Environment}
    (h : create wrapped options environment = .ok pool) :
    0 < options.workerCount ∧ 0 < options.maxBatchSize := by
  unfold create at h
  split_ifs at h with hinvalid
  simp only [not_or] at hinvalid
  exact ⟨Nat.pos_of_ne_zero hinvalid.2.1, Nat.pos_of_ne_zero hinvalid.2.2.2.1⟩

/-- A reachable pool is consistent. -/
theorem IsReachable.consistent (h : IsReachable options pool) : Consistent options pool := by
  obtain ⟨wrapped, environment, pool₀, hcreate, hreachable⟩ := h
  exact hreachable.invariant (.create hcreate) fun _ _ _ hI hstep => hI.step hstep

/-- The finished jobs of the batches are jobs of the batches. -/
theorem finished_sublist_ids (workers : List (Worker ρ)) :
    (workers.flatMap Worker.finished).Sublist (workers.flatMap Worker.ids) := by
  induction workers with
  | nil => exact .slnil
  | cons worker rest ih =>
    rw [List.flatMap_cons, List.flatMap_cons]
    exact ((List.filter_sublist ..).map _).append ih

/-- A job is in one batch only. -/
theorem Consistent.job_eq (h : Consistent options pool) {worker' : Worker ρ}
    (hworker : worker ∈ pool.workers) (hworker' : worker' ∈ pool.workers) {job job' : Job}
    (hjob : job ∈ worker.batch) (hjob' : job' ∈ worker'.batch) (hid : job.id = job'.id) :
    job = job' := by
  have hnodup := h.once.nodup_iff.2 List.nodup_range
  rw [List.append_assoc, List.nodup_append, List.nodup_append] at hnodup
  obtain ⟨-, hdisjoint⟩ := List.nodup_flatMap.1 hnodup.2.1.1
  by_cases heq : worker = worker'
  · subst heq
    exact eq_of_key_eq (h.nodup_ids hworker) hjob hjob' hid
  · have hsymm : Std.Symm (Function.onFun List.Disjoint (Worker.ids (ρ := ρ))) :=
      ⟨fun _ _ => List.Disjoint.symm⟩
    have hmem' : job.id ∈ worker'.ids := hid ▸ List.mem_map_of_mem hjob'
    exact absurd hmem' (hdisjoint.forall hworker hworker' heq (List.mem_map_of_mem hjob))

/-- **A consistent pool gives a full account.** -/
theorem Consistent.accounts (h : Consistent options pool) (hworkers : 0 < options.workerCount) :
    Accounts options pool := by
  have hnodup := h.once.nodup_iff.2 List.nodup_range
  rw [List.append_assoc, List.nodup_append, List.nodup_append] at hnodup
  obtain ⟨-, ⟨hbatches, hretired, hapart⟩, hqueue⟩ := hnodup
  have hfinished := finished_sublist_ids pool.workers
  refine
    { capacity := h.capacity
      room := sizeSub_of_le h.capacity
      inFlight := ?inFlight
      accepted := ?accepted
      presented := h.presented
      once := h.once
      completedOnce := ?completedOnce
      queued := fun job hjob hcompleted => ?queued
      running := fun worker hworker job hjob =>
        ⟨fun hcompleted => ?running, fun hdone => ?runningDone⟩
      retired := fun id hid => h.logged.mem_iff.2 (List.mem_append_left _ hid)
      exited := fun hall => ?exited }
  case inFlight =>
    show pool.counters.inFlight ≤ _
    rw [h.inFlight, ← h.workers]
    refine (List.sum_le_card_nsmul _ options.maxBatchSize fun n hn => ?_).trans_eq ?_
    · obtain ⟨worker, hworker, rfl⟩ := List.mem_map.1 hn
      exact h.batches worker hworker
    · rw [List.length_map]
      rfl
  case accepted =>
    show pool.counters.accepted =
      pool.queue.length + pool.counters.inFlight + pool.counters.completed
    have hlength := h.once.length_eq
    have hsum : (pool.workers.map fun worker => worker.ids.length).sum =
        pool.counters.inFlight := by
      rw [h.inFlight]
      refine congrArg List.sum (List.map_congr_left fun worker _ => ?_)
      rw [Worker.ids, List.length_map]
    rw [List.length_append, List.length_append, List.length_map, List.length_flatMap, hsum,
      List.length_range] at hlength
    rw [h.accepted, h.completed, hlength]
  case completedOnce =>
    rw [h.logged.nodup_iff, List.nodup_append]
    exact ⟨hretired, hbatches.sublist hfinished,
      fun id hid id' hid' heq => hapart id' (hfinished.subset hid') id hid heq.symm⟩
  case queued =>
    refine hqueue job.id (List.mem_map_of_mem hjob) job.id ?_ rfl
    rcases List.mem_append.1 (h.logged.mem_iff.1 hcompleted) with hid | hid
    · exact List.mem_append_right _ hid
    · exact List.mem_append_left _ (hfinished.subset hid)
  case running =>
    rcases List.mem_append.1 (h.logged.mem_iff.1 hcompleted) with hid | hid
    · have hbatch : job.id ∈ pool.workers.flatMap Worker.ids :=
        List.mem_flatMap.2 ⟨worker, hworker, List.mem_map_of_mem hjob⟩
      exact absurd rfl (hapart _ hbatch _ hid)
    · obtain ⟨worker', hworker', hid⟩ := List.mem_flatMap.1 hid
      obtain ⟨job', hjob', heq⟩ := List.mem_map.1 hid
      obtain ⟨hjob', hdone⟩ := List.mem_filter.1 hjob'
      rw [h.job_eq hworker hworker' hjob hjob' heq.symm]
      exact hdone
  case runningDone =>
    refine h.logged.mem_iff.2 (List.mem_append_right _ (List.mem_flatMap.2 ⟨worker, hworker, ?_⟩))
    exact List.mem_map_of_mem (List.mem_filter.2 ⟨hjob, hdone⟩)
  case exited =>
    refine (h.all_completed fun hwork => ?_).2
    rcases hwork with hne | ⟨worker, hworker, hbusy⟩
    · have hlt : 0 < pool.workers.length := h.workers.symm ▸ hworkers
      have hmem : pool.workers[0] ∈ pool.workers := List.getElem_mem hlt
      exact hne (h.exited (hall _ hmem ▸ hmem)).2
    · rw [hall worker hworker] at hbusy
      exact hbusy

/-- **Every admitted job is completed exactly once.** Any pool of any run gives a full account, its
workers can complete all that has been admitted, whatever the wrapped backend answers, and without
new submissions they stop after a bounded number of steps, in whatever order they take them. -/
theorem admitted_jobs_are_completed (h : IsReachable options pool) :
    Accounts options pool ∧
      (∀ backend : List InferenceRequest → Answer ρ, ∃ labels pool',
        Run (step options) pool labels pool' ∧ Continues backend pool pool' ∧
        (pool'.completions.map Completion.job).Perm (List.range pool.admitted.length)) ∧
      ∀ labels pool', (∀ label ∈ labels, label.isSubmission = false) →
        Run (step options) pool labels pool' →
        labels.countP Label.isWork + pool'.remaining ≤ pool.remaining := by
  have hconsistent := h.consistent
  obtain ⟨wrapped, environment, pool₀, hcreate, -⟩ := h
  obtain ⟨hworkers, hroom⟩ := configured_of_create hcreate
  refine ⟨hconsistent.accounts hworkers, fun backend => ?_, fun labels pool' hlabels hrun =>
    work_le_remaining hroom hlabels hrun⟩
  obtain ⟨labels, pool', hrun, hcontinues, hdone⟩ := hconsistent.drains backend hworkers hroom
  have hconsistent' : Consistent options pool' :=
    Reachable.invariant hconsistent (fun _ _ _ hI hstep => hI.step hstep) ⟨labels, hrun⟩
  refine ⟨labels, pool', hrun, hcontinues, ?_⟩
  rw [← hcontinues.admitted]
  exact (hconsistent'.all_completed hdone).2

/-- Two rows are admitted and taken as one batch. The first has been cancelled by then; the second
is answered. -/
def pairLabels : List (Label Nat) :=
  [.enqueue [{ cancellation := some 7 }, {}], .requestStop 7, .work 0 .wake, .work 0 .extract,
    .work 0 .check, .work 0 .finish, .work 0 .check, .work 0 .call,
    .work 0 (.answer (.responses [5])), .work 0 .finish]

/-- Both rows have been completed while their batch is not retired yet. -/
theorem admitted_jobs_are_completed_pair : ∃ pool : Pool Nat,
    pool.completions.map Completion.job = [0, 1] ∧ pool.counters.inFlight = 2 ∧
    Accounts { maxBatchSize := 2 } pool ∧
    ∃ labels pool', Run (step { maxBatchSize := 2 }) pool labels pool' ∧
      (pool'.completions.map Completion.job).Perm (List.range pool.admitted.length) := by
  have hreachable : ∃ pool : Pool Nat, pool.completions.map Completion.job = [0, 1] ∧
      pool.counters.inFlight = 2 ∧ IsReachable { maxBatchSize := 2 } pool :=
    ⟨_, rfl, rfl, true, { now := 0 }, _, rfl, pairLabels, rfl⟩
  obtain ⟨pool, hcompletions, hinFlight, hreachable⟩ := hreachable
  obtain ⟨haccounts, hdrains, -⟩ := admitted_jobs_are_completed hreachable
  obtain ⟨labels, pool', hrun, -, hall⟩ := hdrains fun _ => .otherException
  exact ⟨pool, hcompletions, hinFlight, haccounts, labels, pool', hrun, hall⟩

end Jevt.Pool
