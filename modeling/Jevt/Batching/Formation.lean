import Jevt.Batching.Delivery

/-!
# How batches are formed

A worker forms a batch by selecting from the queue by the bucket of the oldest job
(`takeBatch_eq_select`), and the callers only append to the queue. So every run of the pool is a
history of a queue that is served in batches (`served_of_run`), whatever the threads do between, and
the rules of such histories say that no job starves behind other buckets and that the jobs of one
bucket are taken in the order of their admission (`batch_formation`).
-/

namespace Jevt

open Library

variable {ρ : Type} {options : BatchingOptions}

/-- The batch that a worker takes out of the queue when it stops waiting. -/
def Worker.taken : Worker ρ → Worker ρ → Option (List Job)
  | .waiting _, .running turn => some turn.batch
  | _, _ => none

namespace Pool

variable {pool pool' : Pool ρ}

/-- The batch that a step takes out of the queue. -/
def extraction (options : BatchingOptions) (pool : Pool ρ) (label : Label ρ) : Option (List Job) :=
  match label, pool.step options label with
  | .work index _, some pool' =>
    match pool.workers[index]?, pool'.workers[index]? with
    | some worker, some worker' => worker.taken worker'
    | _, _ => none
  | _, _ => none

/-- The batches that the steps of a run take, in their order. -/
def extractions (options : BatchingOptions) : Pool ρ → List (Label ρ) → List (List Job)
  | _, [] => []
  | pool, label :: labels =>
    match pool.step options label with
    | none => []
    | some pool' => (pool.extraction options label).toList ++ extractions options pool' labels

/-! ## Steps -/

/-- What a step does to the queue: it appends the jobs of some rows, or it takes a batch by the
bucket of the oldest job. -/
inductive Serves (options : BatchingOptions) (pool : Pool ρ) : Option (List Job) → Pool ρ → Prop
  | accept {pool' : Pool ρ} (rows : List InferenceRequest) (receiver : Receiver)
      (hqueue : pool'.queue = pool.queue ++ pool.newJobs rows receiver)
      (hadmitted : pool'.admitted = pool.admitted ++ rows) : Serves options pool none pool'
  | take {pool' : Pool ρ} {front : Job} {rest batch : List Job}
      (hqueue : pool.queue = front :: rest)
      (htake : takeBatch options (bucket options front) options.maxBatchSize (front :: rest) =
        (batch, pool'.queue))
      (hadmitted : pool'.admitted = pool.admitted) : Serves options pool (some batch) pool'

/-- A step that leaves the queue and the history of the admissions alone admits nothing. -/
theorem Serves.idle (hqueue : pool'.queue = pool.queue)
    (hadmitted : pool'.admitted = pool.admitted) : Serves options pool none pool' :=
  .accept [] .promise (by simp [newJobs, hqueue]) (by simp [hadmitted])

/-- What an action of a worker does to the queue. -/
theorem Acts.serves {worker worker' : Worker ρ} (h : Acts options pool worker pool' worker')
    (workers : List (Worker ρ)) :
    Serves options pool (worker.taken worker') { pool' with workers } := by
  cases h with
  | extract hqueue htake => exact .take hqueue htake rfl
  | _ => exact .idle rfl rfl

/-- The steps do to the queue what `Serves` says. -/
theorem serves_of_step {label : Label ρ} (h : pool.step options label = some pool') :
    Serves options pool (pool.extraction options label) pool' := by
  unfold extraction
  rw [h]
  cases label with
  | work index action =>
    unfold step at h
    dsimp only at h ⊢
    split at h
    · cases h
    · next worker hworker =>
      split at h
      · cases h
      · next middle worker' hact =>
        obtain rfl := Option.some.inj h
        have hacts := acts_of_act hact
        obtain ⟨hlt, -⟩ := List.getElem?_eq_some_iff.1 hworker
        have hworker' : (middle.workers.set index worker')[index]? = some worker' := by
          rw [hacts.workers]
          simp [hlt]
        rw [hworker, hworker']
        exact hacts.serves _
  | enqueue rows =>
    obtain rfl := Option.some.inj h
    unfold enqueue
    split_ifs
    · exact .idle rfl rfl
    · exact .accept rows .promise rfl rfl
  | enqueueCallback request callback =>
    unfold step enqueueCallback at h
    cases callback with
    | false =>
      obtain rfl := Option.some.inj h
      exact .idle rfl rfl
    | true =>
      simp only [Bool.true_eq_false, if_false] at h
      split_ifs at h
      · obtain rfl := Option.some.inj h
        exact .idle rfl rfl
      · obtain rfl := Option.some.inj h
        exact .accept [request] .callback rfl rfl
  | shutdown =>
    obtain rfl := Option.some.inj h
    exact .idle rfl rfl
  | advance now =>
    unfold step at h
    dsimp only at h
    split_ifs at h
    obtain rfl := Option.some.inj h
    exact .idle rfl rfl
  | requestStop source =>
    obtain rfl := Option.some.inj h
    exact .idle rfl rfl

/-! ## Runs -/

/-- **Every run is a history of a queue that is served in batches.** What arrives in it are the jobs
of the rows that are admitted, in the order of their numbers. -/
theorem served_of_run {labels : List (Label ρ)} (h : Run (step options) pool labels pool') :
    ∃ arrivals, Served (bucket options) options.maxBatchSize pool.queue arrivals
        (extractions options pool labels) pool'.queue ∧
      pool'.admitted.length = pool.admitted.length + arrivals.length ∧
      arrivals.map Job.id = List.range' pool.admitted.length arrivals.length := by
  induction labels generalizing pool with
  | nil =>
    obtain rfl := Run.nil_iff.1 h
    exact ⟨[], .done _, by simp, by simp⟩
  | cons label labels ih =>
    obtain ⟨middle, hstep, hrun⟩ := Run.cons_iff.1 h
    obtain ⟨arrivals, hserved, hlength, hids⟩ := ih hrun
    have hserves := serves_of_step hstep
    unfold extractions
    rw [hstep]
    dsimp only
    generalize pool.extraction options label = taken at hserves
    cases hserves with
    | accept rows receiver hqueue hadmitted =>
      have hnew : (pool.newJobs rows receiver).length = rows.length := by simp [newJobs]
      rw [hadmitted, List.length_append] at hlength hids
      rw [hqueue] at hserved
      refine ⟨pool.newJobs rows receiver ++ arrivals, .arrive _ hserved, ?_, ?_⟩
      · rw [hlength, List.length_append, hnew]
        omega
      · rw [List.map_append, map_id_newJobs, hids, List.length_append, hnew, List.range'_append_1]
    | take hqueue htake hadmitted =>
      rw [hadmitted] at hlength hids
      rw [takeBatch_eq_select] at htake
      rw [hqueue]
      exact ⟨arrivals, .take htake hserved, hlength, hids⟩

/-- What the extraction loop does to a queue: the batch are the first jobs of the bucket of the
front job, as many as there are and may be, the front job among them; the other jobs stay, in their
order. -/
theorem takeBatch_forms (hsize : 0 < options.maxBatchSize) (front : Job) (rest : List Job) :
    let formed := takeBatch options (bucket options front) options.maxBatchSize (front :: rest)
    formed.1 = ((front :: rest).filter fun job => bucket options job = bucket options front).take
        options.maxBatchSize ∧
      formed.1.length = min options.maxBatchSize
        ((front :: rest).countP fun job => bucket options job = bucket options front) ∧
      front ∈ formed.1 ∧
      formed.2.Sublist (front :: rest) ∧
      (formed.1 ++ formed.2).Perm (front :: rest) := by
  intro formed
  have hformed : formed = select (fun job => bucket options job = bucket options front)
      options.maxBatchSize (front :: rest) := takeBatch_eq_select ..
  have hbatch := select_fst (fun job => bucket options job = bucket options front)
    options.maxBatchSize (front :: rest)
  rw [hformed]
  refine ⟨hbatch, ?_, ?_, select_snd_sublist .., select_perm ..⟩
  · rw [hbatch, List.length_take, List.countP_eq_length_filter]
  · obtain ⟨room, hroom⟩ := Nat.exists_eq_succ_of_ne_zero (Nat.ne_of_gt hsize)
    rw [hroom, select_cons_of_pos (p := fun job => bucket options job = bucket options front) rfl]
    exact List.mem_cons_self

/-- **Batch formation.** The extraction loop takes the first jobs of the bucket of the front job, as
many as there are and may be, and leaves the others in their order. So in every run of a new pool,
however the threads interleave: a job that has `p` jobs ahead of it in the queue, when it is
admitted or later, is in one of the next `p + 1` batches, whatever else is admitted; every admitted
job is in one batch or still queued; and the jobs of a bucket are taken in the order of their
admission. -/
theorem batch_formation {wrapped : Bool} {environment : Environment} {initial : Pool ρ}
    (hcreate : create wrapped options environment = .ok initial) :
    (∀ (front : Job) (rest : List Job),
      let formed := takeBatch options (bucket options front) options.maxBatchSize (front :: rest)
      formed.1 = ((front :: rest).filter fun job => bucket options job = bucket options front).take
          options.maxBatchSize ∧
        formed.1.length = min options.maxBatchSize
          ((front :: rest).countP fun job => bucket options job = bucket options front) ∧
        front ∈ formed.1 ∧
        formed.2.Sublist (front :: rest) ∧
        (formed.1 ++ formed.2).Perm (front :: rest)) ∧
    (∀ (before after : List (Label ρ)) (pool last : Pool ρ),
      Run (step options) initial before pool → Run (step options) pool after last →
      ∀ (p : Nat) (job : Job), pool.queue[p]? = some job →
        p < (extractions options pool after).length →
        ∃ i ≤ p, ∃ batch, (extractions options pool after)[i]? = some batch ∧ job ∈ batch) ∧
    (∀ (labels : List (Label ρ)) (last : Pool ρ), Run (step options) initial labels last →
      let jobs := (extractions options initial labels).flatten ++ last.queue
      (jobs.map Job.id).Perm (List.range last.admitted.length) ∧
        ∀ key,
          ((jobs.filter fun job => bucket options job = key).map Job.id).Pairwise (· < ·)) := by
  have hsize := (configured_of_create hcreate).2
  refine ⟨takeBatch_forms hsize, ?_, ?_⟩
  · intro before after pool last _ hafter p job hjob hp
    obtain ⟨arrivals, hserved, -, -⟩ := served_of_run hafter
    exact hserved.within hsize hjob hp
  · intro labels last hrun jobs
    obtain ⟨arrivals, hserved, hlength, hids⟩ := served_of_run hrun
    obtain ⟨hqueue, hadmitted⟩ : initial.queue = [] ∧ initial.admitted = [] := by
      unfold create at hcreate
      split_ifs at hcreate
      obtain rfl := Except.ok.inj hcreate
      exact ⟨rfl, rfl⟩
    rw [hadmitted, List.length_nil] at hlength hids
    rw [hqueue] at hserved
    constructor
    · have hperm := hserved.perm.map Job.id
      rw [List.nil_append, hids, ← List.range_eq_range'] at hperm
      rwa [hlength, Nat.zero_add]
    · intro key
      have hsorted : (arrivals.map Job.id).Pairwise (· < ·) := by
        rw [hids]
        exact List.pairwise_lt_range'
      rw [hserved.filter_eq key, List.nil_append]
      exact hsorted.sublist (List.filter_sublist.map _)

/-- Two rows of different buckets are admitted, and two workers wait for their batches. -/
def behindLabels : List (Label Nat) :=
  [.enqueue [{ input := lit "long input" }, { input := lit "in" }], .work 0 .wake, .work 1 .wake]

/-- Two workers form two batches, while another row of the first bucket arrives. -/
def servingLabels : List (Label Nat) :=
  [.work 0 .extract, .enqueue [{ input := lit "long input" }], .work 1 .extract]

/-- The row behind one of another bucket is in the second batch at the latest. -/
theorem batch_formation_behind : ∃ (pool : Pool Nat) (job : Job), pool.queue[1]? = some job ∧
    ∃ i ≤ 1, ∃ batch, job ∈ batch ∧ (extractions
      { workerCount := 2, maxDelay := 0, lengthBucketWidth := 4 } pool servingLabels)[i]? =
        some batch := by
  obtain ⟨initial, pool, last, job, hcreate, hbefore, hafter, hjob, hcount⟩ :
      ∃ (initial pool last : Pool Nat) (job : Job),
        create true { workerCount := 2, maxDelay := 0, lengthBucketWidth := 4 } { now := 0 } =
          .ok initial ∧
        Run (step { workerCount := 2, maxDelay := 0, lengthBucketWidth := 4 }) initial behindLabels
          pool ∧
        Run (step { workerCount := 2, maxDelay := 0, lengthBucketWidth := 4 }) pool servingLabels
          last ∧
        pool.queue[1]? = some job ∧
        1 < (extractions { workerCount := 2, maxDelay := 0, lengthBucketWidth := 4 } pool
          servingLabels).length :=
    ⟨_, _, _, _, rfl, rfl, rfl, rfl, by decide⟩
  obtain ⟨-, hwithin, -⟩ := batch_formation hcreate
  obtain ⟨i, hi, batch, hbatch, hmem⟩ :=
    hwithin behindLabels servingLabels pool last hbefore hafter 1 job hjob hcount
  exact ⟨pool, job, hjob, i, hi, batch, hmem, hbatch⟩

end Pool

end Jevt
