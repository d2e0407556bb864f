import Jevt.Batching.Invariant

/-!
# The workers get everything done

Left alone, the workers of a pool complete every admitted job (`Consistent.drains`): as long as
there is work, some worker can act, if need be after the time a batch may wait
(`Consistent.exists_act`), and every action lowers the work that remains (`Acts.remaining_lt`). The
wrapped backend may do anything as long as its calls end.
-/

namespace Jevt

open Library

variable {ρ : Type} {options : BatchingOptions}

/-- A bound for the actions that remain of a turn: a row may take a check, a call of `finish` after
a failed preflight or a place among the active jobs, and a call of `finish` in the end. -/
def Turn.remaining (turn : Turn ρ) : Nat :=
  turn.pending.length + match turn.phase with
    | .preflight =>
      2 * (turn.batch.length - turn.next) + (turn.batch.length + turn.active.length) + 3
    | .calling => turn.batch.length + turn.active.length + 2
    | .answered => 1

/-- The actions of a worker that remain, apart from those for jobs in the queue. An idle worker is
drawn to its second wait by a job in the queue, and a waiting one back when another worker has taken
the last one. -/
def Worker.remaining (queued : Bool) : Worker ρ → Nat
  | .idle => if queued then 2 else 1
  | .waiting _ => if queued then 1 else 2
  | .running turn => turn.remaining + 2
  | .exited => 0

/-- A worker that has a batch. -/
def Worker.Busy : Worker ρ → Prop
  | .running _ => True
  | _ => False

namespace Pool

variable {pool pool' : Pool ρ} {worker worker' : Worker ρ}

/-- The work that remains. -/
def remaining (pool : Pool ρ) : Nat :=
  pool.queue.length * (pool.workers.length + 9) +
    (pool.workers.map (Worker.remaining !pool.queue.isEmpty)).sum

/-- There is work as long as a job is queued or a worker has a batch. -/
def HasWork (pool : Pool ρ) : Prop :=
  pool.queue ≠ [] ∨ ∃ worker ∈ pool.workers, worker.Busy

/-! ## Every action counts -/

/-- The oldest job is always taken. -/
theorem takeBatch_front (options : BatchingOptions) (front : Job) (rest : List Job)
    (hroom : 0 < options.maxBatchSize) :
    0 < (takeBatch options (bucket options front) options.maxBatchSize
      (front :: rest)).1.length := by
  obtain ⟨room, hroom'⟩ := Nat.exists_eq_add_of_le' hroom
  rw [hroom', takeBatch, if_pos rfl]
  exact Nat.succ_pos _

/-- There are at most as many calls of `finish` as a turn has reckoned with. -/
theorem length_deliveries_le (turn : Turn ρ) (a : Answer ρ) :
    (deliveries turn a).length ≤ turn.batch.length + turn.active.length := by
  have hlength : (deliveries turn a).length = ((deliveries turn a).map Prod.fst).length :=
    (List.length_map _).symm
  rcases map_fst_deliveries turn a with heq | heq <;> rw [hlength, heq]
  · exact Nat.le_add_left _ _
  · rw [List.length_map]
    exact Nat.le_add_right _ _

/-- What remains for a worker depends little on the queue. -/
theorem remaining_le (queued queued' : Bool) (worker : Worker ρ) :
    worker.remaining queued ≤ worker.remaining queued' + 1 := by
  cases worker <;> cases queued <;> cases queued' <;> simp [Worker.remaining]

/-- What remains for the other workers rises by one each at most. -/
theorem sum_remaining_le (queued queued' : Bool) (workers : List (Worker ρ)) :
    (workers.map (Worker.remaining queued)).sum ≤
      (workers.map (Worker.remaining queued')).sum + workers.length := by
  induction workers with
  | nil => exact le_rfl
  | cons worker rest ih =>
    have hworker := remaining_le queued queued' worker
    simp only [List.map_cons, List.sum_cons, List.length_cons]
    omega

/-- An action takes a batch out of the queue, or it lowers what remains for its worker. -/
theorem Acts.remaining_worker (h : Acts options pool worker pool' worker')
    (hroom : 0 < options.maxBatchSize) :
    (pool'.queue = pool.queue ∧
      worker'.remaining (!pool.queue.isEmpty) < worker.remaining (!pool.queue.isEmpty)) ∨
    ∃ batch : List Job, 0 < batch.length ∧ worker' = .running { batch } ∧
      pool'.queue.length + batch.length = pool.queue.length := by
  cases h with
  | exit hqueue hstopping => exact .inl ⟨rfl, by simp [Worker.remaining, hqueue]⟩
  | anchor hqueue => exact .inl ⟨rfl, by simp [Worker.remaining, hqueue]⟩
  | lost hqueue => exact .inl ⟨rfl, by simp [Worker.remaining, hqueue]⟩
  | extract hqueue htake =>
    rename_i front rest batch left
    have hfront := takeBatch_front options front rest hroom
    have hlength := (perm_of_takeBatch htake).length_eq
    rw [htake] at hfront
    rw [← hqueue, List.length_append, Nat.add_comm] at hlength
    exact .inr ⟨batch, hfront, rfl, hlength⟩
  | refuse hphase hpending hjob hverdict =>
    rename_i turn job failure
    obtain ⟨hlt, -⟩ := List.getElem?_eq_some_iff.1 hjob
    refine .inl ⟨rfl, ?_⟩
    simp only [Worker.remaining, Turn.remaining, hphase, hpending, List.length_singleton,
      List.length_nil]
    omega
  | pass hphase hpending hjob hverdict =>
    rename_i turn job
    obtain ⟨hlt, -⟩ := List.getElem?_eq_some_iff.1 hjob
    refine .inl ⟨rfl, ?_⟩
    simp only [Worker.remaining, Turn.remaining, hphase, hpending, List.length_append,
      List.length_singleton, List.length_nil]
    omega
  | skip hphase hpending hnext hactive =>
    refine .inl ⟨rfl, ?_⟩
    simp only [Worker.remaining, Turn.remaining, hphase, hpending, List.length_nil]
    omega
  | call hphase hpending hnext =>
    refine .inl ⟨rfl, ?_⟩
    simp only [Worker.remaining, Turn.remaining, hphase, hpending, List.length_nil]
    omega
  | answer a hphase =>
    rename_i turn
    have hle := length_deliveries_le turn a
    refine .inl ⟨rfl, ?_⟩
    simp only [Worker.remaining, Turn.remaining, hphase]
    omega
  | finish hpending hjob =>
    refine .inl ⟨rfl, ?_⟩
    simp only [Worker.remaining, Turn.remaining, hpending, List.length_cons, List.length_map]
    omega
  | retire hphase hpending =>
    refine .inl ⟨rfl, ?_⟩
    simp only [Worker.remaining, Turn.remaining, hphase, hpending, List.length_nil]
    split_ifs <;> omega

/-- **Every action lowers the work that remains.** -/
theorem Acts.remaining_lt {before after : List (Worker ρ)}
    (hworkers : pool.workers = before ++ worker :: after)
    (h : Acts options pool worker pool' worker') (hroom : 0 < options.maxBatchSize) :
    remaining { pool' with workers := before ++ worker' :: after } < pool.remaining := by
  unfold remaining
  dsimp only
  rw [hworkers]
  simp only [List.length_append, List.length_cons, List.map_append, List.map_cons, List.sum_append,
    List.sum_cons]
  rcases h.remaining_worker hroom with ⟨hqueue, hlt⟩ | ⟨batch, hbatch, rfl, hlength⟩
  · rw [hqueue]
    omega
  · have hne : pool.queue ≠ [] := fun hnil => by
      rw [hnil, List.length_nil] at hlength
      omega
    have hbefore := sum_remaining_le (!pool'.queue.isEmpty) (!pool.queue.isEmpty) before
    have hafter := sum_remaining_le (!pool'.queue.isEmpty) (!pool.queue.isEmpty) after
    have hrunning : Worker.remaining (!pool'.queue.isEmpty) (.running { batch } : Worker ρ) =
        3 * batch.length + 5 := by
      simp only [Worker.remaining, Turn.remaining, List.length_nil]
      omega
    have hmul : before.length + (after.length + 1) ≤
        batch.length * (before.length + (after.length + 1)) := Nat.le_mul_of_pos_left _ hbatch
    rw [hrunning, ← hlength, Nat.add_mul, Nat.mul_add batch.length]
    omega

/-! ## There is always something to do -/

/-- A batch can be worked on, whatever the wrapped backend will answer. -/
theorem exists_act_running (options : BatchingOptions) (pool : Pool ρ)
    (backend : List InferenceRequest → Answer ρ) {turn : Turn ρ} (hcovered : turn.Covered) :
    ∃ action, (∀ a, action = .answer a → a = backend turn.views) ∧
      (pool.act options (.running turn) action).isSome = true := by
  cases hpending : turn.pending with
  | cons due rest =>
    have hmem : due.1 ∈ turn.batch.map Job.id := hcovered.pending (by rw [hpending]; simp)
    obtain ⟨job, hjob, hid⟩ := List.mem_map.1 hmem
    obtain ⟨found, hfound⟩ : ∃ found, turn.batch.find? (fun job => job.id = due.1) = some found :=
      Option.isSome_iff_exists.1 (List.find?_isSome.2 ⟨job, hjob, by simpa using hid⟩)
    exact ⟨.finish, nofun, by simp [act, finish, hpending, hfound]⟩
  | nil =>
    cases hphase : turn.phase with
    | preflight =>
      rcases hcovered.next.lt_or_eq with hlt | heq
      · exact ⟨.check, nofun, by simp [act, check, hphase, hpending, List.getElem?_eq_getElem hlt]⟩
      · refine ⟨.call, nofun, ?_⟩
        cases hactive : turn.active <;> simp [act, call, hphase, hpending, heq, hactive]
    | calling =>
      refine ⟨.answer (backend turn.views), fun a ha => ?_, by simp [act, answer, hphase]⟩
      exact (Action.answer.inj ha).symm
    | answered => exact ⟨.retire, nofun, by simp [act, retire, hphase, hpending]⟩

/-- What an action adds to the calls of the wrapped backend. -/
theorem dispatches_of_act {turn : Turn ρ} {action : Action ρ}
    (h : pool.act options (.running turn) action = some (pool', worker')) :
    ∀ d ∈ pool'.dispatches, d ∈ pool.dispatches ∨
      ∃ a, action = .answer a ∧ d = ⟨turn.active, turn.views, a⟩ := by
  intro d hd
  cases action with
  | wake => cases h
  | extract => cases h
  | check =>
    unfold act check at h
    dsimp only at h
    split at h
    · obtain ⟨rfl, -⟩ := Prod.mk.inj (Option.some.inj h)
      exact .inl hd
    · cases h
  | call =>
    unfold act call at h
    dsimp only at h
    split_ifs at h <;> obtain ⟨rfl, -⟩ := Prod.mk.inj (Option.some.inj h) <;> exact .inl hd
  | answer a =>
    unfold act answer at h
    dsimp only at h
    split_ifs at h
    obtain ⟨rfl, -⟩ := Prod.mk.inj (Option.some.inj h)
    rcases List.mem_append.1 hd with hd | hd
    · exact .inl hd
    · exact .inr ⟨a, rfl, List.mem_singleton.1 hd⟩
  | finish =>
    unfold act finish at h
    dsimp only at h
    split at h
    · cases h
    · split at h
      · cases h
      · obtain ⟨rfl, -⟩ := Prod.mk.inj (Option.some.inj h)
        exact .inl hd
  | retire =>
    unfold act retire at h
    dsimp only at h
    split_ifs at h
    obtain ⟨rfl, -⟩ := Prod.mk.inj (Option.some.inj h)
    exact .inl hd

/-! ## Runs of the workers -/

/-- The pool went on without new jobs and without cancellations, with a wrapped backend that answers
as given. -/
structure Continues (backend : List InferenceRequest → Answer ρ) (pool pool' : Pool ρ) : Prop where
  admitted : pool'.admitted = pool.admitted
  stopped : pool'.environment.stopped = pool.environment.stopped
  dispatches : ∀ d ∈ pool'.dispatches, d ∈ pool.dispatches ∨ d.answer = backend d.views

theorem Continues.trans {backend : List InferenceRequest → Answer ρ} {pool'' : Pool ρ}
    (h : Continues backend pool pool') (h' : Continues backend pool' pool'') :
    Continues backend pool pool'' :=
  ⟨h'.admitted.trans h.admitted, h'.stopped.trans h.stopped,
    fun d hd => (h'.dispatches d hd).elim (h.dispatches d) .inr⟩

/-- The step of a worker that can act. -/
theorem step_work {index : Nat} {action : Action ρ} (hworker : pool.workers[index]? = some worker)
    (hact : pool.act options worker action = some (pool', worker')) :
    ∃ before after, pool.workers = before ++ worker :: after ∧
      pool.step options (.work index action) =
        some { pool' with workers := before ++ worker' :: after } := by
  obtain ⟨before, after, hworkers, hset⟩ := split_at_index hworker
  refine ⟨before, after, hworkers, ?_⟩
  unfold step
  simp only [hworker, hact, (acts_of_act hact).workers, hset]

/-- The pool can go on and has less to do then. -/
def GoesOn (options : BatchingOptions) (backend : List InferenceRequest → Answer ρ)
    (pool : Pool ρ) : Prop :=
  ∃ labels pool', Run (Pool.step options) pool labels pool' ∧ Continues backend pool pool' ∧
    pool'.remaining < pool.remaining

/-- A pool goes on with any action of a worker. -/
theorem goesOn_of_act {backend : List InferenceRequest → Answer ρ} {index : Nat}
    {action : Action ρ} (hroom : 0 < options.maxBatchSize)
    (hworker : pool.workers[index]? = some worker)
    (hact : pool.act options worker action = some (pool', worker'))
    (hdispatches : ∀ d ∈ pool'.dispatches, d ∈ pool.dispatches ∨ d.answer = backend d.views) :
    GoesOn options backend pool := by
  have hacts := acts_of_act hact
  obtain ⟨before, after, hsplit, hstep⟩ := step_work hworker hact
  exact ⟨[.work index action], _, Run.cons_iff.2 ⟨_, hstep, Run.nil_iff.2 rfl⟩,
    ⟨hacts.frame.2.2.1, congrArg Environment.stopped hacts.frame.1, hdispatches⟩,
    hacts.remaining_lt hsplit hroom⟩

/-- A pool that goes on at a later time goes on. -/
theorem goesOn_of_later {backend : List InferenceRequest → Answer ρ} {now : Int}
    (hnow : pool.environment.now ≤ now)
    (h : GoesOn options backend { pool with environment := { pool.environment with now } }) :
    GoesOn options backend pool := by
  obtain ⟨labels, pool', hrun, hcontinues, hlt⟩ := h
  have hadvance : pool.step options (.advance now) =
      some { pool with environment := { pool.environment with now } } := if_pos hnow
  exact ⟨.advance now :: labels, pool', Run.cons_iff.2 ⟨_, hadvance, hrun⟩,
    ⟨hcontinues.admitted, hcontinues.stopped, hcontinues.dispatches⟩, hlt⟩

/-- A pool goes on as long as a worker has a batch. -/
theorem Consistent.goesOn_of_running (h : Consistent options pool)
    (backend : List InferenceRequest → Answer ρ) (hroom : 0 < options.maxBatchSize)
    {turn : Turn ρ} (hmem : .running turn ∈ pool.workers) : GoesOn options backend pool := by
  obtain ⟨index, hworker⟩ := List.mem_iff_getElem?.1 hmem
  obtain ⟨action, hanswer, hsome⟩ := exists_act_running options pool backend (h.covered _ hmem)
  obtain ⟨⟨pool', worker'⟩, hact⟩ := Option.isSome_iff_exists.1 hsome
  refine goesOn_of_act hroom hworker hact fun d hd => ?_
  rcases dispatches_of_act hact d hd with hold | ⟨a, ha, rfl⟩
  · exact .inl hold
  · exact .inr (hanswer a ha)

/-- A pool goes on when a worker waits for the rest of a batch: at the deadline at the latest the
worker takes what there is. -/
theorem goesOn_of_waiting (backend : List InferenceRequest → Answer ρ)
    (hroom : 0 < options.maxBatchSize) {index : Nat} {deadline : Int}
    (hworker : pool.workers[index]? = some (.waiting deadline)) (hqueue : pool.queue ≠ []) :
    GoesOn options backend pool := by
  obtain ⟨front, rest, hfront⟩ := List.exists_cons_of_ne_nil hqueue
  refine goesOn_of_later (le_max_left _ deadline) ?_
  set later : Pool ρ := { pool with environment :=
    { pool.environment with now := max pool.environment.now deadline } } with hlater
  obtain ⟨⟨pool', worker'⟩, hact⟩ : ∃ r, later.act options (.waiting deadline) .extract =
      some r := by
    simp [act, extract, hlater, hfront]
  have hlater' : later.workers[index]? = some (.waiting deadline) := hworker
  refine goesOn_of_act hroom hlater' hact fun d hd => .inl ?_
  cases acts_of_act hact with
  | lost => exact hd
  | extract => exact hd

/-- **As long as there is work, the pool can go on**, and less is left to do then. -/
theorem Consistent.exists_act (h : Consistent options pool)
    (backend : List InferenceRequest → Answer ρ) (hworkers : 0 < options.workerCount)
    (hroom : 0 < options.maxBatchSize) (hwork : pool.HasWork) : GoesOn options backend pool := by
  by_cases hbusy : ∃ worker ∈ pool.workers, worker.Busy
  · obtain ⟨worker, hmem, hbusy⟩ := hbusy
    cases worker with
    | running turn => exact h.goesOn_of_running backend hroom hmem
    | _ => exact hbusy.elim
  · have hqueue := hwork.resolve_right hbusy
    have hlt : 0 < pool.workers.length := h.workers.symm ▸ hworkers
    have hmem : pool.workers[0] ∈ pool.workers := List.getElem_mem hlt
    have hworker : pool.workers[0]? = some pool.workers[0] := List.getElem?_eq_getElem hlt
    cases hidle : pool.workers[0] with
    | idle =>
      rw [hidle] at hworker
      obtain ⟨front, rest, hfront⟩ := List.exists_cons_of_ne_nil hqueue
      have hact : pool.act options .idle .wake =
          some (pool, .waiting (front.arrival + 1000 * options.maxDelay)) := by
        simp [act, wake, hfront]
      exact goesOn_of_act hroom hworker hact fun d hd => .inl hd
    | waiting deadline =>
      rw [hidle] at hworker
      exact goesOn_of_waiting backend hroom hworker hqueue
    | running turn => exact absurd ⟨_, hmem, hidle ▸ trivial⟩ hbusy
    | exited => exact absurd (h.exited (hidle ▸ hmem)).2 hqueue

/-- **The workers complete every admitted job.** -/
theorem Consistent.drains (h : Consistent options pool)
    (backend : List InferenceRequest → Answer ρ) (hworkers : 0 < options.workerCount)
    (hroom : 0 < options.maxBatchSize) :
    ∃ labels pool', Run (Pool.step options) pool labels pool' ∧ Continues backend pool pool' ∧
      ¬pool'.HasWork := by
  induction hn : pool.remaining using Nat.strong_induction_on generalizing pool with
  | _ n ih =>
    by_cases hwork : pool.HasWork
    · obtain ⟨labels, pool', hrun, hcontinues, hlt⟩ := h.exists_act backend hworkers hroom hwork
      have hconsistent : Consistent options pool' :=
        Reachable.invariant h (fun _ _ _ hI hstep => hI.step hstep) ⟨labels, hrun⟩
      obtain ⟨labels', pool'', hrun', hcontinues', hdone⟩ :=
        ih pool'.remaining (hn ▸ hlt) hconsistent rfl
      exact ⟨labels ++ labels', pool'', hrun.trans hrun', hcontinues.trans hcontinues', hdone⟩
    · exact ⟨[], pool, Run.nil_iff.2 rfl, ⟨rfl, rfl, fun d hd => .inl hd⟩, hwork⟩

/-- Without work every admitted job is retired, and completed exactly once. -/
theorem Consistent.all_completed (h : Consistent options pool) (hdone : ¬pool.HasWork) :
    pool.retired.Perm (List.range pool.admitted.length) ∧
      (pool.completions.map Completion.job).Perm (List.range pool.admitted.length) := by
  have hqueue : pool.queue = [] := not_not.1 fun hne => hdone (.inl hne)
  have hbatch : ∀ worker ∈ pool.workers, worker.batch = [] := fun worker hworker => by
    cases worker with
    | running turn => exact absurd (.inr ⟨_, hworker, trivial⟩) hdone
    | _ => rfl
  have hids : pool.workers.flatMap Worker.ids = [] :=
    List.flatMap_eq_nil_iff.2 fun worker hworker => by
      rw [Worker.ids, hbatch worker hworker, List.map_nil]
  have hfinished : pool.workers.flatMap Worker.finished = [] :=
    List.flatMap_eq_nil_iff.2 fun worker hworker => by
      rw [Worker.finished, hbatch worker hworker, List.filter_nil, List.map_nil]
  have honce := h.once
  have hlogged := h.logged
  rw [hqueue, hids, List.map_nil, List.append_nil, List.nil_append] at honce
  rw [hfinished, List.append_nil] at hlogged
  exact ⟨honce, hlogged.trans honce⟩

/-- A label of a worker. -/
def Label.isWork : Label ρ → Bool
  | .work _ _ => true
  | _ => false

/-- A label of a caller that submits something. -/
def Label.isSubmission : Label ρ → Bool
  | .enqueue _ => true
  | .enqueueCallback _ _ => true
  | _ => false

/-- The steps of the workers lower the work that remains, and the surroundings do not raise it. -/
theorem remaining_of_step (hroom : 0 < options.maxBatchSize) {label : Label ρ}
    (hlabel : label.isSubmission = false) (hstep : pool.step options label = some pool') :
    (if label.isWork then 1 else 0) + pool'.remaining ≤ pool.remaining := by
  cases label with
  | enqueue rows => cases hlabel
  | enqueueCallback request callback => cases hlabel
  | shutdown =>
    obtain rfl := Option.some.inj hstep
    exact (Nat.zero_add _).le
  | advance now =>
    unfold step at hstep
    dsimp only at hstep
    split_ifs at hstep
    obtain rfl := Option.some.inj hstep
    exact (Nat.zero_add _).le
  | requestStop source =>
    obtain rfl := Option.some.inj hstep
    exact (Nat.zero_add _).le
  | work index action =>
    obtain ⟨before, worker, after, middle, worker', hworkers, hacts, rfl⟩ := acts_of_step hstep
    have hlt := hacts.remaining_lt hworkers hroom
    exact (Nat.add_comm _ _).trans_le hlt

/-- Without submissions the workers take no more steps than remain, in whatever order. -/
theorem work_le_remaining (hroom : 0 < options.maxBatchSize) :
    ∀ {labels : List (Label ρ)} {pool pool' : Pool ρ},
      (∀ label ∈ labels, label.isSubmission = false) → Run (step options) pool labels pool' →
      labels.countP Label.isWork + pool'.remaining ≤ pool.remaining
  | [], pool, pool', _, hrun => by
      obtain rfl := Run.nil_iff.1 hrun
      exact (Nat.zero_add _).le
  | label :: labels, pool, pool', hlabels, hrun => by
      obtain ⟨hlabel, hrest⟩ := List.forall_mem_cons.1 hlabels
      obtain ⟨middle, hstep, hrun'⟩ := Run.cons_iff.1 hrun
      have ih := work_le_remaining hroom hrest hrun'
      have hfirst := remaining_of_step hroom hlabel hstep
      rw [List.countP_cons]
      omega

end Pool

end Jevt
