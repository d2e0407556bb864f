import Jevt.Batching.Delivery
import Jevt.Library.Monitor

/-!
# The waits of the workers

In `Pool`, a wait of a worker ends when its predicate holds. The code implements it with the
condition variable `changed`: `run` waits twice, `enqueue`, `enqueue_callback`, `shutdown` and a
worker that has taken a batch call `notify_all` after they have given the mutex back, and the second
wait has a time limit. `waiting` is this discipline, and the monitored pool is the code with its
sleeping workers.

No wakeup is lost (`waiting_announces`), so the pool of the other modules is what the code does
(`wakeups_are_not_lost`), and the workers come to rest only when nothing is left to do
(`workers_come_to_rest`).
-/

namespace Jevt

open Library

variable {ρ : Type} {options : BatchingOptions}

namespace Pool

variable {pool pool' : Pool ρ}

/-- A worker stands at one of its two waits. -/
def stands (pool : Pool ρ) (index : Nat) : Bool :=
  match pool.workers[index]? with
  | some .idle => true
  | some (.waiting _) => true
  | _ => false

/-- The predicate a worker waits for. -/
def awaited (options : BatchingOptions) (pool : Pool ρ) (index : Nat) : Bool :=
  match pool.workers[index]? with
  | some .idle => pool.stopping || !pool.queue.isEmpty
  | some (.waiting _) => pool.ready options
  | _ => false

/-- The time of the second wait is up. -/
def overdue (pool : Pool ρ) (index : Nat) : Bool :=
  match pool.workers[index]? with
  | some (.waiting deadline) => decide (deadline ≤ pool.environment.now)
  | _ => false

/-- The worker that takes a step. -/
def actor : Label ρ → Option Nat
  | .work index _ => some index
  | _ => none

/-- The steps that are followed by `changed.notify_all()`: rows are admitted, the pool is shut down,
or a batch is taken. A worker that finds its queue empty behind the second wait goes on without. -/
def notifies (options : BatchingOptions) (pool : Pool ρ) : Label ρ → Bool
  | .enqueue rows =>
    !decide (pool.stopping = true ∨
      rows.length > sizeSub options.queueCapacity pool.queue.length)
  | .enqueueCallback _ callback =>
    callback && !decide (pool.stopping = true ∨ pool.queue.length = options.queueCapacity)
  | .shutdown => true
  | .work _ .extract => !pool.queue.isEmpty
  | _ => false

/-- The waits of `run` for `changed`. -/
def waiting (options : BatchingOptions) : Discipline (Pool ρ) (Label ρ) where
  step := step options
  actor := actor
  waits := stands
  holds := awaited options
  expired := overdue
  notifies := notifies options

/-! ## Steps that are not announced -/

/-- A step of another thread does not move a worker. -/
theorem worker_of_step {label : Label ρ} {index : Nat} (h : pool.step options label = some pool')
    (hother : actor label ≠ some index) : pool'.workers[index]? = pool.workers[index]? := by
  cases label with
  | enqueue rows =>
    obtain rfl := Option.some.inj h
    unfold enqueue
    split_ifs <;> rfl
  | enqueueCallback request callback =>
    unfold step enqueueCallback at h
    cases callback with
    | false => exact Option.some.inj h ▸ rfl
    | true =>
      simp only [Bool.true_eq_false, if_false] at h
      split_ifs at h <;> exact Option.some.inj h ▸ rfl
  | shutdown => exact Option.some.inj h ▸ rfl
  | advance now =>
    unfold step at h
    dsimp only at h
    split_ifs at h
    exact Option.some.inj h ▸ rfl
  | requestStop source => exact Option.some.inj h ▸ rfl
  | work j action =>
    unfold step at h
    dsimp only at h
    split at h
    · cases h
    · split at h
      · cases h
      · next hact =>
        obtain rfl := Option.some.inj h
        have hne : j ≠ index := fun heq => hother (congrArg some heq)
        show (List.set _ j _)[index]? = _
        rw [List.getElem?_set_ne hne, (acts_of_act hact).workers]

/-- The queue is left alone by the actions of a worker other than taking a batch. -/
theorem Acts.queue_eq {worker worker' : Worker ρ} (h : Acts options pool worker pool' worker') :
    pool'.queue = pool.queue ∨ ∃ deadline, worker = .waiting deadline ∧ pool.queue ≠ [] := by
  cases h with
  | extract hqueue htake => exact .inr ⟨_, rfl, hqueue ▸ List.cons_ne_nil _ _⟩
  | _ => exact .inl rfl

/-- **A step that is not announced leaves the queue and the flag of the shutdown alone.** -/
theorem unannounced {label : Label ρ} (h : pool.step options label = some pool')
    (hquiet : notifies options pool label = false) :
    pool'.queue = pool.queue ∧ pool'.stopping = pool.stopping := by
  cases label with
  | enqueue rows =>
    obtain rfl := Option.some.inj h
    have hfull : pool.stopping = true ∨
        rows.length > sizeSub options.queueCapacity pool.queue.length :=
      of_decide_eq_true (by simpa only [notifies, Bool.not_eq_false'] using hquiet)
    unfold enqueue
    rw [if_pos hfull]
    exact ⟨rfl, rfl⟩
  | enqueueCallback request callback =>
    unfold step enqueueCallback at h
    cases callback with
    | false => exact Option.some.inj h ▸ ⟨rfl, rfl⟩
    | true =>
      have hfull : pool.stopping = true ∨ pool.queue.length = options.queueCapacity :=
        of_decide_eq_true (by simpa only [notifies, Bool.true_and, Bool.not_eq_false'] using hquiet)
      simp only [Bool.true_eq_false, if_false, if_pos hfull] at h
      exact Option.some.inj h ▸ ⟨rfl, rfl⟩
  | shutdown => cases hquiet
  | advance now =>
    unfold step at h
    dsimp only at h
    split_ifs at h
    exact Option.some.inj h ▸ ⟨rfl, rfl⟩
  | requestStop source => exact Option.some.inj h ▸ ⟨rfl, rfl⟩
  | work index action =>
    unfold step at h
    dsimp only at h
    split at h
    · cases h
    · split at h
      · cases h
      · next hact =>
        obtain rfl := Option.some.inj h
        have hacts := acts_of_act hact
        refine ⟨?_, hacts.frame.2.1⟩
        rcases hacts.queue_eq with heq | ⟨deadline, rfl, hqueue⟩
        · exact heq
        · -- only taking a batch is left to a worker in its second wait, and that is announced
          cases action with
          | extract =>
            have hempty : pool.queue = [] := by simpa [notifies] using hquiet
            exact absurd hempty hqueue
          | _ => cases hact

/-- **The code calls `notify_all` often enough.** -/
theorem waiting_announces (options : BatchingOptions) :
    (waiting options).Announces (Consistent (ρ := ρ) options) where
  keeps h hstep := h.step hstep
  ends := by
    intro pool label pool' index _ hstep hactor hwaits
    cases label with
    | work j action =>
      obtain rfl := Option.some.inj hactor
      change stands pool j = true at hwaits
      show awaited options pool j = true ∨ overdue pool j = true
      change pool.step options (.work j action) = some pool' at hstep
      unfold step at hstep
      unfold stands at hwaits
      unfold awaited overdue
      dsimp only at hstep
      cases hworker : pool.workers[j]? with
      | none =>
        rw [hworker] at hstep
        cases hstep
      | some worker =>
        rw [hworker] at hstep hwaits
        cases worker with
        | idle =>
          left
          cases hqueue : pool.queue with
          | cons front rest => simp
          | nil =>
            cases hstopping : pool.stopping with
            | true => rfl
            | false => cases action <;> simp [act, wake, hqueue, hstopping] at hstep
        | waiting deadline =>
          cases action with
          | extract =>
            by_cases hready : pool.ready options = true ∨ deadline ≤ pool.environment.now
            · exact hready.imp_right fun hdue => decide_eq_true hdue
            · simp [act, extract, hready] at hstep
          | _ => cases hstep
        | running turn => cases hwaits
        | exited => cases hwaits
    | _ => cases hactor
  stays := by
    intro pool label pool' index _ hstep hother hwaits
    show stands pool' index = true
    unfold stands
    rw [worker_of_step hstep hother]
    exact hwaits
  announces := by
    intro pool label pool' index _ hstep hother _ hbefore hafter
    by_contra hquiet
    obtain ⟨hqueue, hstopping⟩ := unannounced hstep (Bool.eq_false_of_not_eq_true hquiet)
    have hsame : awaited options pool' index = awaited options pool index := by
      unfold awaited ready
      rw [worker_of_step hstep hother, hqueue, hstopping]
    exact Bool.false_ne_true (hbefore.symm.trans (hsame.symm.trans hafter))

/-! ## Nobody sleeps through a deadline -/

/-- The queue is in the order of arrival, and a worker in its second wait waits for no job longer
than a batch may. -/
structure Timely (options : BatchingOptions) (pool : Pool ρ) : Prop where
  sorted : (pool.queue.map Job.arrival).Pairwise (· ≤ ·)
  arrived : ∀ job ∈ pool.queue, job.arrival ≤ pool.environment.now
  near : ∀ deadline, .waiting deadline ∈ pool.workers →
    deadline ≤ pool.environment.now + 1000 * options.maxDelay
  soon : ∀ deadline, .waiting deadline ∈ pool.workers → ∀ job ∈ pool.queue,
    deadline ≤ job.arrival + 1000 * options.maxDelay

/-- A pool that has fewer jobs queued, at a later time, and no new worker in its second wait. -/
theorem Timely.of_sublist (h : Timely options pool) (hqueue : pool'.queue.Sublist pool.queue)
    (hnow : pool.environment.now ≤ pool'.environment.now)
    (hworkers : ∀ deadline, .waiting deadline ∈ pool'.workers →
      .waiting deadline ∈ pool.workers) : Timely options pool' where
  sorted := h.sorted.sublist (hqueue.map _)
  arrived job hjob := (h.arrived job (hqueue.subset hjob)).trans hnow
  near deadline hworker := (h.near deadline (hworkers deadline hworker)).trans (by omega)
  soon deadline hworker job hjob := h.soon deadline (hworkers deadline hworker) job
    (hqueue.subset hjob)

/-- The jobs of new rows arrive now. -/
theorem Timely.accept (h : Timely options pool) (rows : List InferenceRequest)
    (receiver : Receiver) : Timely options (pool.accept rows receiver) := by
  have hnew : ∀ job ∈ pool.newJobs rows receiver, job.arrival = pool.environment.now := by
    intro job hjob
    obtain ⟨row, -, rfl⟩ := List.mem_map.1 hjob
    rfl
  refine ⟨?_, fun job hjob => ?_, h.near, fun deadline hworker job hjob => ?_⟩
  · show ((pool.queue ++ pool.newJobs rows receiver).map Job.arrival).Pairwise (· ≤ ·)
    rw [List.map_append, List.pairwise_append]
    refine ⟨h.sorted, ?_, fun a ha b hb => ?_⟩
    · refine List.pairwise_map.2 (List.pairwise_of_forall_mem_list fun a ha b hb => ?_)
      rw [hnew a ha, hnew b hb]
    · obtain ⟨old, hold, rfl⟩ := List.mem_map.1 ha
      obtain ⟨new, hnew', rfl⟩ := List.mem_map.1 hb
      rw [hnew new hnew']
      exact h.arrived old hold
  · rcases List.mem_append.1 hjob with hold | hnew'
    · exact h.arrived job hold
    · exact (hnew job hnew').le
  · rcases List.mem_append.1 hjob with hold | hnew'
    · exact h.soon deadline hworker job hold
    · rw [hnew job hnew']
      exact h.near deadline hworker

/-- A worker that acts keeps the pool timely: its deadline is that of the oldest job. -/
theorem Timely.work (h : Timely options pool) {before after : List (Worker ρ)}
    {worker worker' : Worker ρ} (hworkers : pool.workers = before ++ worker :: after)
    (hacts : Acts options pool worker pool' worker') :
    Timely options { pool' with workers := before ++ worker' :: after } := by
  have hcases : ∀ {deadline}, .waiting deadline ∈ before ++ worker' :: after →
      .waiting deadline = worker' ∨ .waiting deadline ∈ pool.workers := by
    intro deadline hmem
    rw [hworkers]
    exact mem_replaced hmem
  have hold : ∀ {deadline}, worker' ≠ .waiting deadline →
      .waiting deadline ∈ before ++ worker' :: after → .waiting deadline ∈ pool.workers :=
    fun hne hmem => (hcases hmem).resolve_left fun heq => hne heq.symm
  cases hacts with
  | anchor hqueue =>
    rename_i front rest
    have hfront : ∀ job ∈ pool.queue, front.arrival ≤ job.arrival := by
      have hsorted := h.sorted
      rw [hqueue, List.map_cons, List.pairwise_cons] at hsorted
      intro job hjob
      rw [hqueue] at hjob
      rcases List.mem_cons.1 hjob with rfl | hjob
      · exact le_rfl
      · exact hsorted.1 _ (List.mem_map_of_mem hjob)
    have hnow := h.arrived front (hqueue ▸ List.mem_cons_self)
    refine ⟨h.sorted, h.arrived, fun deadline hmem => ?_, fun deadline hmem job hjob => ?_⟩
    · rcases hcases hmem with heq | hmem
      · rw [Worker.waiting.inj heq]
        exact Int.add_le_add_right hnow _
      · exact h.near deadline hmem
    · rcases hcases hmem with heq | hmem
      · rw [Worker.waiting.inj heq]
        exact Int.add_le_add_right (hfront job hjob) _
      · exact h.soon deadline hmem job hjob
  | extract hqueue htake =>
    rename_i deadline front rest batch left
    refine h.of_sublist ?_ le_rfl fun deadline => hold nofun
    have hleft : left = (takeBatch options (bucket options front) options.maxBatchSize
        (front :: rest)).2 := by rw [htake]
    rw [takeBatch_eq_select] at hleft
    rw [hqueue]
    exact hleft ▸ select_snd_sublist ..
  | _ => exact h.of_sublist (.refl _) le_rfl fun deadline => hold nofun

/-- Every step keeps the pool timely. -/
theorem Timely.step (h : Timely options pool) {label : Label ρ}
    (hstep : pool.step options label = some pool') : Timely options pool' := by
  cases moves_of_step hstep with
  | reject rows => exact h.of_sublist (.refl _) le_rfl fun _ => id
  | accept rows receiver hstopping hroom => exact h.accept rows receiver
  | surroundings hearlier hstopping => exact h.of_sublist (.refl _) hearlier.1 fun _ => id
  | work hworkers hacts => exact h.work hworkers hacts

/-- A new pool is timely. -/
theorem Timely.create {wrapped : Bool} {environment : Environment}
    (h : create wrapped options environment = .ok pool) : Timely options pool := by
  unfold Pool.create at h
  split_ifs at h
  obtain rfl := Except.ok.inj h
  have hnone : ∀ deadline, (.waiting deadline : Worker ρ) ∉
      List.replicate options.workerCount .idle :=
    fun deadline hmem => absurd (List.eq_of_mem_replicate hmem) nofun
  exact ⟨.nil, nofun, fun deadline hmem => absurd hmem (hnone deadline),
    fun deadline hmem => absurd hmem (hnone deadline)⟩

/-- **No wakeup is lost.** For every accepted configuration and every run of the pool with its
sleeping workers, in which callers, workers, calls of `notify_all` and spurious wakeups interleave
in any way: the critical sections of the run are a run of the pool whose waits end when their
predicates hold, and every run of that pool arises so; a worker that sleeps stands at a wait, and if
the predicate of its wait holds, a call of `notify_all` is ahead; and as soon as the oldest job has
waited as long as a batch may, the only workers that sleep are those whose time is up, unless a call
of `notify_all` is ahead. -/
theorem wakeups_are_not_lost {wrapped : Bool} {environment : Environment} {initial : Pool ρ}
    (hcreate : create wrapped options environment = .ok initial) :
    (∀ signals m, Run (waiting options).signal { inner := initial } signals m →
      Run (step options) initial (Discipline.acts signals) m.inner ∧
        (∀ i ∈ m.asleep, stands m.inner i = true ∧
          (awaited options m.inner i = true → m.notices ≠ [])) ∧
        ∀ front rest, m.inner.queue = front :: rest →
          front.arrival + 1000 * options.maxDelay ≤ m.inner.environment.now →
          m.notices = [] → ∀ i ∈ m.asleep, overdue m.inner i = true) ∧
    ∀ labels pool, Run (step options) initial labels pool →
      ∃ signals, Discipline.acts signals = labels ∧
        Run (waiting options).signal { inner := initial } signals { inner := pool } := by
  refine ⟨fun signals m hrun => ?_, fun labels pool hrun => Discipline.exists_run hrun⟩
  have hinner := Discipline.refines hrun
  obtain ⟨-, hsound⟩ :=
    Discipline.sound_of_run (waiting_announces options) (.create hcreate) hrun
  have htimely : Timely options m.inner :=
    Reachable.invariant (.create hcreate) (fun _ _ _ hI hstep => hI.step hstep) ⟨_, hinner⟩
  refine ⟨hinner, fun i hi => ⟨hsound.waits i hi, hsound.noticed i hi⟩, ?_⟩
  intro front rest hqueue hdue hnotices i hi
  have hstands : stands m.inner i = true := hsound.waits i hi
  have hnot : awaited options m.inner i ≠ true := fun h => hsound.noticed i hi h hnotices
  unfold stands at hstands
  unfold awaited at hnot
  unfold overdue
  cases hworker : m.inner.workers[i]? with
  | none => simp [hworker] at hstands
  | some worker =>
    rw [hworker] at hstands hnot
    cases worker with
    | idle =>
      -- an idle worker waits for a job, and one is queued
      exact absurd (by rw [hqueue]; simp) hnot
    | waiting deadline =>
      have hsoon := htimely.soon deadline (List.mem_of_getElem? hworker) front
        (hqueue ▸ List.mem_cons_self)
      exact decide_eq_true (hsoon.trans hdue)
    | running turn => cases hstands
    | exited => cases hstands

/-! ## The workers come to rest -/

/-- A label that gives the workers nothing to do. -/
def Label.isQuiet : Label ρ → Bool
  | .advance _ => true
  | .requestStop _ => true
  | .work _ _ => true
  | _ => false

/-- The pool at another time. -/
def later (m : Monitored (Pool ρ)) (now : Int) : Monitored (Pool ρ) :=
  { m with inner := { m.inner with environment := { m.inner.environment with now } } }

/-- No thread of the pool can take a step, however late it is and whatever the wrapped backend
answers. -/
def AtRest (options : BatchingOptions) (m : Monitored (Pool ρ)) : Prop :=
  ∀ now, m.inner.environment.now ≤ now → ∀ s, (waiting options).ofThreads s = true →
    (waiting options).signal (later m now) s = none

/-- A pool that is not at rest can go on. -/
theorem AtRest.act_eq_none {m : Monitored (Pool ρ)} (hrest : AtRest options m)
    (hsound : (waiting options).Sound m) (hconsistent : Consistent options m.inner) {now : Int}
    (hnow : m.inner.environment.now ≤ now) {index : Nat} {worker : Worker ρ}
    (hworker : m.inner.workers[index]? = some worker) (action : Action ρ) :
    (later m now).inner.act options worker action = none := by
  by_contra hact
  obtain ⟨⟨pool', worker'⟩, hact⟩ := Option.ne_none_iff_exists'.1 hact
  have hworker' : (later m now).inner.workers[index]? = some worker := hworker
  obtain ⟨before, after, -, hstep⟩ := step_work hworker' hact
  have hadvance : m.inner.step options (.advance now) = some (later m now).inner := if_pos hnow
  have hsound' : (waiting options).Sound (later m now) := by
    refine hsound.act (a := .advance now) (waiting_announces options) hconsistent ?_
    exact Discipline.signal_act.2 ⟨rfl, _, hadvance, rfl⟩
  rcases hsound'.exists_signal (a := .work index action) (i := index) (waiting_announces options)
    (hconsistent.step hadvance) rfl hstep with ⟨m', hsignal, -⟩ | ⟨who, m', hsignal⟩
  · exact absurd ((hrest now hnow _ rfl).symm.trans hsignal) nofun
  · exact absurd ((hrest now hnow _ rfl).symm.trans hsignal) nofun

/-- A pool whose workers cannot act, however late it is, has nothing left to do: no worker has a
batch or is in its second wait, nothing is queued, and after a shutdown all workers have exited. -/
theorem Consistent.settled (h : Consistent options pool) (hworkers : 0 < options.workerCount)
    (hstuck : ∀ now, pool.environment.now ≤ now → ∀ worker ∈ pool.workers, ∀ action,
      Pool.act options { pool with environment := { pool.environment with now } } worker action =
        none) :
    ¬pool.HasWork ∧ ∀ worker ∈ pool.workers,
      worker = if pool.stopping then .exited else .idle := by
  have hworker : ∀ worker ∈ pool.workers,
      worker = .exited ∨ worker = .idle ∧ pool.queue = [] ∧ pool.stopping = false := by
    intro worker hmem
    cases worker with
    | exited => exact .inl rfl
    | idle =>
      refine .inr ⟨rfl, ?_⟩
      have hnone := hstuck _ le_rfl _ hmem .wake
      have hwake : pool.wake options = none := Option.map_eq_none_iff.1 hnone
      unfold wake at hwake
      split at hwake
      · next hqueue =>
        split_ifs at hwake with hstopping
        exact ⟨hqueue, Bool.eq_false_of_not_eq_true hstopping⟩
      · cases hwake
    | waiting deadline =>
      have hextract := hstuck _ (le_max_left _ deadline) _ hmem .extract
      unfold act extract at hextract
      dsimp only at hextract
      rw [if_pos (.inr (le_max_right _ _))] at hextract
      split at hextract <;> cases hextract
    | running turn =>
      obtain ⟨action, -, hsome⟩ :=
        exists_act_running options pool (fun _ => .otherException) (h.covered _ hmem)
      have hnone : pool.act options (.running turn) action = none :=
        hstuck _ le_rfl _ hmem action
      rw [hnone] at hsome
      cases hsome
  have hqueue : pool.queue = [] := by
    have hlt : 0 < pool.workers.length := h.workers.symm ▸ hworkers
    have hmem := List.getElem_mem hlt
    rcases hworker _ hmem with hexited | ⟨-, hqueue, -⟩
    · exact (h.exited (hexited ▸ hmem)).2
    · exact hqueue
  refine ⟨?_, fun worker hmem => ?_⟩
  · rintro (hne | ⟨worker, hmem, hbusy⟩)
    · exact hne hqueue
    · rcases hworker worker hmem with rfl | ⟨rfl, -⟩ <;> exact hbusy
  · rcases hworker worker hmem with rfl | ⟨rfl, -, hstopping⟩
    · rw [if_pos (h.exited hmem).1]
    · rw [hstopping]
      rfl

/-- A pool at rest has nothing left to do. -/
theorem AtRest.settled {m : Monitored (Pool ρ)} (hrest : AtRest options m)
    (hsound : (waiting options).Sound m) (hconsistent : Consistent options m.inner)
    (hworkers : 0 < options.workerCount) :
    ¬m.inner.HasWork ∧ ∀ worker ∈ m.inner.workers,
      worker = if m.inner.stopping then .exited else .idle := by
  refine hconsistent.settled hworkers fun now hnow worker hmem action => ?_
  obtain ⟨index, hindex⟩ := List.mem_iff_getElem?.1 hmem
  exact hrest.act_eq_none hsound hconsistent hnow hindex action

/-- The steps of the workers that a pool with its sleeping workers can take without new work. -/
def effort (options : BatchingOptions) (m : Monitored (Pool ρ)) : Nat :=
  Discipline.effort options.workerCount remaining m

/-- The labels of the callers apart, every step is quiet. -/
theorem quiet_of_isQuiet {signals : List (Signal (Label ρ))}
    (h : ∀ label ∈ Discipline.acts signals, label.isQuiet = true) :
    ∀ s ∈ signals, (waiting options).Quiet remaining s := by
  intro s hs
  cases s with
  | act label =>
    have hmem : label ∈ Discipline.acts signals := by
      obtain ⟨before, after, rfl⟩ := List.append_of_mem hs
      rw [Discipline.acts_append]
      exact List.mem_append_right _ List.mem_cons_self
    intro hactor pool pool' hstep
    change pool.step options label = some pool' at hstep
    have hlabel := h label hmem
    cases label with
    | enqueue rows => cases hlabel
    | enqueueCallback request callback => cases hlabel
    | shutdown => cases hlabel
    | advance now =>
      unfold step at hstep
      dsimp only at hstep
      split_ifs at hstep
      exact Option.some.inj hstep ▸ ⟨rfl, le_rfl⟩
    | requestStop source => exact Option.some.inj hstep ▸ ⟨rfl, le_rfl⟩
    | work index action => cases hactor
  | _ => trivial

/-- Only the workers stand at a wait. -/
theorem stands_lt (h : Consistent options pool) {index : Nat} (hstands : stands pool index = true) :
    index < options.workerCount := by
  rw [← h.workers]
  by_contra hge
  have hnone : pool.workers[index]? = none := List.getElem?_eq_none (Nat.le_of_not_lt hge)
  rw [stands, hnone] at hstands
  cases hstands

/-- A step of a worker lowers the work that remains. -/
theorem remaining_lt_of_step (hroom : 0 < options.maxBatchSize) {label : Label ρ}
    (hactor : actor label ≠ none) (hstep : pool.step options label = some pool') :
    pool'.remaining < pool.remaining := by
  cases label with
  | work index action =>
    obtain ⟨before, worker, after, middle, worker', hsplit, hacts, rfl⟩ := acts_of_step hstep
    exact hacts.remaining_lt hsplit hroom
  | _ => exact absurd rfl hactor

/-- Two workers go to sleep, a row is admitted, and both are woken up. One of them takes the batch
while the other one waits for the rest of it, and is woken up again. -/
def sleepers : List (Signal (Label Nat)) :=
  [.sleep 0, .sleep 1, .act (.enqueue [{}]), .notify none, .act (.work 1 .wake),
    .act (.work 0 .wake), .sleep 1, .act (.advance 1000000), .act (.work 0 .extract)]

/-- The worker that sleeps in its second wait has a wakeup ahead, because its batch is gone. -/
theorem wakeups_are_not_lost_sleepers :
    ∃ m : Monitored (Pool Nat), m.asleep = [1] ∧ m.inner.queue = [] ∧
      m.notices = [some 0] ∧ stands m.inner 1 = true ∧
      (awaited { workerCount := 2 } m.inner 1 = true → m.notices ≠ []) := by
  obtain ⟨initial, m, hcreate, hrun, hasleep, hqueue, hnotices⟩ :
      ∃ (initial : Pool Nat) (m : Monitored (Pool Nat)),
        create true { workerCount := 2 } { now := 0 } = .ok initial ∧
        Run (waiting { workerCount := 2 }).signal { inner := initial } sleepers m ∧
        m.asleep = [1] ∧ m.inner.queue = [] ∧ m.notices = [some 0] :=
    ⟨_, _, rfl, rfl, rfl, rfl, rfl⟩
  obtain ⟨-, hsleep, -⟩ := (wakeups_are_not_lost hcreate).1 sleepers m hrun
  have hone := hsleep 1 (hasleep ▸ List.mem_singleton_self 1)
  exact ⟨m, hasleep, hqueue, hnotices, hone⟩

end Pool

end Jevt
