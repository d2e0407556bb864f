import Jevt.Batching.Pool
import Jevt.Library.Run

/-!
# What a step of the pool can do

Everything later argues from two statements: what one action of a worker changes (`Acts`,
`acts_of_act`), and what one step of the machine changes (`Moves`, `moves_of_step`): the callers
admit or refuse rows, the surroundings change, or one worker acts and the others stay as they are.
-/

namespace Jevt.Pool

variable {ρ : Type} {options : BatchingOptions} {pool pool' : Pool ρ}

/-! ## Workers -/

/-- What an action of a worker does to the pool and to the worker. -/
inductive Acts (options : BatchingOptions) (pool : Pool ρ) : Worker ρ → Pool ρ → Worker ρ → Prop
  | exit (hqueue : pool.queue = []) (hstopping : pool.stopping = true) :
    Acts options pool .idle pool .exited
  | anchor {front : Job} {rest : List Job} (hqueue : pool.queue = front :: rest) :
    Acts options pool .idle pool (.waiting (front.arrival + 1000 * options.maxDelay))
  | lost {deadline : Int} (hqueue : pool.queue = []) :
    Acts options pool (.waiting deadline) pool .idle
  | extract {deadline : Int} {front : Job} {rest : List Job} (hqueue : pool.queue = front :: rest)
      {batch left : List Job}
      (htake : takeBatch options (bucket options front) options.maxBatchSize (front :: rest) =
        (batch, left)) :
    Acts options pool (.waiting deadline)
      { pool with
        queue := left
        counters := { pool.counters with inFlight := pool.counters.inFlight + batch.length } }
      (.running { batch })
  | refuse {turn : Turn ρ} {job : Job} {failure : Error} (hphase : turn.phase = .preflight)
      (hpending : turn.pending = []) (hjob : turn.batch[turn.next]? = some job)
      (hverdict : executionError pool.environment job.request = some failure) :
    Acts options pool (.running turn)
      { pool with preflights := pool.preflights ++ [(job.id, some failure)] }
      (.running { turn with next := turn.next + 1, pending := [(job.id, .error failure)] })
  | pass {turn : Turn ρ} {job : Job} (hphase : turn.phase = .preflight)
      (hpending : turn.pending = []) (hjob : turn.batch[turn.next]? = some job)
      (hverdict : executionError pool.environment job.request = none) :
    Acts options pool (.running turn)
      { pool with preflights := pool.preflights ++ [(job.id, none)] }
      (.running { turn with
        next := turn.next + 1
        views := turn.views ++ [job.request]
        active := turn.active ++ [job.id] })
  | skip {turn : Turn ρ} (hphase : turn.phase = .preflight) (hpending : turn.pending = [])
      (hnext : turn.next = turn.batch.length) (hactive : turn.active = []) :
    Acts options pool (.running turn) pool (.running { turn with phase := .answered })
  | call {turn : Turn ρ} (hphase : turn.phase = .preflight) (hpending : turn.pending = [])
      (hnext : turn.next = turn.batch.length) :
    Acts options pool (.running turn)
      { pool with counters := { pool.counters with batches := pool.counters.batches + 1 } }
      (.running { turn with phase := .calling })
  | answer {turn : Turn ρ} (a : Answer ρ) (hphase : turn.phase = .calling) :
    Acts options pool (.running turn)
      { pool with dispatches := pool.dispatches ++ [⟨turn.active, turn.views, a⟩] }
      (.running { turn with phase := .answered, pending := deliveries turn a })
  | finish {turn : Turn ρ} {id : Nat} {response : Result ρ} {rest : List (Nat × Result ρ)}
      {job : Job} (hpending : turn.pending = (id, response) :: rest)
      (hjob : turn.batch.find? (fun job => job.id = id) = some job) :
    Acts options pool (.running turn)
      { pool with
        completions := pool.completions ++ (finishJob pool.environment job response).2.toList }
      (.running { turn with
        batch := turn.batch.map fun job' =>
          if job'.id = id then (finishJob pool.environment job response).1 else job'
        pending := rest })
  | retire {turn : Turn ρ} (hphase : turn.phase = .answered) (hpending : turn.pending = []) :
    Acts options pool (.running turn)
      { pool with
        counters := { pool.counters with
          inFlight := pool.counters.inFlight - turn.batch.length
          completed := pool.counters.completed + turn.batch.length }
        retired := pool.retired ++ turn.batch.map Job.id }
      .idle

/-- The actions of a worker do what `Acts` says. -/
theorem acts_of_act {worker worker' : Worker ρ} {action : Action ρ}
    (h : pool.act options worker action = some (pool', worker')) :
    Acts options pool worker pool' worker' := by
  unfold act at h
  split at h
  · rw [Option.map_eq_some_iff] at h
    obtain ⟨_, hwake, heq⟩ := h
    obtain ⟨rfl, rfl⟩ := Prod.mk.inj heq
    unfold wake at hwake
    split at hwake
    · next hqueue =>
      split_ifs at hwake with hstopping
      obtain rfl := Option.some.inj hwake
      exact .exit hqueue hstopping
    · next hqueue =>
      obtain rfl := Option.some.inj hwake
      exact .anchor hqueue
  · unfold extract at h
    split_ifs at h
    split at h
    · next hqueue =>
      obtain ⟨rfl, rfl⟩ := Prod.mk.inj (Option.some.inj h)
      exact .lost hqueue
    · next hqueue =>
      obtain ⟨rfl, rfl⟩ := Prod.mk.inj (Option.some.inj h)
      exact .extract hqueue rfl
  · unfold check at h
    split at h
    · next hphase hpending hjob =>
      obtain ⟨rfl, rfl⟩ := Prod.mk.inj (Option.some.inj h)
      split
      · next hverdict => exact hverdict ▸ .refuse hphase hpending hjob hverdict
      · next hverdict => exact hverdict ▸ .pass hphase hpending hjob hverdict
    · cases h
  · unfold call at h
    split_ifs at h with hguard hactive
    · obtain ⟨hphase, hpending, hnext⟩ := hguard
      obtain ⟨rfl, rfl⟩ := Prod.mk.inj (Option.some.inj h)
      exact .skip hphase (List.isEmpty_iff.1 hpending) hnext (List.isEmpty_iff.1 hactive)
    · obtain ⟨hphase, hpending, hnext⟩ := hguard
      obtain ⟨rfl, rfl⟩ := Prod.mk.inj (Option.some.inj h)
      exact .call hphase (List.isEmpty_iff.1 hpending) hnext
  · unfold answer at h
    split_ifs at h with hphase
    obtain ⟨rfl, rfl⟩ := Prod.mk.inj (Option.some.inj h)
    exact .answer _ hphase
  · unfold finish at h
    split at h
    · cases h
    · next hpending =>
      split at h
      · cases h
      · next hjob =>
        obtain ⟨rfl, rfl⟩ := Prod.mk.inj (Option.some.inj h)
        exact .finish hpending hjob
  · unfold retire at h
    split_ifs at h with hguard
    obtain ⟨rfl, rfl⟩ := Prod.mk.inj (Option.some.inj h)
    exact .retire hguard.1 (List.isEmpty_iff.1 hguard.2)
  · cases h

/-- An action of a worker does not touch the other workers. -/
theorem Acts.workers {worker worker' : Worker ρ} (h : Acts options pool worker pool' worker') :
    pool'.workers = pool.workers := by
  cases h <;> rfl

/-! ## Steps -/

/-- What a step of the machine does to the pool. -/
inductive Moves (options : BatchingOptions) (pool : Pool ρ) : Pool ρ → Prop
  | reject (rows : Nat) : Moves options pool (pool.reject rows)
  | accept (rows : List InferenceRequest) (receiver : Receiver) (hstopping : pool.stopping = false)
      (hroom : rows.length ≤ sizeSub options.queueCapacity pool.queue.length ∨
        rows.length = 1 ∧ pool.queue.length ≠ options.queueCapacity) :
    Moves options pool (pool.accept rows receiver)
  | surroundings {environment : Environment} (hearlier : pool.environment.Earlier environment)
      {stopping : Bool} (hstopping : pool.stopping = true → stopping = true) :
    Moves options pool { pool with environment, stopping }
  | work {before after : List (Worker ρ)} {worker worker' : Worker ρ}
      (hworkers : pool.workers = before ++ worker :: after) {pool' : Pool ρ}
      (hacts : Acts options pool worker pool' worker') :
    Moves options pool { pool' with workers := before ++ worker' :: after }

/-- Replacing the element at an index keeps what stands before and after it. -/
theorem split_at_index {α : Type} : ∀ {l : List α} {i : Nat} {a : α}, l[i]? = some a →
    ∃ before after, l = before ++ a :: after ∧ ∀ b, l.set i b = before ++ b :: after
  | [], _, _, h => by cases h
  | x :: l, 0, a, h => by
      obtain rfl := Option.some.inj h
      exact ⟨[], l, rfl, fun b => rfl⟩
  | x :: l, i + 1, a, h => by
      obtain ⟨before, after, rfl, hset⟩ := split_at_index (l := l) (i := i) h
      exact ⟨x :: before, after, rfl, fun b => congrArg (x :: ·) (hset b)⟩

/-- What stands in a list after one of its elements has been replaced. -/
theorem mem_replaced {α : Type} {before after : List α} {a b x : α}
    (h : x ∈ before ++ b :: after) : x = b ∨ x ∈ before ++ a :: after := by
  rcases List.mem_append.1 h with hbefore | hrest
  · exact .inr (List.mem_append_left _ hbefore)
  · rcases List.mem_cons.1 hrest with heq | hafter
    · exact .inl heq
    · exact .inr (List.mem_append_right _ (List.mem_cons_of_mem _ hafter))

/-- What one element conserves together with its surroundings, the whole list does. -/
theorem perm_flatMap_replaced {α β : Type} {f : α → List β} {a b : α} {l l' r r' : List β}
    (before after : List α) (h : (l' ++ f b ++ r').Perm (l ++ f a ++ r)) :
    (l' ++ (before ++ b :: after).flatMap f ++ r').Perm
      (l ++ (before ++ a :: after).flatMap f ++ r) := by
  -- the part of one element can be taken out, whatever it is
  have hout : ∀ (x : α) (l r : List β), (l ++ (before ++ x :: after).flatMap f ++ r).Perm
      (before.flatMap f ++ after.flatMap f ++ (l ++ f x ++ r)) := by
    intro x l r
    classical
    rw [List.perm_iff_count]
    intro c
    simp only [List.flatMap_append, List.flatMap_cons, List.count_append]
    omega
  exact (hout b l' r').trans ((h.append_left _).trans (hout a l r).symm)

/-- A log that was complete stays so, when it grows by what is new in the account. -/
theorem perm_of_conserved {β : Type} {account account' log log' : List β}
    (hstep : (account' ++ log).Perm (account ++ log')) (hlog : log.Perm account) :
    log'.Perm account' := by
  have hboth : (account' ++ log).Perm (log' ++ log) :=
    (hstep.trans (hlog.symm.append_right log')).trans List.perm_append_comm
  exact ((List.perm_append_right_iff log).1 hboth).symm

/-- In a step of a worker, the worker at the index acts and the others stay as they are. -/
theorem acts_of_step {index : Nat} {action : Action ρ}
    (h : pool.step options (.work index action) = some pool') :
    ∃ before worker after middle worker', pool.workers = before ++ worker :: after ∧
      Acts options pool worker middle worker' ∧
      pool' = { middle with workers := before ++ worker' :: after } := by
  unfold step at h
  dsimp only at h
  split at h
  · cases h
  · next hworker =>
    split at h
    · cases h
    · next hact =>
      obtain rfl := Option.some.inj h
      have hacts := acts_of_act hact
      obtain ⟨before, after, hworkers, hset⟩ := split_at_index hworker
      refine ⟨before, _, after, _, _, hworkers, hacts, ?_⟩
      rw [hacts.workers, hset]

/-- The steps of the machine do what `Moves` says. -/
theorem moves_of_step {label : Label ρ} (h : pool.step options label = some pool') :
    Moves options pool pool' := by
  cases label with
  | enqueue rows =>
    obtain rfl := Option.some.inj h
    unfold enqueue
    split_ifs with hfull
    · exact .reject _
    · rw [not_or, not_lt] at hfull
      exact .accept rows .promise (Bool.eq_false_of_not_eq_true hfull.1) (.inl hfull.2)
  | enqueueCallback request callback =>
    unfold step enqueueCallback at h
    cases callback with
    | false =>
      obtain rfl := Option.some.inj h
      exact .surroundings (.refl _) id
    | true =>
      simp only [Bool.true_eq_false, if_false] at h
      split at h
      · next heq => split_ifs at heq
      · next heq =>
        obtain rfl := Option.some.inj h
        split_ifs at heq with hfull
        · obtain ⟨rfl, -⟩ := Prod.mk.inj (Except.ok.inj heq)
          exact .reject 1
        · obtain ⟨rfl, -⟩ := Prod.mk.inj (Except.ok.inj heq)
          rw [not_or] at hfull
          exact .accept [request] .callback (Bool.eq_false_of_not_eq_true hfull.1)
            (.inr ⟨rfl, hfull.2⟩)
  | shutdown =>
    obtain rfl := Option.some.inj h
    exact .surroundings (.refl _) fun _ => rfl
  | advance now =>
    unfold step at h
    dsimp only at h
    split_ifs at h with hnow
    obtain rfl := Option.some.inj h
    have hearlier : pool.environment.Earlier { pool.environment with now } :=
      ⟨hnow, List.Subset.refl _⟩
    exact .surroundings hearlier id
  | requestStop source =>
    obtain rfl := Option.some.inj h
    have hearlier : pool.environment.Earlier
        { pool.environment with stopped := source :: pool.environment.stopped } :=
      ⟨le_rfl, List.subset_cons_self _ _⟩
    exact .surroundings hearlier id
  | work index action =>
    obtain ⟨before, worker, after, middle, worker', hworkers, hacts, rfl⟩ := acts_of_step h
    exact .work hworkers hacts

end Jevt.Pool
