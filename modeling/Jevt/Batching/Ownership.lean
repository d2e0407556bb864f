import Jevt.Batching.Async

/-!
# Who destroys the pool

The operations of `asio_backend` share the ownership of their pool with the handles. The destructor
of the pool joins the workers and would wait for itself on one of them. A worker hands the reference
of an operation over to the executor when it completes its job (`references_notified`), so it never
lets go of the last one, and the pool lives as long as an operation is under way
(`pool_outlives_operations`).
-/

namespace Jevt.AsioBackend

open Library

variable {ρ : Type} {options : BatchingOptions} {s s' : AsioBackend ρ}

/-! ## References -/

/-- The callbacks of the pool leave the number of owners alone. -/
theorem references_notified (new : List (Completion ρ)) (operations : List (Operation ρ)) :
    (operations.map (Operation.notified new)).countP (fun op => op.stage.holdsPool) =
      operations.countP fun op => op.stage.holdsPool := by
  rw [List.countP_map]
  congr 1
  exact funext fun op => Operation.notified_stage Stage.holdsPool (fun _ => rfl) new op

/-- Without owners there are no handles, and no operation is under way. -/
theorem references_eq_zero (h : s.references = 0) :
    s.handles = 0 ∧ ∀ op ∈ s.operations, op.stage.holdsPool = false := by
  obtain ⟨hhandles, hcount⟩ := Nat.add_eq_zero_iff.1 h
  exact ⟨hhandles, fun op hop =>
    Bool.eq_false_of_not_eq_true (List.countP_eq_zero.1 hcount op hop)⟩

/-- The pool has an owner if there is a handle or an operation is under way. -/
theorem references_pos_iff : 0 < s.references ↔
    0 < s.handles ∨ ∃ op ∈ s.operations, op.stage.holdsPool = true := by
  unfold references
  rw [Nat.add_pos_iff_pos_or_pos, List.countP_pos_iff]

/-- A step that a worker takes, or that comes from outside, leaves the number of owners alone. When
there is no owner, no other step can be taken. -/
theorem references_of_act {label : AsioLabel ρ} (hact : s.act options label = some s') :
    s'.references = s.references ∧ label.isQuiet = true ∨
      (∀ index, label.thread ≠ .worker index) ∧ s.references ≠ 0 := by
  -- an operation that is under way is an owner
  have howner : ∀ {k : Nat} {op : Operation ρ}, s.operations[k]? = some op →
      op.stage.holdsPool = true → s.references ≠ 0 := fun hop hholds hzero =>
    absurd ((references_eq_zero hzero).2 _ (List.mem_of_getElem? hop)) (by rw [hholds]; decide)
  cases proceeds_of_act hact with
  | asyncPredict hhandles =>
    exact .inr ⟨nofun, fun hzero => hhandles.ne' (references_eq_zero hzero).1⟩
  | refuse hop hstage => exact .inr ⟨nofun, howner hop (hstage ▸ rfl)⟩
  | accept hop hstage => exact .inr ⟨nofun, howner hop (hstage ▸ rfl)⟩
  | abandon hop hstage => exact .inr ⟨nofun, howner hop (hstage ▸ rfl)⟩
  | post hop hstage => exact .inr ⟨nofun, howner hop (hstage ▸ rfl)⟩
  | work hstep => exact .inl ⟨congrArg (s.handles + ·) (references_notified _ _), rfl⟩
  | invoke hop hstage => exact .inr ⟨nofun, howner hop (hstage ▸ rfl)⟩
  | complete hop hstage => exact .inr ⟨nofun, howner hop (hstage ▸ rfl)⟩
  | copy hhandles => exact .inr ⟨nofun, fun hzero => hhandles.ne' (references_eq_zero hzero).1⟩
  | drop hhandles => exact .inr ⟨nofun, fun hzero => hhandles.ne' (references_eq_zero hzero).1⟩
  | surroundings hinner =>
    refine .inl ⟨rfl, ?_⟩
    cases label <;> first | rfl | cases hinner

/-- A step leaves the destructor to its end. -/
theorem destroyedBy_of_act {label : AsioLabel ρ} (hact : s.act options label = some s') :
    s'.destroyedBy = s.destroyedBy := by
  cases proceeds_of_act hact <;> rfl

/-! ## The invariant of the owners -/

/-- The pool is alive as long as it has an owner, and the destructor has set the flag of the pool,
on a thread that is none of the workers. -/
structure Owned (s : AsioBackend ρ) : Prop where
  alive : s.destroyedBy = none ↔ 0 < s.references
  thread : ∀ index, s.destroyedBy ≠ some (.worker index)
  stopping : s.destroyedBy ≠ none → s.pool.stopping = true

/-- A worker keeps the flag of the pool. -/
theorem stopping_of_act {label : AsioLabel ρ} (hact : s.act options label = some s')
    (hstopping : s.pool.stopping = true) : s'.pool.stopping = true := by
  have hpool : ∀ {inner : Pool.Label ρ} {pool : Pool ρ}, s.pool.step options inner = some pool →
      pool.stopping = true := by
    intro inner pool hstep
    cases Pool.moves_of_step hstep with
    | reject rows => exact hstopping
    | accept rows receiver hopen => exact hstopping
    | surroundings hearlier hkeeps => exact hkeeps hstopping
    | work hworkers hacts => exact hacts.frame.2.1.trans hstopping
  cases proceeds_of_act hact with
  | refuse hop hstage hstep => exact hpool hstep
  | accept hop hstage hstep => exact hpool hstep
  | work hstep => exact hpool hstep
  | surroundings hinner hstep => exact hpool hstep
  | _ => exact hstopping

/-- A pool with an owner is not destroyed, whatever the thread. -/
theorem released_of_pos (thread : Releaser) (h : s.references ≠ 0) : s.released thread = s :=
  if_neg fun hzero => h hzero.1

/-- **Every step keeps the owners.** -/
theorem Owned.step (h : Owned s) {label : AsioLabel ρ}
    (hstep : s.step options label = some s') : Owned s' := by
  obtain ⟨a, hact, rfl⟩ := exists_act hstep
  have hdestroyed := destroyedBy_of_act hact
  by_cases hzero : s.references = 0
  · -- the destructor has run before, and nobody is left who could run it again
    have hbefore : s.destroyedBy ≠ none := fun hnone => absurd hzero (h.alive.1 hnone).ne'
    have hrefs : a.references = 0 := by
      rcases references_of_act hact with ⟨hsame, -⟩ | ⟨-, hpos⟩
      · exact hsame.trans hzero
      · exact absurd hzero hpos
    have hkept : a.released label.thread = a :=
      if_neg fun hnow => hbefore (hdestroyed ▸ hnow.2)
    rw [hkept]
    refine ⟨⟨fun hnone => absurd (hdestroyed ▸ hnone) hbefore, fun hpos => absurd hrefs hpos.ne'⟩,
      fun index => hdestroyed ▸ h.thread index, fun _ => ?_⟩
    exact stopping_of_act hact (h.stopping hbefore)
  · have hnone : a.destroyedBy = none := by
      rw [hdestroyed]
      exact h.alive.2 (Nat.pos_of_ne_zero hzero)
    by_cases hlast : a.references = 0
    · have hreleased : a.released label.thread =
          { a with
            destroyedBy := some label.thread, pool := { a.pool with stopping := true } } :=
        if_pos ⟨hlast, hnone⟩
      rw [hreleased]
      refine ⟨⟨nofun, fun hpos => absurd hlast hpos.ne'⟩, fun index heq => ?_, fun _ => rfl⟩
      rcases references_of_act hact with ⟨hsame, -⟩ | ⟨hthread, -⟩
      · exact hzero (hsame.symm.trans hlast)
      · exact hthread index (Option.some.inj heq)
    · rw [released_of_pos _ hlast]
      exact ⟨⟨fun _ => Nat.pos_of_ne_zero hlast, fun _ => hnone⟩,
        fun index heq => absurd (hnone.symm.trans heq) nofun, fun hne => absurd hnone hne⟩

/-- The first handle owns a new pool. -/
theorem Owned.start (pool : Pool ρ) : Owned (AsioBackend.start pool) :=
  ⟨⟨fun _ => Nat.one_pos, fun _ => rfl⟩, nofun, fun hne => absurd rfl hne⟩

/-! ## A destroyed pool -/

/-- When the pool is destroyed, every operation has been delivered or was never initiated. -/
theorem Owned.through (h : Owned s) (hdestroyed : s.destroyedBy ≠ none) {op : Operation ρ}
    (hop : op ∈ s.operations) : op.stage = .abandoned ∨ ∃ response, op.stage = .delivered response
    := by
  have hzero : s.references = 0 :=
    Nat.eq_zero_of_not_pos fun hpos => hdestroyed (h.alive.2 hpos)
  have hholds := (references_eq_zero hzero).2 op hop
  obtain ⟨request, job, stage⟩ := op
  cases stage with
  | abandoned => exact .inl rfl
  | delivered response => exact .inr ⟨response, rfl⟩
  | _ => cases hholds

/-- When the pool is destroyed, every admitted job has been completed. -/
theorem Delivering.completed (h : Delivering options s) (howned : Owned s)
    (hworkers : 0 < options.workerCount) (hdestroyed : s.destroyedBy ≠ none) :
    (s.pool.completions.map Completion.job).Perm (List.range s.pool.admitted.length) := by
  have honce := (h.consistent.accounts hworkers).completedOnce
  refine (List.perm_ext_iff_of_nodup honce List.nodup_range).2 fun job =>
    ⟨fun hjob => List.mem_range.2 (h.consistent.completed_lt hjob), fun hjob => ?_⟩
  obtain ⟨op, hop, hopjob⟩ := List.mem_filterMap.1 (h.jobs.mem_iff.2 hjob)
  have hfits := h.fits op hop
  rcases howned.through hdestroyed hop with hstage | ⟨response, hstage⟩
  · exact absurd ((hfits.stage hstage).symm.trans hopjob) nofun
  · rcases hfits.stage hstage with ⟨hnone, -⟩ | ⟨c, hc, hcjob, -⟩
    · exact absurd (hnone.symm.trans hopjob) nofun
    · obtain rfl : c.job = job := Option.some.inj (hcjob.symm.trans hopjob)
      exact List.mem_map_of_mem hc

/-- With every job completed nothing is queued. -/
theorem queue_of_completed {pool : Pool ρ} (haccounts : Pool.Accounts options pool)
    (hcompleted : (pool.completions.map Completion.job).Perm (List.range pool.admitted.length)) :
    pool.queue = [] := by
  refine List.eq_nil_iff_forall_not_mem.2 fun job hjob => haccounts.queued job hjob ?_
  have honce : job.id ∈ List.range pool.admitted.length :=
    haccounts.once.mem_iff.1 (List.mem_append_left _
      (List.mem_append_left _ (List.mem_map_of_mem hjob)))
  exact hcompleted.mem_iff.2 honce

/-- What no longer changes once the pool is destroyed. -/
structure Final (s s' : AsioBackend ρ) : Prop where
  destroyedBy : s'.destroyedBy = s.destroyedBy
  operations : s'.operations = s.operations
  invoked : s'.invoked = s.invoked
  admitted : s'.pool.admitted = s.pool.admitted
  completions : s.pool.completions <+: s'.pool.completions

theorem Final.refl (s : AsioBackend ρ) : Final s s :=
  ⟨rfl, rfl, rfl, rfl, List.prefix_rfl⟩

theorem Final.trans {s'' : AsioBackend ρ} (h : Final s s') (h' : Final s' s'') : Final s s'' :=
  ⟨h'.destroyedBy.trans h.destroyedBy, h'.operations.trans h.operations,
    h'.invoked.trans h.invoked, h'.admitted.trans h.admitted,
    h.completions.trans h'.completions⟩

/-- When the pool is destroyed, the steps that can still be taken are those of the workers and those
from outside, and they change no operation. -/
theorem Owned.final_of_act (h : Owned s) (hdestroyed : s.destroyedBy ≠ none)
    {label : AsioLabel ρ} (hact : s.act options label = some s') :
    label.isQuiet = true ∧ Final s s' := by
  have hzero : s.references = 0 :=
    Nat.eq_zero_of_not_pos fun hpos => hdestroyed (h.alive.2 hpos)
  rcases references_of_act hact with ⟨-, hquiet⟩ | ⟨-, hpos⟩
  · refine ⟨hquiet, ?_⟩
    have hthrough : ∀ op ∈ s.operations, op.stage = .abandoned ∨
        ∃ response, op.stage = .delivered response := fun _ hop => h.through hdestroyed hop
    have hnone : ∀ {k : Nat} {op : Operation ρ}, s.operations[k]? = some op →
        op.stage.holdsPool = false := fun hop =>
      (references_eq_zero hzero).2 _ (List.mem_of_getElem? hop)
    cases proceeds_of_act hact with
    | asyncPredict => cases hquiet
    | refuse => cases hquiet
    | accept => cases hquiet
    | abandon hop hstage => exact absurd (hnone hop) (by rw [hstage]; exact nofun)
    | post hop hstage => exact absurd (hnone hop) (by rw [hstage]; exact nofun)
    | work hstep =>
      refine ⟨rfl, ?_, rfl, Pool.admitted_of_step hstep, ?_⟩
      · -- nobody waits
        refine (List.map_congr_left fun op hop => ?_).trans (List.map_id _)
        unfold Operation.notified
        rcases hthrough op hop with hstage | ⟨response, hstage⟩ <;> rw [hstage] <;> rfl
      · rw [Pool.completions_of_step hstep]
        exact List.prefix_append _ _
    | invoke hop hstage => exact absurd (hnone hop) (by rw [hstage]; exact nofun)
    | complete hop hstage => exact absurd (hnone hop) (by rw [hstage]; exact nofun)
    | copy hhandles => exact absurd (references_eq_zero hzero).1 hhandles.ne'
    | drop hhandles => exact absurd (references_eq_zero hzero).1 hhandles.ne'
    | surroundings hinner hstep =>
      obtain ⟨hcompletions, hadmitted, -⟩ := surroundings_same hinner hstep
      exact ⟨rfl, rfl, rfl, hadmitted, hcompletions ▸ List.prefix_rfl⟩
  · exact absurd hzero hpos

/-- The same of a whole step. -/
theorem Owned.final_of_step (h : Owned s) (hdestroyed : s.destroyedBy ≠ none)
    {label : AsioLabel ρ} (hstep : s.step options label = some s') :
    label.isQuiet = true ∧ Final s s' := by
  obtain ⟨a, hact, rfl⟩ := exists_act hstep
  obtain ⟨hquiet, hfinal⟩ := h.final_of_act hdestroyed hact
  have hkept : a.released label.thread = a :=
    if_neg fun hnow => hdestroyed (hfinal.destroyedBy.symm.trans hnow.2)
  rw [hkept]
  exact ⟨hquiet, hfinal⟩

/-- **Nothing changes in a run from a destroyed pool.** -/
theorem Owned.final_of_run (h : Owned s) (hdestroyed : s.destroyedBy ≠ none)
    {labels : List (AsioLabel ρ)} (hrun : Run (AsioBackend.step options) s labels s') :
    (∀ label ∈ labels, label.isQuiet = true) ∧ Final s s' := by
  induction labels generalizing s with
  | nil =>
    obtain rfl := Run.nil_iff.1 hrun
    exact ⟨nofun, .refl _⟩
  | cons label labels ih =>
    obtain ⟨middle, hstep, hrest⟩ := Run.cons_iff.1 hrun
    obtain ⟨hquiet, hfinal⟩ := h.final_of_step hdestroyed hstep
    obtain ⟨hquiet', hfinal'⟩ :=
      ih (h.step hstep) (hfinal.destroyedBy ▸ hdestroyed) hrest
    exact ⟨List.forall_mem_cons.2 ⟨hquiet, hquiet'⟩, hfinal.trans hfinal'⟩

/-- **The pool outlives its operations, and no worker destroys it.** For every accepted
configuration and every run: the pool is alive exactly as long as there is a handle or an operation
is under way; the destructor never runs on a worker of the pool; when it runs, every operation has
been delivered or was never initiated, nothing is queued and every admitted job has been completed.
From there on nothing is submitted, completed or delivered any more, and the join in the destructor
comes to its end: the workers take a bounded number of steps and come to rest only when all of them
have exited. -/
theorem pool_outlives_operations {wrapped : Bool} {environment : Environment} {pool : Pool ρ}
    (hcreate : Pool.create wrapped options environment = .ok pool)
    {labels : List (AsioLabel ρ)} (hrun : Run (step options) (start pool) labels s) :
    (s.destroyedBy = none ↔
        0 < s.handles ∨ ∃ op ∈ s.operations, op.stage.holdsPool = true) ∧
      (∀ index, s.destroyedBy ≠ some (.worker index)) ∧
      (s.destroyedBy ≠ none →
        (∀ op ∈ s.operations,
            op.stage = .abandoned ∨ ∃ response, op.stage = .delivered response) ∧
          s.pool.queue = [] ∧
          (s.pool.completions.map Completion.job).Perm (List.range s.pool.admitted.length) ∧
          ∀ after s', Run (step options) s after s' →
            s'.destroyedBy = s.destroyedBy ∧ s'.operations = s.operations ∧
              s'.invoked = s.invoked ∧ s'.pool.completions = s.pool.completions ∧
              after.countP AsioLabel.ofThreads + s'.effort ≤ s.effort ∧
              (AtRest options s' → ∀ worker ∈ s'.pool.workers, worker = .exited)) := by
  obtain ⟨hworkers, hroom⟩ := Pool.configured_of_create hcreate
  have hboth : Delivering options s ∧ Owned s :=
    Reachable.invariant (I := fun s => Delivering options s ∧ Owned s)
      ⟨.start hcreate, .start pool⟩
      (fun _ _ _ h hstep => ⟨h.1.step hstep, h.2.step hstep⟩) ⟨labels, hrun⟩
  obtain ⟨h, howned⟩ := hboth
  refine ⟨howned.alive.trans references_pos_iff, howned.thread, fun hdestroyed => ?_⟩
  have hcompleted := h.completed howned hworkers hdestroyed
  refine ⟨fun op hop => howned.through hdestroyed hop,
    queue_of_completed (h.consistent.accounts hworkers) hcompleted, hcompleted,
    fun after s' hafter => ?_⟩
  obtain ⟨hquiet, hfinal⟩ := howned.final_of_run hdestroyed hafter
  have hdestroyed' : s'.destroyedBy ≠ none := hfinal.destroyedBy ▸ hdestroyed
  obtain ⟨h', howned'⟩ : Delivering options s' ∧ Owned s' :=
    Reachable.invariant (I := fun s => Delivering options s ∧ Owned s) ⟨h, howned⟩
      (fun _ _ _ h hstep => ⟨h.1.step hstep, h.2.step hstep⟩) ⟨after, hafter⟩
  have hcompletions : s'.pool.completions = s.pool.completions := by
    have hlength := (h'.completed howned' hworkers hdestroyed').length_eq
    rw [hfinal.admitted, ← hcompleted.length_eq, List.length_map, List.length_map] at hlength
    exact (hfinal.completions.eq_of_length hlength.symm).symm
  refine ⟨hfinal.destroyedBy, hfinal.operations, hfinal.invoked, hcompletions,
    steps_le_effort hroom hquiet hafter, fun hrest worker hworker => ?_⟩
  have hsettled := (hrest.settled h' hworkers).2 worker hworker
  rwa [howned'.stopping hdestroyed'] at hsettled

/-- The only handle goes away while an operation waits for its job. -/
def detached : List (AsioLabel Nat) :=
  [.asyncPredict {}, .initiate 0, .drop, .work 0 .wake, .work 0 .extract, .work 0 .check,
    .work 0 .call, .work 0 (.answer (.responses [7])), .work 0 .finish, .invoke 0, .complete 0]

/-- The pool is destroyed by the executor, before the worker has given its batch up. -/
theorem pool_outlives_operations_detached : ∃ s : AsioBackend Nat,
    s.destroyedBy = some .executor ∧ s.invoked = [(0, .ok 7)] ∧ s.pool.queue = [] ∧
      s.pool.completions.map Completion.job = [0] := by
  obtain ⟨pool, s, hcreate, hrun, hdestroyed, hinvoked, hcompletions⟩ :
      ∃ (pool : Pool Nat) (s : AsioBackend Nat),
        Pool.create true { maxBatchSize := 1 } { now := 0 } = .ok pool ∧
        Run (step { maxBatchSize := 1 }) (start pool) detached s ∧
        s.destroyedBy = some .executor ∧ s.invoked = [(0, .ok 7)] ∧
        s.pool.completions.map Completion.job = [0] :=
    ⟨_, _, rfl, rfl, rfl, rfl, rfl⟩
  obtain ⟨-, -, hgone⟩ := pool_outlives_operations hcreate hrun
  have hgone' := hgone fun hnone => absurd (hdestroyed.symm.trans hnone) nofun
  exact ⟨s, hdestroyed, hinvoked, hgone'.2.1, hcompletions⟩

end Jevt.AsioBackend
