import Jevt.Batching.Waiting

/-!
# Calls of `shutdown`

`impl::shutdown` sets the flag, calls `notify_all`, and then joins the workers under a second mutex,
`join_mutex`, so that any number of threads may call it. `Closing` is the pool with its sleeping
workers, the worker threads as handles that can be joined once, and the calls of `shutdown` at their
places. A call from a worker of the pool is refused at once and no step.

A call returns only when every worker has exited and been joined, so nothing of the pool can move
any more (`Orderly.closed`), and every call returns (`shutdown_returns`).
-/

namespace Jevt

open Library

variable {ρ : Type} {options : BatchingOptions}

namespace Pool

/-- Where a call of `shutdown` is: ahead of `notify_all`, ahead of `join_mutex`, in the loop over
the workers, or through. -/
inductive Call where
  | announcing
  | queued
  | joining (next : Nat)
  | returned
  deriving DecidableEq, Repr

/-- A call that holds `join_mutex`. -/
def Call.holds : Call → Bool
  | .joining _ => true
  | _ => false

/-- A bound for the steps that are ahead of a call. -/
def Call.ahead (workers : Nat) : Call → Nat
  | .announcing => workers + 3
  | .queued => workers + 2
  | .joining next => workers - next + 1
  | .returned => 0

/-- The pool, whether each worker thread can still be joined, and the calls of `shutdown`. -/
structure Closing (ρ : Type) where
  pool : Monitored (Pool ρ)
  joinable : List Bool
  calls : List Call := []

/-- A step of the pool, a new call of `shutdown`, or the next step of a call: `notify_all`, taking
`join_mutex`, one turn of the loop over the workers, or the end. -/
inductive CloseLabel (ρ : Type) where
  | pool (s : Signal (Label ρ))
  | shutdown
  | announce (k : Nat)
  | lock (k : Nat)
  | join (k : Nat)
  | unlock (k : Nat)

namespace Closing

/-- A pool nobody has shut down. -/
def start (initial : Pool ρ) : Closing ρ :=
  { pool := { inner := initial }, joinable := initial.workers.map fun _ => true }

/-- The steps of the pool without the calls of `shutdown`, whose notices are their own. -/
def others (c : Closing ρ) : Signal (Label ρ) → Bool
  | .act .shutdown => false
  | .notify none => decide (c.calls.count .announcing < c.pool.notices.count none)
  | _ => true

/-- One step. A call joins a worker thread that can be joined when the worker has exited, and passes
over one that has been joined before. -/
def step (options : BatchingOptions) (c : Closing ρ) : CloseLabel ρ → Option (Closing ρ)
  | .pool s =>
    if c.others s then ((waiting options).signal c.pool s).map fun pool => { c with pool } else none
  | .shutdown =>
    ((waiting options).signal c.pool (.act .shutdown)).map fun pool =>
      { c with pool, calls := c.calls ++ [.announcing] }
  | .announce k =>
    if c.calls[k]? = some .announcing then
      ((waiting options).signal c.pool (.notify none)).map fun pool =>
        { c with pool, calls := c.calls.set k .queued }
    else none
  | .lock k =>
    if c.calls[k]? = some .queued ∧ ∀ call ∈ c.calls, call.holds = false then
      some { c with calls := c.calls.set k (.joining 0) }
    else none
  | .join k =>
    match c.calls[k]? with
    | some (.joining next) =>
      match c.joinable[next]?, c.pool.inner.workers[next]? with
      | some true, some .exited =>
        some { c with
          joinable := c.joinable.set next false
          calls := c.calls.set k (.joining (next + 1)) }
      | some false, _ => some { c with calls := c.calls.set k (.joining (next + 1)) }
      | _, _ => none
    | _ => none
  | .unlock k =>
    match c.calls[k]? with
    | some (.joining next) =>
      if next = c.joinable.length then some { c with calls := c.calls.set k .returned } else none
    | _ => none

variable {c c' : Closing ρ}

/-- What a step does. -/
inductive Closes (options : BatchingOptions) (c : Closing ρ) : CloseLabel ρ → Closing ρ → Prop
  | pool {s : Signal (Label ρ)} {m : Monitored (Pool ρ)} (hothers : c.others s = true)
      (hsignal : (waiting options).signal c.pool s = some m) :
    Closes options c (.pool s) { c with pool := m }
  | shutdown {m : Monitored (Pool ρ)}
      (hsignal : (waiting options).signal c.pool (.act .shutdown) = some m) :
    Closes options c .shutdown { c with pool := m, calls := c.calls ++ [.announcing] }
  | announce {k : Nat} {before after : List Call} {m : Monitored (Pool ρ)}
      (hcalls : c.calls = before ++ .announcing :: after)
      (hsignal : (waiting options).signal c.pool (.notify none) = some m) :
    Closes options c (.announce k) { c with pool := m, calls := before ++ .queued :: after }
  | lock {k : Nat} {before after : List Call} (hcalls : c.calls = before ++ .queued :: after)
      (hfree : ∀ call ∈ c.calls, call.holds = false) :
    Closes options c (.lock k) { c with calls := before ++ .joining 0 :: after }
  | join {k : Nat} {before after : List Call} {next : Nat}
      (hcalls : c.calls = before ++ .joining next :: after)
      (hjoinable : c.joinable[next]? = some true)
      (hexited : c.pool.inner.workers[next]? = some .exited) :
    Closes options c (.join k) { c with
      joinable := c.joinable.set next false
      calls := before ++ .joining (next + 1) :: after }
  | skip {k : Nat} {before after : List Call} {next : Nat}
      (hcalls : c.calls = before ++ .joining next :: after)
      (hjoined : c.joinable[next]? = some false) :
    Closes options c (.join k) { c with calls := before ++ .joining (next + 1) :: after }
  | unlock {k : Nat} {before after : List Call}
      (hcalls : c.calls = before ++ .joining c.joinable.length :: after) :
    Closes options c (.unlock k) { c with calls := before ++ .returned :: after }

/-- The steps do what `Closes` says. -/
theorem closes_of_step {label : CloseLabel ρ} (h : c.step options label = some c') :
    Closes options c label c' := by
  cases label with
  | pool s =>
    unfold step at h
    dsimp only at h
    split_ifs at h with hothers
    obtain ⟨m, hsignal, rfl⟩ := Option.map_eq_some_iff.1 h
    exact .pool hothers hsignal
  | shutdown =>
    unfold step at h
    obtain ⟨m, hsignal, rfl⟩ := Option.map_eq_some_iff.1 h
    exact .shutdown hsignal
  | announce k =>
    unfold step at h
    dsimp only at h
    split_ifs at h with hcall
    obtain ⟨m, hsignal, rfl⟩ := Option.map_eq_some_iff.1 h
    obtain ⟨before, after, hcalls, hset⟩ := split_at_index hcall
    rw [hset]
    exact .announce hcalls hsignal
  | lock k =>
    unfold step at h
    dsimp only at h
    split_ifs at h with hguard
    obtain rfl := Option.some.inj h
    obtain ⟨before, after, hcalls, hset⟩ := split_at_index hguard.1
    rw [hset]
    exact .lock hcalls hguard.2
  | join k =>
    unfold step at h
    dsimp only at h
    split at h
    · next next hcall =>
      obtain ⟨before, after, hcalls, hset⟩ := split_at_index hcall
      rw [hset] at h
      split at h
      · next hjoinable hexited =>
        obtain rfl := Option.some.inj h
        exact .join hcalls hjoinable hexited
      · next hjoined =>
        obtain rfl := Option.some.inj h
        exact .skip hcalls hjoined
      · cases h
    · cases h
  | unlock k =>
    unfold step at h
    dsimp only at h
    split at h
    · next hcall =>
      obtain ⟨before, after, hcalls, hset⟩ := split_at_index hcall
      split_ifs at h with hnext
      obtain rfl := Option.some.inj h
      subst hnext
      rw [hset]
      exact .unlock hcalls
    · cases h

/-! ## The invariant -/

/-- The calls and the threads at every moment: the flag is set from the first call on; every call
ahead of `notify_all` has its notice; one call holds `join_mutex`; a thread that has been joined has
exited, and a call has joined the threads it has passed, all of them when it has returned. -/
structure Orderly (options : BatchingOptions) (c : Closing ρ) : Prop where
  consistent : Consistent options c.pool.inner
  sound : (waiting options).Sound c.pool
  stopping : c.calls ≠ [] → c.pool.inner.stopping = true
  announced : c.calls.count .announcing ≤ c.pool.notices.count none
  one : c.calls.countP Call.holds ≤ 1
  threads : c.joinable.length = c.pool.inner.workers.length
  joined : ∀ i : Nat, c.joinable[i]? = some false → c.pool.inner.workers[i]? = some .exited
  passed : ∀ next, .joining next ∈ c.calls → next ≤ c.joinable.length ∧
    ∀ i < next, c.joinable[i]? = some false
  through : .returned ∈ c.calls → ∀ i < c.joinable.length, c.joinable[i]? = some false

/-- A worker that has exited takes no more steps. -/
theorem exited_of_signal {m m' : Monitored (Pool ρ)} {s : Signal (Label ρ)} {i : Nat}
    (hsignal : (waiting options).signal m s = some m')
    (hexited : m.inner.workers[i]? = some .exited) : m'.inner.workers[i]? = some .exited := by
  rcases Discipline.inner_of_signal hsignal with ⟨label, rfl, hstep⟩ | ⟨-, hsame⟩
  · change m.inner.step options label = some m'.inner at hstep
    by_cases hactor : actor label = some i
    · cases label with
      | work index action =>
        obtain rfl := Option.some.inj hactor
        unfold Pool.step at hstep
        dsimp only at hstep
        rw [hexited] at hstep
        cases action <;> cases hstep
      | _ => cases hactor
    · rw [worker_of_step hstep hactor, hexited]
  · rw [hsame, hexited]

/-- A step keeps the number of the workers. -/
theorem length_workers_of_signal {m m' : Monitored (Pool ρ)} {s : Signal (Label ρ)}
    (hconsistent : Consistent options m.inner)
    (hsignal : (waiting options).signal m s = some m') :
    m'.inner.workers.length = m.inner.workers.length := by
  rw [((waiting_announces options).signal hconsistent hsignal).workers, hconsistent.workers]

/-- A step keeps the flag. -/
theorem stopping_of_signal {m m' : Monitored (Pool ρ)} {s : Signal (Label ρ)}
    (hsignal : (waiting options).signal m s = some m') (hstopping : m.inner.stopping = true) :
    m'.inner.stopping = true := by
  rcases Discipline.inner_of_signal hsignal with ⟨label, rfl, hstep⟩ | ⟨-, hsame⟩
  · have hmoves := moves_of_step hstep
    generalize m'.inner = pool' at hmoves
    cases hmoves with
    | reject rows => exact hstopping
    | accept rows receiver hopen => exact hstopping
    | surroundings hearlier hkeeps => exact hkeeps hstopping
    | work hworkers hacts => exact hacts.frame.2.1.trans hstopping
  · rw [hsame, hstopping]

/-- The notices of the callers after a step of the pool. -/
theorem count_none_of_signal {m m' : Monitored (Pool ρ)} {s : Signal (Label ρ)}
    (hsignal : (waiting options).signal m s = some m') :
    m.notices.count none ≤ m'.notices.count none + if s matches .notify none then 1 else 0 := by
  cases s with
  | act label =>
    obtain ⟨-, inner, -, rfl⟩ := Discipline.signal_act.1 hsignal
    show _ ≤ ((waiting options).announced m label).count none + 0
    unfold Discipline.announced
    split_ifs
    · exact List.count_le_count_cons
    · exact le_rfl
  | sleep i =>
    obtain ⟨-, rfl⟩ := Discipline.signal_sleep.1 hsignal
    exact le_rfl
  | notify who =>
    obtain ⟨-, rfl⟩ := Discipline.signal_notify.1 hsignal
    cases who with
    | none =>
      have herase := List.count_erase_self (a := none) (l := m.notices)
      show m.notices.count none ≤ (m.notices.erase none).count none + 1
      omega
    | some i => exact (List.count_erase_of_ne (by simp)).ge
  | spurious i =>
    obtain ⟨-, rfl⟩ := Discipline.signal_spurious.1 hsignal
    exact le_rfl

/-- A step of the pool keeps what concerns the pool and the threads. -/
theorem Orderly.of_signal (h : Orderly options c) {s : Signal (Label ρ)} {m : Monitored (Pool ρ)}
    (hsignal : (waiting options).signal c.pool s = some m) :
    Consistent options m.inner ∧ (waiting options).Sound m ∧
      (c.calls ≠ [] → m.inner.stopping = true) ∧ c.joinable.length = m.inner.workers.length ∧
      ∀ i : Nat, c.joinable[i]? = some false → m.inner.workers[i]? = some .exited :=
  ⟨(waiting_announces options).signal h.consistent hsignal,
    h.sound.signal (waiting_announces options) h.consistent hsignal,
    fun hcalls => stopping_of_signal hsignal (h.stopping hcalls),
    h.threads.trans (length_workers_of_signal h.consistent hsignal).symm,
    fun i hi => exited_of_signal hsignal (h.joined i hi)⟩

/-- What a call has passed stays so when more threads are joined. -/
theorem getElem?_set_false {joinable : List Bool} {next i : Nat} (h : joinable[i]? = some false) :
    (joinable.set next false)[i]? = some false := by
  obtain ⟨hlt, hget⟩ := List.getElem?_eq_some_iff.1 h
  rw [List.getElem?_set]
  split_ifs with heq hlen
  · rfl
  · exact absurd (heq ▸ hlt) hlen
  · exact h

/-- A call that goes on behind its `notify_all` does not change the number of notices. -/
theorem announced_replaced {before after : List Call} {a b : Call} {n : Nat} (ha : a ≠ .announcing)
    (hb : b ≠ .announcing) (h : (before ++ a :: after).count .announcing ≤ n) :
    (before ++ b :: after).count .announcing ≤ n := by
  rw [List.count_append, List.count_cons_of_ne ha] at h
  rwa [List.count_append, List.count_cons_of_ne hb]

/-- A call that goes on and does not take `join_mutex`. -/
theorem countP_holds_replaced (before after : List Call) {a b : Call}
    (hle : b.holds = true → a.holds = true) :
    (before ++ b :: after).countP Call.holds ≤ (before ++ a :: after).countP Call.holds := by
  rw [List.countP_append, List.countP_append, List.countP_cons, List.countP_cons]
  split_ifs with hb ha
  · exact le_rfl
  · exact absurd (hle hb) ha
  · exact Nat.le_succ _
  · exact le_rfl

/-- **Every step keeps the calls in order.** -/
theorem Orderly.step (h : Orderly options c) {label : CloseLabel ρ}
    (hstep : c.step options label = some c') : Orderly options c' := by
  cases closes_of_step hstep with
  | pool hothers hsignal =>
    rename_i s m
    obtain ⟨hconsistent, hsound, hstopping, hthreads, hjoined⟩ := h.of_signal hsignal
    refine { h with
      consistent := hconsistent, sound := hsound, stopping := hstopping
      announced := ?_, threads := hthreads, joined := hjoined }
    have hcount := count_none_of_signal hsignal
    have hannounced := h.announced
    show c.calls.count .announcing ≤ m.notices.count none
    split at hcount
    · have hlt : c.calls.count .announcing < c.pool.notices.count none := of_decide_eq_true hothers
      rw [if_pos rfl] at hcount
      omega
    · rw [if_neg nofun] at hcount
      omega
  | shutdown hsignal =>
    rename_i m
    obtain ⟨hconsistent, hsound, -, hthreads, hjoined⟩ := h.of_signal hsignal
    obtain ⟨-, inner, hinner, rfl⟩ := Discipline.signal_act.1 hsignal
    refine
      { consistent := hconsistent
        sound := hsound
        stopping := fun _ => ?_
        announced := ?_
        one := ?_
        threads := hthreads
        joined := hjoined
        passed := fun next hmem => h.passed next ?_
        through := fun hmem => h.through ?_ }
    · exact (Option.some.inj hinner) ▸ rfl
    · have hannounced := Nat.succ_le_succ h.announced
      show (c.calls ++ [Call.announcing]).count Call.announcing ≤
        (none :: c.pool.notices).count none
      rw [List.count_append, List.count_cons_self, List.count_cons_self, List.count_nil]
      exact hannounced
    · show (c.calls ++ [Call.announcing]).countP Call.holds ≤ 1
      rw [List.countP_append]
      exact h.one
    · simpa using hmem
    · simpa using hmem
  | announce hcalls hsignal =>
    rename_i before after m
    obtain ⟨hconsistent, hsound, hstopping, hthreads, hjoined⟩ := h.of_signal hsignal
    have hone := h.one
    have hannounced := h.announced
    have hcount := count_none_of_signal hsignal
    simp only [hcalls, List.countP_append, List.countP_cons, List.count_append, List.count_cons]
      at hone hannounced
    refine
      { consistent := hconsistent
        sound := hsound
        stopping := fun _ => hstopping (by simp [hcalls])
        announced := ?_
        one := ?_
        threads := hthreads
        joined := hjoined
        passed := fun next hmem => h.passed next ?_
        through := fun hmem => h.through ?_ }
    · show (before ++ Call.queued :: after).count .announcing ≤ m.notices.count none
      simp only [List.count_append, List.count_cons]
      simp at hannounced hcount ⊢
      omega
    · show (before ++ Call.queued :: after).countP Call.holds ≤ 1
      rw [List.countP_append, List.countP_cons]
      exact hone
    · simpa [hcalls] using hmem
    · simpa [hcalls] using hmem
  | lock hcalls hfree =>
    rename_i before after
    have hannounced := h.announced
    have hnone : c.calls.countP Call.holds = 0 :=
      List.countP_eq_zero.2 fun call hcall => by simp [hfree call hcall]
    rw [hcalls] at hannounced hnone
    refine
      { h with
        stopping := fun _ => h.stopping (by simp [hcalls])
        announced := ?_
        one := ?_
        passed := fun next hmem => ?_
        through := fun hmem => ?_ }
    · exact announced_replaced (by nofun) (by nofun) hannounced
    · rw [List.countP_append, List.countP_cons] at hnone ⊢
      have hholds : (Call.joining 0).holds = true := rfl
      rw [if_pos hholds]
      omega
    · rcases mem_replaced hmem with heq | hold
      · obtain rfl := Call.joining.inj heq
        exact ⟨Nat.zero_le _, nofun⟩
      · exact h.passed next (hcalls ▸ hold)
    · rcases mem_replaced hmem with heq | hold
      · cases heq
      · exact h.through (hcalls ▸ hold)
  | join hcalls hjoinable hexited =>
    rename_i before after next
    have hannounced := h.announced
    have hone := h.one
    obtain ⟨hlt, hget⟩ := List.getElem?_eq_some_iff.1 hjoinable
    have hnext : (c.joinable.set next false)[next]? = some false := by
      rw [List.getElem?_set_self hlt]
    have hpassed := (h.passed next (hcalls ▸ List.mem_append_right _ List.mem_cons_self)).2
    rw [hcalls] at hannounced hone
    refine
      { h with
        stopping := fun _ => h.stopping (by simp [hcalls])
        announced := ?_
        one := ?_
        threads := ?_
        joined := fun i hi => ?_
        passed := fun n hmem => ?_
        through := fun hmem i hi => ?_ }
    · exact announced_replaced (by nofun) (by nofun) hannounced
    · exact (countP_holds_replaced before after fun _ => rfl).trans hone
    · exact (List.length_set ..).trans h.threads
    · by_cases heq : next = i
      · exact heq ▸ hexited
      · exact h.joined i (by rwa [List.getElem?_set_ne heq] at hi)
    · show n ≤ (c.joinable.set next false).length ∧ _
      rw [List.length_set]
      rcases mem_replaced hmem with heq | hold
      · obtain rfl := Call.joining.inj heq
        refine ⟨hlt, fun i hi => ?_⟩
        rcases Nat.lt_succ_iff_lt_or_eq.1 hi with hi | rfl
        · exact getElem?_set_false (hpassed i hi)
        · exact hnext
      · obtain ⟨hle, hold'⟩ := h.passed n (hcalls ▸ hold)
        exact ⟨hle, fun i hi => getElem?_set_false (hold' i hi)⟩
    · rcases mem_replaced hmem with heq | hold
      · cases heq
      · refine getElem?_set_false (h.through (hcalls ▸ hold) i ?_)
        rwa [List.length_set] at hi
  | skip hcalls hjoined =>
    rename_i before after next
    have hannounced := h.announced
    have hone := h.one
    obtain ⟨hlt, -⟩ := List.getElem?_eq_some_iff.1 hjoined
    have hpassed := (h.passed next (hcalls ▸ List.mem_append_right _ List.mem_cons_self)).2
    rw [hcalls] at hannounced hone
    refine
      { h with
        stopping := fun _ => h.stopping (by simp [hcalls])
        announced := ?_
        one := ?_
        passed := fun n hmem => ?_
        through := fun hmem => ?_ }
    · exact announced_replaced (by nofun) (by nofun) hannounced
    · exact (countP_holds_replaced before after fun _ => rfl).trans hone
    · rcases mem_replaced hmem with heq | hold
      · obtain rfl := Call.joining.inj heq
        refine ⟨hlt, fun i hi => ?_⟩
        rcases Nat.lt_succ_iff_lt_or_eq.1 hi with hi | rfl
        · exact hpassed i hi
        · exact hjoined
      · exact h.passed n (hcalls ▸ hold)
    · rcases mem_replaced hmem with heq | hold
      · cases heq
      · exact h.through (hcalls ▸ hold)
  | unlock hcalls =>
    rename_i before after
    have hannounced := h.announced
    have hone := h.one
    have hpassed := (h.passed _ (hcalls ▸ List.mem_append_right _ List.mem_cons_self)).2
    rw [hcalls] at hannounced hone
    refine
      { h with
        stopping := fun _ => h.stopping (by simp [hcalls])
        announced := ?_
        one := ?_
        passed := fun n hmem => ?_
        through := fun _ => hpassed }
    · exact announced_replaced (by nofun) (by nofun) hannounced
    · exact (countP_holds_replaced before after (by nofun)).trans hone
    · rcases mem_replaced hmem with heq | hold
      · cases heq
      · exact h.passed n (hcalls ▸ hold)

/-- A pool nobody has shut down is in order. -/
theorem Orderly.start {wrapped : Bool} {environment : Environment} {initial : Pool ρ}
    (hcreate : create wrapped options environment = .ok initial) :
    Orderly options (start initial) where
  consistent := .create hcreate
  sound := Discipline.sound_start _ _
  stopping h := absurd rfl h
  announced := Nat.zero_le _
  one := Nat.zero_le _
  threads := List.length_map _
  joined i hi := by
    have hmem := List.mem_of_getElem? hi
    simp [Closing.start] at hmem
  passed := nofun
  through := nofun

/-! ## A call that has returned -/

/-- The pool is closed: every worker has exited and been joined, and the flag is set. -/
structure Closed (c : Closing ρ) : Prop where
  exited : ∀ worker ∈ c.pool.inner.workers, worker = .exited
  joined : ∀ joinable ∈ c.joinable, joinable = false
  stopping : c.pool.inner.stopping = true

/-- **When a call returns, the pool is closed.** -/
theorem Orderly.closed (h : Orderly options c) (hreturned : .returned ∈ c.calls) : Closed c := by
  have hthrough := h.through hreturned
  refine ⟨fun worker hmem => ?_, fun joinable hmem => ?_, ?_⟩
  · obtain ⟨i, hi⟩ := List.mem_iff_getElem?.1 hmem
    obtain ⟨hlt, -⟩ := List.getElem?_eq_some_iff.1 hi
    have hexited := h.joined i (hthrough i (h.threads.symm ▸ hlt))
    exact Option.some.inj (hi.symm.trans hexited)
  · obtain ⟨i, hi⟩ := List.mem_iff_getElem?.1 hmem
    obtain ⟨hlt, -⟩ := List.getElem?_eq_some_iff.1 hi
    exact Option.some.inj (hi.symm.trans (hthrough i hlt))
  · exact h.stopping (List.ne_nil_of_mem hreturned)

/-- What the callers of a closed pool can see stays as it is: what was admitted and what has been
completed. -/
def Unmoved (c c' : Closing ρ) : Prop :=
  c'.pool.inner.admitted = c.pool.inner.admitted ∧
    c'.pool.inner.completions = c.pool.inner.completions

/-- A step of the pool leaves a closed one closed and unmoved. -/
theorem Closed.signal {m : Monitored (Pool ρ)} {s : Signal (Label ρ)} (h : Closed c)
    (hsignal : (waiting options).signal c.pool s = some m) :
    Closed { c with pool := m } ∧ Unmoved c { c with pool := m } := by
  rcases Discipline.inner_of_signal hsignal with ⟨label, rfl, hstep⟩ | ⟨-, hsame⟩
  · have hmoves := moves_of_step hstep
    obtain ⟨hexited, hjoined, hstopping⟩ := h
    cases m with
    | mk pool' asleep notices =>
      dsimp only at hmoves
      cases hmoves with
      | reject rows => exact ⟨⟨hexited, hjoined, hstopping⟩, rfl, rfl⟩
      | accept rows receiver hopen => exact absurd (hopen.symm.trans hstopping) nofun
      | surroundings hearlier hkeeps =>
        exact ⟨⟨hexited, hjoined, hkeeps hstopping⟩, rfl, rfl⟩
      | work hworkers hacts =>
        rename_i before after worker worker' middle
        obtain rfl := hexited worker (by rw [hworkers]; simp)
        cases hacts
  · refine ⟨⟨?_, h.joined, ?_⟩, ?_⟩
    · show ∀ worker ∈ m.inner.workers, worker = .exited
      rw [hsame]
      exact h.exited
    · show m.inner.stopping = true
      rw [hsame]
      exact h.stopping
    · unfold Unmoved
      dsimp only
      rw [hsame]
      exact ⟨rfl, rfl⟩

/-- Every step leaves a closed pool closed and unmoved. -/
theorem Closed.step (h : Closed c) {label : CloseLabel ρ}
    (hstep : c.step options label = some c') : Closed c' ∧ Unmoved c c' := by
  cases closes_of_step hstep with
  | pool hothers hsignal => exact h.signal hsignal
  | shutdown hsignal =>
    obtain ⟨⟨hexited, hjoined, hstopping⟩, hunmoved⟩ := h.signal hsignal
    exact ⟨⟨hexited, hjoined, hstopping⟩, hunmoved⟩
  | announce hcalls hsignal =>
    obtain ⟨⟨hexited, hjoined, hstopping⟩, hunmoved⟩ := h.signal hsignal
    exact ⟨⟨hexited, hjoined, hstopping⟩, hunmoved⟩
  | join hcalls hjoinable hexited =>
    refine ⟨⟨h.exited, fun joinable hmem => ?_, h.stopping⟩, rfl, rfl⟩
    rcases List.mem_or_eq_of_mem_set hmem with hold | hnew
    · exact h.joined joinable hold
    · exact hnew
  | _ => exact ⟨⟨h.exited, h.joined, h.stopping⟩, rfl, rfl⟩

/-- No run moves a closed pool. -/
theorem Closed.run (h : Closed c) {labels : List (CloseLabel ρ)}
    (hrun : Run (Closing.step options) c labels c') : Unmoved c c' :=
  Run.mono (I := Closed) (R := Unmoved) (fun _ => ⟨rfl, rfl⟩)
    (fun h h' => ⟨h'.1.trans h.1, h'.2.trans h.2⟩) (fun _ _ _ hclosed hstep => hclosed.step hstep)
    h hrun

/-! ## Every call returns -/

/-- The steps of the threads: those of the pool, and those of the calls that are under way. -/
def ofThreads (options : BatchingOptions) : CloseLabel ρ → Bool
  | .pool s => (waiting options).ofThreads s
  | .shutdown => false
  | _ => true

/-- A step that gives the threads nothing to do. -/
def isQuiet : CloseLabel ρ → Bool
  | .pool (.act label) => label.isQuiet
  | .shutdown => false
  | _ => true

/-- A spurious wakeup. -/
def isSpurious : CloseLabel ρ → Bool
  | .pool s => Discipline.isSpurious s
  | _ => false

/-- A bound for the steps the threads can take until new work or a new call. -/
def effort (options : BatchingOptions) (c : Closing ρ) : Nat :=
  Pool.effort options c.pool + (c.calls.map (Call.ahead options.workerCount)).sum

/-- The effort when a call goes on. -/
theorem sum_ahead_replaced (workers : Nat) (before after : List Call) (a b : Call) :
    ((before ++ b :: after).map (Call.ahead workers)).sum + a.ahead workers =
      ((before ++ a :: after).map (Call.ahead workers)).sum + b.ahead workers := by
  simp only [List.map_append, List.map_cons, List.sum_append, List.sum_cons]
  omega

/-- A step of the pool's own threads lowers its effort. -/
theorem Orderly.effort_lt (h : Orderly options c) (hroom : 0 < options.maxBatchSize)
    {s : Signal (Label ρ)} {m : Monitored (Pool ρ)} (hs : (waiting options).ofThreads s = true)
    (hsignal : (waiting options).signal c.pool s = some m) :
    Pool.effort options m < Pool.effort options c.pool :=
  h.sound.effort_lt (fun _ hstands => stands_lt h.consistent hstands)
    (fun _ _ hactor hstep => remaining_lt_of_step hroom hactor hstep) hs hsignal

/-- **Every step of a thread brings the calls closer to their end.** -/
theorem Orderly.progress (h : Orderly options c) (hroom : 0 < options.maxBatchSize)
    {label : CloseLabel ρ} (hlabel : ofThreads options label = true)
    (hstep : c.step options label = some c') : effort options c' < effort options c := by
  have hcount : c.joinable.length = options.workerCount := h.threads.trans h.consistent.workers
  unfold effort
  cases closes_of_step hstep with
  | pool hothers hsignal => exact Nat.add_lt_add_right (h.effort_lt hroom hlabel hsignal) _
  | shutdown hsignal => cases hlabel
  | announce hcalls hsignal =>
    rename_i k before after m
    have hlt := h.effort_lt hroom rfl hsignal
    have hsum := sum_ahead_replaced options.workerCount before after .announcing .queued
    rw [← hcalls] at hsum
    simp only [Call.ahead] at hsum
    dsimp only
    omega
  | lock hcalls hfree =>
    rename_i k before after
    have hsum := sum_ahead_replaced options.workerCount before after .queued (.joining 0)
    rw [← hcalls] at hsum
    simp only [Call.ahead] at hsum
    dsimp only
    omega
  | join hcalls hjoinable hexited =>
    rename_i k before after next
    obtain ⟨hlt, -⟩ := List.getElem?_eq_some_iff.1 hjoinable
    have hsum := sum_ahead_replaced options.workerCount before after (.joining next)
      (.joining (next + 1))
    rw [← hcalls] at hsum
    simp only [Call.ahead] at hsum
    dsimp only
    omega
  | skip hcalls hjoined =>
    rename_i k before after next
    obtain ⟨hlt, -⟩ := List.getElem?_eq_some_iff.1 hjoined
    have hsum := sum_ahead_replaced options.workerCount before after (.joining next)
      (.joining (next + 1))
    rw [← hcalls] at hsum
    simp only [Call.ahead] at hsum
    dsimp only
    omega
  | unlock hcalls =>
    rename_i k before after
    have hsum := sum_ahead_replaced options.workerCount before after
      (.joining c.joinable.length) .returned
    rw [← hcalls] at hsum
    simp only [Call.ahead] at hsum
    dsimp only
    omega

/-- A quiet step of somebody else costs a spurious wakeup at most. -/
theorem effort_le_of_step {label : CloseLabel ρ} (hlabel : ofThreads options label = false)
    (hquiet : isQuiet label = true) (hstep : c.step options label = some c') :
    effort options c' ≤ effort options c + if isSpurious label then 1 else 0 := by
  cases label with
  | pool s =>
    unfold step at hstep
    dsimp only at hstep
    split_ifs at hstep
    obtain ⟨m, hsignal, rfl⟩ := Option.map_eq_some_iff.1 hstep
    have hacts : ∀ label ∈ Discipline.acts [s], label.isQuiet = true := by
      cases s <;> simp_all [Discipline.acts, isQuiet]
    have hle := Discipline.effort_le (n := options.workerCount) hlabel
      (quiet_of_isQuiet hacts s (List.mem_singleton_self s)) hsignal
    unfold effort Pool.effort isSpurious
    dsimp only
    omega
  | shutdown => cases hquiet
  | _ => cases hlabel

/-- Without new work and new calls the threads take a bounded number of steps. -/
theorem Orderly.bounded (hroom : 0 < options.maxBatchSize) :
    ∀ {labels : List (CloseLabel ρ)} {c c' : Closing ρ}, Orderly options c →
      (∀ label ∈ labels, isQuiet label = true) → Run (Closing.step options) c labels c' →
      labels.countP (ofThreads options) + effort options c' ≤
        effort options c + labels.countP isSpurious
  | [], c, c', _, _, hrun => by
      obtain rfl := Run.nil_iff.1 hrun
      simp
  | label :: labels, c, c', h, hquiet, hrun => by
      obtain ⟨hlabel, hrest⟩ := List.forall_mem_cons.1 hquiet
      obtain ⟨middle, hstep, hrun'⟩ := Run.cons_iff.1 hrun
      have ih := Orderly.bounded hroom (h.step hstep) hrest hrun'
      rw [List.countP_cons, List.countP_cons]
      by_cases hthread : ofThreads options label = true
      · have hlt := h.progress hroom hthread hstep
        rw [if_pos hthread]
        omega
      · have hle := effort_le_of_step (Bool.eq_false_of_not_eq_true hthread) hlabel hstep
        rw [if_neg hthread]
        omega

/-- The pool at another time, with its calls of `shutdown`. -/
def later (c : Closing ρ) (now : Int) : Closing ρ :=
  { c with pool := Pool.later c.pool now }

/-- No thread can take a step, however late it is and whatever the wrapped backend answers. -/
def AtRest (options : BatchingOptions) (c : Closing ρ) : Prop :=
  ∀ now, c.pool.inner.environment.now ≤ now → ∀ label, ofThreads options label = true →
    (c.later now).step options label = none

/-- A call that holds `join_mutex` and is not through can go on when its worker has exited. -/
theorem join_isSome (options : BatchingOptions) {k next : Nat}
    (hcall : c.calls[k]? = some (.joining next))
    (hnext : next < c.joinable.length) (hlength : c.joinable.length = c.pool.inner.workers.length)
    (hexited : ∀ worker ∈ c.pool.inner.workers, worker = .exited) :
    (c.step options (.join k)).isSome = true := by
  have hjoinable := List.getElem?_eq_getElem hnext
  have hworker := List.getElem?_eq_getElem (hlength ▸ hnext)
  rw [hexited _ (List.getElem_mem _)] at hworker
  unfold step
  dsimp only
  rw [hcall]
  dsimp only
  rw [hjoinable, hworker]
  cases c.joinable[next] <;> rfl

/-- **Nothing but a call that has returned is at rest.** -/
theorem AtRest.returned (hrest : AtRest options c) (h : Orderly options c)
    (hworkers : 0 < options.workerCount) : ∀ call ∈ c.calls, call = .returned := by
  have hnow := le_refl c.pool.inner.environment.now
  have hstep : ∀ label, ofThreads options label = true → c.step options label = none :=
    fun label hlabel => hrest _ hnow label hlabel
  -- the pool itself is at rest: a notice that is not its own belongs to a call that can go on
  have hpool : Pool.AtRest options c.pool := by
    intro now hnow s hs
    have hnone := hrest now hnow (.pool s) hs
    unfold step at hnone
    dsimp only at hnone
    split_ifs at hnone with hothers
    · exact Option.map_eq_none_iff.1 hnone
    · by_contra hsome
      obtain ⟨m, hsignal⟩ := Option.ne_none_iff_exists'.1 hsome
      cases s with
      | act label =>
        cases label with
        | shutdown => cases hs
        | _ => exact hothers rfl
      | notify who =>
        cases who with
        | some i => exact hothers rfl
        | none =>
          have hle : c.pool.notices.count none ≤ c.calls.count .announcing :=
            Nat.le_of_not_lt fun hlt => hothers (decide_eq_true hlt)
          have hmem := (Discipline.signal_notify.1 hsignal).1
          have hpos : 0 < c.calls.count .announcing :=
            (List.count_pos_iff.2 hmem).trans_le hle
          obtain ⟨k, hk⟩ := List.mem_iff_getElem?.1 (List.count_pos_iff.1 hpos)
          have hannounce := hrest now hnow (.announce k) rfl
          unfold step at hannounce
          dsimp only at hannounce
          rw [if_pos (show (c.later now).calls[k]? = some .announcing from hk)] at hannounce
          exact absurd (Option.map_eq_none_iff.1 hannounce) hsome
      | sleep i => exact hothers rfl
      | spurious i => cases hs
  intro call hmem
  have hexited : ∀ worker ∈ c.pool.inner.workers, worker = .exited := by
    have hall := (hpool.settled h.sound h.consistent hworkers).2
    rw [h.stopping (List.ne_nil_of_mem hmem), if_pos rfl] at hall
    exact hall
  -- the call that holds `join_mutex` can go on
  have hfree : ∀ call ∈ c.calls, call.holds = false := by
    intro call hmem
    obtain ⟨k, hk⟩ := List.mem_iff_getElem?.1 hmem
    cases call with
    | joining next =>
      rcases (h.passed next hmem).1.lt_or_eq with hlt | heq
      · have hsome := join_isSome options hk hlt h.threads hexited
        rw [hstep (.join k) rfl] at hsome
        cases hsome
      · have hunlock := hstep (.unlock k) rfl
        unfold step at hunlock
        dsimp only at hunlock
        rw [hk] at hunlock
        dsimp only at hunlock
        rw [if_pos heq] at hunlock
        cases hunlock
    | _ => rfl
  obtain ⟨k, hk⟩ := List.mem_iff_getElem?.1 hmem
  cases call with
  | announcing =>
    have hannounce := hstep (.announce k) rfl
    unfold step at hannounce
    dsimp only at hannounce
    rw [if_pos hk] at hannounce
    have hnotice : none ∈ c.pool.notices :=
      List.count_pos_iff.1 ((List.count_pos_iff.2 hmem).trans_le h.announced)
    have hsignal : (waiting options).signal c.pool (.notify none) = some _ :=
      Discipline.signal_notify.2 ⟨hnotice, rfl⟩
    exact absurd ((Option.map_eq_none_iff.1 hannounce).symm.trans hsignal) nofun
  | queued =>
    have hlock := hstep (.lock k) rfl
    unfold step at hlock
    dsimp only at hlock
    rw [if_pos ⟨hk, hfree⟩] at hlock
    cases hlock
  | joining next => exact absurd (hfree _ hmem) nofun
  | returned => rfl

/-- Every run with calls of `shutdown` is a run of the pool with its sleeping workers. -/
theorem signals_of_run {labels : List (CloseLabel ρ)} (hrun : Run (step options) c labels c') :
    ∃ signals, Run (waiting options).signal c.pool signals c'.pool := by
  induction labels generalizing c with
  | nil =>
    obtain rfl := Run.nil_iff.1 hrun
    exact ⟨[], Run.nil_iff.2 rfl⟩
  | cons label labels ih =>
    obtain ⟨middle, hstep, hrest⟩ := Run.cons_iff.1 hrun
    obtain ⟨signals, hsignals⟩ := ih hrest
    cases closes_of_step hstep with
    | pool hothers hsignal => exact ⟨_ :: signals, Run.cons_iff.2 ⟨_, hsignal, hsignals⟩⟩
    | shutdown hsignal => exact ⟨_ :: signals, Run.cons_iff.2 ⟨_, hsignal, hsignals⟩⟩
    | announce hcalls hsignal => exact ⟨_ :: signals, Run.cons_iff.2 ⟨_, hsignal, hsignals⟩⟩
    | _ => exact ⟨signals, hsignals⟩

/-- **A call of `shutdown` returns, and the pool is closed then.** For every accepted configuration
and every run with any number of calls of `shutdown`, callers and workers that interleave in any
way: the run is one of the pool with its sleeping workers; one call at a time holds `join_mutex`;
when a call has returned, every worker has exited and been joined, every admitted job has been
completed exactly once, and nothing is admitted or completed any more; without new work and new
calls the threads take a bounded number of steps; and they come to rest only when every call has
returned. -/
theorem shutdown_returns {wrapped : Bool} {environment : Environment} {initial : Pool ρ}
    (hcreate : create wrapped options environment = .ok initial) {before : List (CloseLabel ρ)}
    (hrun : Run (step options) (start initial) before c) :
    (∃ signals, Run (waiting options).signal { inner := initial } signals c.pool) ∧
      c.calls.countP Call.holds ≤ 1 ∧
      (.returned ∈ c.calls →
        (∀ worker ∈ c.pool.inner.workers, worker = .exited) ∧
          (∀ joinable ∈ c.joinable, joinable = false) ∧
          (c.pool.inner.completions.map Completion.job).Perm
            (List.range c.pool.inner.admitted.length) ∧
          ∀ after c', Run (step options) c after c' → Unmoved c c') ∧
      (∀ after c', (∀ label ∈ after, isQuiet label = true) → Run (step options) c after c' →
        after.countP (ofThreads options) + effort options c' ≤
          effort options c + after.countP isSpurious) ∧
      (AtRest options c → ∀ call ∈ c.calls, call = .returned) := by
  obtain ⟨hworkers, hroom⟩ := configured_of_create hcreate
  have horderly : Orderly options c :=
    Reachable.invariant (.start hcreate) (fun _ _ _ h hstep => h.step hstep) ⟨before, hrun⟩
  refine ⟨signals_of_run hrun, horderly.one, fun hreturned => ?_,
    fun after c' hquiet hafter => horderly.bounded hroom hquiet hafter,
    fun hrest => hrest.returned horderly hworkers⟩
  have hclosed := horderly.closed hreturned
  exact ⟨hclosed.exited, hclosed.joined,
    (horderly.consistent.accounts hworkers).exited hclosed.exited,
    fun after c' hafter => hclosed.run hafter⟩

/-- Two threads shut a sleeping worker down. The second one joins it, and the first one passes over
it. -/
def rivals : List (CloseLabel Nat) :=
  [.pool (.sleep 0), .shutdown, .shutdown, .announce 1, .pool (.act (.work 0 .wake)), .lock 1,
    .join 1, .unlock 1, .announce 0, .lock 0, .join 0, .unlock 0]

/-- Both calls have returned, and the only worker has exited and been joined. -/
theorem shutdown_returns_rivals : ∃ c : Closing Nat, c.calls = [.returned, .returned] ∧
    (∀ worker ∈ c.pool.inner.workers, worker = .exited) ∧
    (∀ joinable ∈ c.joinable, joinable = false) := by
  obtain ⟨initial, c, hcreate, hrun, hcalls⟩ :
      ∃ (initial : Pool Nat) (c : Closing Nat), create true {} { now := 0 } = .ok initial ∧
        Run (step {}) (start initial) rivals c ∧ c.calls = [.returned, .returned] :=
    ⟨_, _, rfl, rfl, rfl⟩
  obtain ⟨-, -, hclosed, -, -⟩ := shutdown_returns hcreate hrun
  obtain ⟨hexited, hjoined, -, -⟩ := hclosed (hcalls ▸ List.mem_cons_self)
  exact ⟨c, hcalls, hexited, hjoined⟩

end Closing

end Pool

end Jevt
