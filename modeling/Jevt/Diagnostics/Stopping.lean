import Jevt.Diagnostics.Lifecycle

/-!
# Calls of `stop` return

Once a call of `stop` has exchanged `is_running`, the call and the accept thread have a bounded
number of operations ahead of them (`effort`), and one of the two can always go on, so the call
returns (`stop_returns`). There is one exception. `accept_loop` loads the number of the listener
and accepts on it in two steps. When `stop` closes the listener between the two, and the rest of the
process is given that number, the thread waits for a client of the process, and `stop` for the
thread.
-/

namespace Jevt.HttpServer

open Library

/-- The steps of the call and of the thread. -/
def Step.own : Step → Bool
  | .caller _ | .worker _ => true
  | _ => false

/-- The operations that are ahead of a call of `stop` behind its exchange of `is_running`. -/
def Call.ahead : Call → Nat
  | .takeSocket => 7
  | .shutdown _ => 6
  | .close _ => 5
  | .lockClient => 4
  | .shutdownClient => 3
  | .join => 2
  | .clearPort => 1
  | _ => 0

/-- A bound for the operations that are ahead of `handle` once the server does not run. -/
def Handle.ahead : Handle → Nat
  | .receiving _ => 3
  | .reading _ => 2
  | .answering _ => 1
  | .sending texts => texts.length + 1
  | .writing texts => texts.length + 2

/-- A bound for the operations that are ahead of the thread once the server does not run. -/
def Worker.ahead : Worker → Nat
  | .load => 12
  | .accept _ => 11
  | .accepted _ => 10
  | .entering _ => 9
  | .registering _ => 8
  | .configuring _ => 7
  | .serving _ h => 4 + h.ahead
  | .leaving _ => 4
  | .clearing _ => 3
  | .closing _ => 2
  | .loop => 1
  | .rejected => 1
  | .ended => 0

namespace Server

variable {s t : Server} {c : Call} {w : Worker} {a : Answer}

/-- A call of `stop` has exchanged `is_running` and not returned. -/
def Stopping (s : Server) : Prop :=
  ∃ c, s.call = some c ∧ c.ahead ≠ 0

/-- A bound for the steps that are left to the call and the thread. -/
def effort (s : Server) : Nat :=
  s.call.elim 0 Call.ahead + s.worker.elim 0 Worker.ahead

/-- The thread may wait for a client. -/
def Waits (s : Server) : Prop :=
  ∃ listening, s.worker = some (.accept listening) ∧ s.owner listening ≠ none

/-- A call of `stop` goes on, or it returns. -/
theorem Stopping.callStep (h : s.Sound) (hcall : s.call = some c) (hahead : c.ahead ≠ 0)
    (hstep : s.callStep c a = some t) :
    t.effort < s.effort ∧ (t.Stopping ∨ t.call = none ∧ t.last = some .stopped) := by
  have hstaged := h.placed.staged
  unfold Staged at hstaged
  rw [hcall] at hstaged
  unfold Server.callStep at hstep
  unfold effort Stopping
  rw [hcall]
  (repeat' split at hstep) <;> cases hstep <;> dsimp only [returns, goes, turns, assign] <;>
    grind [Call.ahead, Worker.ahead]

/-- `handle` ends. -/
theorem ahead_handleStep {h : Handle} {h' : Option Handle} (hrunning : s.isRunning = false)
    (hstep : s.handleStep h a = some h') : h'.elim 0 Handle.ahead < h.ahead := by
  unfold handleStep at hstep
  (repeat' split at hstep) <;> cases hstep <;> dsimp only [Handle.ahead] <;>
    grind [Handle.ahead]

/-- The thread ends. -/
theorem ahead_workerStep (hrunning : s.isRunning = false) (hworker : s.worker = some w)
    (hstep : s.workerStep w a = some t) : t.effort < s.effort ∧ t.call = s.call := by
  have hhandle := @ahead_handleStep s a
  unfold Server.workerStep at hstep
  unfold effort
  rw [hworker]
  (repeat' split at hstep) <;> cases hstep <;> dsimp only [turns, assign] <;>
    grind [Worker.ahead, Handle.ahead]

/-- The server does not run any more. -/
theorem Stopping.isRunning (h : s.Stopping) (hsound : s.Sound) : s.isRunning = false := by
  obtain ⟨c, hcall, hahead⟩ := h
  have hstaged := hsound.placed.staged
  unfold Staged at hstaged
  rw [hcall] at hstaged
  cases c <;> first | exact hstaged.1 | exact absurd rfl hahead

/-- A call of `stop` is under way, or the last one has returned. -/
def StoppingOrStopped (s : Server) : Prop :=
  s.Stopping ∨ s.call = none ∧ s.last = some .stopped

/-- **What one step does**: a step of the call or of the thread brings both nearer to their ends. -/
theorem effort_step (h : s.Sound) (hstop : s.StoppingOrStopped) {l : Step}
    (hl : ∀ request, l ≠ .call request) (hstep : s.step l = some t) :
    t.StoppingOrStopped ∧ t.effort + (if l.own then 1 else 0) ≤ s.effort := by
  cases l with
  | call request => exact absurd rfl (hl request)
  | caller answer =>
    obtain ⟨c, hcall, hstep⟩ := Option.bind_eq_some_iff.1 hstep
    rcases hstop with ⟨c', hcall', hahead⟩ | ⟨hnone, -⟩
    · obtain rfl := Option.some.inj (hcall.symm.trans hcall')
      obtain ⟨hless, hnext⟩ := Stopping.callStep h hcall hahead hstep
      exact ⟨hnext, hless⟩
    · rw [hnone] at hcall
      cases hcall
  | worker answer =>
    obtain ⟨w, hworker, hstep⟩ := Option.bind_eq_some_iff.1 hstep
    rcases hstop with hstop | ⟨hnone, hlast⟩
    · obtain ⟨hless, hcall⟩ := ahead_workerStep (hstop.isRunning h) hworker hstep
      obtain ⟨c, hc, hahead⟩ := hstop
      exact ⟨.inl ⟨c, hcall.trans hc, hahead⟩, hless⟩
    · rw [(h.placed.last hnone hlast).worker] at hworker
      cases hworker
  | opens fd | closes fd =>
    unfold Server.step at hstep
    dsimp only at hstep
    split_ifs at hstep
    cases hstep
    exact ⟨hstop, le_rfl⟩

/-- A run of such steps is bounded. -/
theorem effort_run {ls : List Step} (h : s.Sound) (hstop : s.StoppingOrStopped)
    (hls : ∀ l ∈ ls, ∀ request, l ≠ .call request) (hrun : Run step s ls t) :
    t.Sound ∧ t.StoppingOrStopped ∧ t.effort + ls.countP Step.own ≤ s.effort := by
  induction ls generalizing s with
  | nil =>
    obtain rfl := Run.nil_iff.1 hrun
    exact ⟨h, hstop, le_rfl⟩
  | cons l ls ih =>
    obtain ⟨m, hm, hrest⟩ := Run.cons_iff.1 hrun
    obtain ⟨hstop', hstep⟩ := effort_step h hstop (hls l List.mem_cons_self) hm
    obtain ⟨hsound, hend, hleft⟩ :=
      ih (h.step hm) hstop' (fun k hk => hls k (List.mem_cons_of_mem _ hk)) hrest
    refine ⟨hsound, hend, ?_⟩
    rw [List.countP_cons]
    omega

/-- The call and the thread together have less than twenty operations ahead of them. -/
theorem effort_le (h : s.Sound) : s.effort ≤ 19 := by
  have hcall : s.call.elim 0 Call.ahead ≤ 7 := by
    cases s.call with
    | none => exact Nat.zero_le _
    | some c => cases c <;> simp [Call.ahead]
  have hworker : s.worker.elim 0 Worker.ahead ≤ 12 := by
    cases hw : s.worker with
    | none => exact Nat.zero_le _
    | some w =>
      cases w with
      | serving client handle =>
        obtain ⟨-, htexts⟩ := h.buffered client handle hw
        show 4 + handle.ahead ≤ 12
        cases handle <;> dsimp only [Handle.ahead, Handle.texts] at htexts ⊢ <;> omega
      | _ => simp [Worker.ahead]
  exact Nat.add_le_add hcall hworker

/-- `handle` can go on. -/
theorem exists_handleStep (s : Server) (h : Handle) : ∃ a h', s.handleStep h a = some h' := by
  cases h with
  | reading request =>
    by_cases hopen : Unfinished s.options.maxRequestBytes request
    · exact ⟨.fails, _, if_pos hopen⟩
    · exact ⟨.ok, _, if_neg hopen⟩
  | receiving request => exact ⟨.recv .retry, _, rfl⟩
  | answering request => exact ⟨.fails, _, rfl⟩
  | sending texts =>
    match texts with
    | [] => exact ⟨.ok, _, rfl⟩
    | [] :: texts => exact ⟨.ok, _, rfl⟩
    | (_ :: _) :: texts => exact ⟨.fails, _, rfl⟩
  | writing texts =>
    match texts with
    | [] => exact ⟨.send .retry, _, rfl⟩
    | _ :: _ => exact ⟨.send .retry, _, rfl⟩

/-- The thread can go on, unless it has ended or waits for `client_mutex`. -/
theorem exists_workerStep (hrunning : s.isRunning = false) (hne : w ≠ .ended)
    (hlock : s.clientLocked = false ∨ w.locks = true) : ∃ a t, s.workerStep w a = some t := by
  cases w with
  | ended => exact absurd rfl hne
  | accept listening => exact ⟨.fails, _, rfl⟩
  | accepted client => exact ⟨.ok, _, if_neg (by simpa [Worker.locks] using hlock)⟩
  | leaving client => exact ⟨.ok, _, if_neg (by simpa [Worker.locks] using hlock)⟩
  | entering client => exact ⟨.ok, _, if_neg (by simp [hrunning])⟩
  | serving client handle =>
    obtain ⟨a, h', hstep⟩ := s.exists_handleStep handle
    cases h' with
    | none => exact ⟨a, s.turns (.leaving client), by simp [Server.workerStep, hstep]⟩
    | some h' => exact ⟨a, s.turns (.serving client h'), by simp [Server.workerStep, hstep]⟩
  | _ => exact ⟨.ok, _, rfl⟩

/-- **Somebody can go on**: the call, or the thread without waiting for a client. The exception is a
thread that accepts on a number which the process has been given. -/
theorem progress (h : s.Sound) (hstop : s.Stopping) :
    (∃ a t, s.step (.caller a) = some t) ∨
      (¬s.Waits ∧ ∃ a t, s.step (.worker a) = some t) ∨
      (s.call = some .join ∧ ∃ listening, s.worker = some (.accept listening) ∧
        s.owner listening = some .process) := by
  have hrunning := hstop.isRunning h
  obtain ⟨c, hcall, hahead⟩ := hstop
  have hcaller : ∀ {a t}, s.callStep c a = some t → ∃ a t, s.step (.caller a) = some t :=
    fun {a t} hstep => ⟨a, t, by simp [Server.step, hcall, hstep]⟩
  have hthread : ∀ {w}, s.worker = some w → w ≠ .ended →
      (s.clientLocked = false ∨ w.locks = true) → ∃ a t, s.step (.worker a) = some t := by
    intro w hworker hne hlock
    obtain ⟨a, t, hstep⟩ := exists_workerStep hrunning hne hlock
    exact ⟨a, t, by simp [Server.step, hworker, hstep]⟩
  obtain ⟨hlocked, -⟩ := h.locked
  rw [hcall] at hlocked
  cases c with
  | takeSocket => exact .inl (hcaller (a := .ok) rfl)
  | shutdown socket => exact .inl (hcaller (a := .ok) rfl)
  | close socket => exact .inl (hcaller (a := .ok) rfl)
  | shutdownClient => exact .inl (hcaller (a := .ok) rfl)
  | clearPort => exact .inl (hcaller (a := .ok) rfl)
  | lockClient =>
    cases hlock : s.clientLocked with
    | false => exact .inl (hcaller (a := .ok) (if_neg (by simp [hlock])))
    | true =>
      -- the thread has the mutex, so it is not in `accept`
      have hcaller : Call.lockClient.locks = false := rfl
      rw [hlock, Option.any_some, hcaller, Bool.false_or] at hlocked
      obtain ⟨w, hworker, hlocks⟩ := (Option.any_eq_true ..).1 hlocked.symm
      refine .inr (.inl ⟨fun ⟨listening, haccept, _⟩ => ?_, hthread hworker ?_ (.inr hlocks)⟩)
      · rw [hworker] at haccept
        rw [Option.some.inj haccept] at hlocks
        cases hlocks
      · rintro rfl
        cases hlocks
  | join =>
    cases hworker : s.worker with
    | none => exact .inl (hcaller (a := .ok) (if_pos (.inl hworker)))
    | some w =>
      by_cases hended : w = .ended
      · exact .inl (hcaller (a := .ok) (if_pos (.inr (hended ▸ hworker))))
      have hlock : s.clientLocked = false ∨ w.locks = true := by
        cases hlocks : w.locks with
        | true => exact .inr rfl
        | false => exact .inl (hlocked.trans (by simp [hworker, hlocks, Call.locks]))
      by_cases haccept : ∃ listening, w = .accept listening ∧ s.owner listening ≠ none
      · obtain ⟨listening, rfl, hopen⟩ := haccept
        refine .inr (.inr ⟨hcall, listening, rfl, ?_⟩)
        -- the listener has been closed, so the number is not the server's
        have hgone : s.owner listening ≠ some .server := by
          rw [Ne, h.held.owned]
          have hstaged := h.placed.staged
          unfold Staged at hstaged
          rw [hcall] at hstaged
          simp [holdings, hcall, hworker, hstaged.2, Call.socket, Worker.client]
        cases howner : s.owner listening with
        | none => exact absurd howner hopen
        | some o =>
          cases o with
          | server => exact absurd howner hgone
          | process => rfl
      · refine .inr (.inl ⟨fun ⟨listening, heq, hopen⟩ => haccept ⟨listening, ?_, hopen⟩,
          hthread hworker hended hlock⟩)
        exact Option.some.inj (hworker.symm.trans heq)
  | _ => exact absurd rfl hahead

/-- **A call of `stop` returns.** Take any state of any run in which a call of `stop` has exchanged
`is_running`. As long as it has not returned, the call and the accept thread together take at most
nineteen steps, whatever the rest of the process does, and one of the two can go on without waiting
for a client. The exception is a thread that is about to accept on the number of the listener when
the process has been given that number. -/
theorem stop_returns {kDashboard : Bytes} {owner : Socket → Option Owner}
    (howner : ∀ fd, owner fd ≠ some .server) {ls : List Step} {s : Server}
    (h : Run step (fresh kDashboard owner) ls s) (hstop : s.Stopping) {ms : List Step} {t : Server}
    (hms : ∀ l ∈ ms, ∀ request, l ≠ .call request) (hrun : Run step s ms t) :
    ms.countP Step.own ≤ 19 ∧
      ((t.call = none ∧ t.last = some .stopped) ∨
        (∃ a u, t.step (.caller a) = some u) ∨
        (¬t.Waits ∧ ∃ a u, t.step (.worker a) = some u) ∨
        (t.call = some .join ∧ ∃ listening, t.worker = some (.accept listening) ∧
          t.owner listening = some .process)) := by
  have hsound := sound_of_run howner h
  obtain ⟨hsound', hend, hbound⟩ := effort_run hsound (.inl hstop) hms hrun
  have hle := effort_le hsound
  refine ⟨by omega, ?_⟩
  rcases hend with hstopping | hstopped
  · exact .inr (progress hsound' hstopping)
  · exact .inl hstopped

/-- The exception does happen: the thread has loaded the number of the listener, `stop` closes it,
the process is given the number, and `stop` waits for a thread that waits for a client. -/
theorem stop_returns_reopened :
    let owner : Socket → Option Owner := fun fd => if fd < 3 then some .process else none
    let starting : List Step := [.call (.start {}), .caller .ok, .caller (.socket 3),
      .caller (.bound 8080), .caller .ok, .caller .ok, .caller .ok, .caller .ok, .caller .ok,
      .worker .ok, .worker .ok, .call .stop, .caller .ok]
    let stopping : List Step := [.caller .ok, .caller .ok, .caller .ok, .opens 3, .caller .ok,
      .caller .ok]
    ∃ s t, Run step (fresh [] owner) starting s ∧ Run step s stopping t ∧
      stopping.countP Step.own ≤ 19 ∧ t.call = some .join ∧ t.worker = some (.accept 3) ∧
      t.owner 3 = some .process := by
  intro owner starting stopping
  obtain ⟨s, hs⟩ : ∃ s, Run step (fresh [] owner) starting s := ⟨_, rfl⟩
  have howner : ∀ fd, owner fd ≠ some .server := fun fd => by
    show (if fd < 3 then some Owner.process else none) ≠ some .server
    split_ifs <;> simp
  have hms : ∀ l ∈ stopping, ∀ request, l ≠ .call request := by simp [stopping]
  obtain ⟨t, ht⟩ : ∃ t, Run step s stopping t := by
    obtain rfl := Option.some.inj (show some _ = some s from hs)
    exact ⟨_, rfl⟩
  have hstop : s.Stopping := by
    obtain rfl := Option.some.inj (show some _ = some s from hs)
    exact ⟨.takeSocket, rfl, by decide⟩
  obtain rfl := Option.some.inj (show some _ = some s from hs)
  obtain rfl := Option.some.inj (show some _ = some t from ht)
  exact ⟨_, _, hs, ht, (stop_returns howner hs hstop hms ht).1, rfl, rfl, rfl⟩

end Server

end Jevt.HttpServer
