import Mathlib.Data.Finset.Card
import Mathlib.Data.Finset.Range
import Jevt.Library.Run

/-!
# Threads that wait for a condition variable

A machine whose steps are critical sections of threads, together with the waits of these threads
for one condition variable: `while (!condition) wait(lock)`, possibly with a time limit, where the
others call `notify_all` after they have given the lock back (`Discipline`).

The machine by itself says that a wait ends when its condition holds. In the monitored machine a
thread that finds its condition false goes to sleep, and takes no step before a call of `notify_all`
that comes later, a spurious wakeup or its time limit. The module has the two sides of this
refinement. Every run of the monitored machine is one of the machine (`refines`). And when every
critical section that can make the condition of another thread true is followed by `notify_all`
(`Announces`), no wakeup is lost (`Sound`): a thread sleeps on a condition that holds only as long
as a call of `notify_all` is ahead, so as long as a thread could act in the machine, there is
something to do in the monitored one (`Sound.exists_signal`), and without new work the threads do
not go round in circles (`length_le_effort`).
-/

namespace Jevt.Library

/-- The waits of the threads of a machine: which thread takes a step, if it is one of them, whether
a thread stands at a wait, whether its condition holds, whether its time is up, and whether a step
is followed by a call of `notify_all`. -/
structure Discipline (σ α : Type*) where
  step : σ → α → Option σ
  actor : α → Option ℕ
  waits : σ → ℕ → Bool
  holds : σ → ℕ → Bool
  expired : σ → ℕ → Bool
  notifies : σ → α → Bool

/-- A state of the machine, the threads that sleep, and who has a call of `notify_all` ahead. -/
structure Monitored (σ : Type*) where
  inner : σ
  asleep : List ℕ := []
  notices : List (Option ℕ) := []

/-- A step of the monitored machine: a critical section, a thread that goes to sleep, a call of
`notify_all`, or a spurious wakeup. -/
inductive Signal (α : Type*) where
  | act (a : α)
  | sleep (i : ℕ)
  | notify (who : Option ℕ)
  | spurious (i : ℕ)

namespace Discipline

variable {σ α : Type*} (D : Discipline σ α)

/-- A thread can run: it does not sleep, unless its time is up, and it has no call of `notify_all`
ahead. Those who never wait can always run. -/
def awake (m : Monitored σ) : Option ℕ → Bool
  | none => true
  | some i => (!m.asleep.contains i || D.expired m.inner i) && !m.notices.contains (some i)

/-- The threads that still sleep when one takes a step. -/
def wakened (m : Monitored σ) : Option ℕ → List ℕ
  | none => m.asleep
  | some i => m.asleep.erase i

/-- The calls of `notify_all` that are ahead when a thread has taken a step. -/
def announced (m : Monitored σ) (a : α) : List (Option ℕ) :=
  if D.notifies m.inner a then D.actor a :: m.notices else m.notices

/-- One step of the monitored machine. -/
def signal (m : Monitored σ) : Signal α → Option (Monitored σ)
  | .act a =>
    if D.awake m (D.actor a) then
      (D.step m.inner a).map fun inner =>
        { inner, asleep := wakened m (D.actor a), notices := D.announced m a }
    else none
  | .sleep i =>
    if D.waits m.inner i = true ∧ D.holds m.inner i = false ∧ D.expired m.inner i = false ∧
        i ∉ m.asleep ∧ some i ∉ m.notices then
      some { m with asleep := i :: m.asleep }
    else none
  | .notify who =>
    if who ∈ m.notices then some { m with asleep := [], notices := m.notices.erase who } else none
  | .spurious i => if i ∈ m.asleep then some { m with asleep := m.asleep.erase i } else none

/-- The critical sections of a run. -/
def acts : List (Signal α) → List α
  | [] => []
  | .act a :: signals => a :: acts signals
  | _ :: signals => acts signals

variable {D} {m m' : Monitored σ}

/-! ## The monitored machine refines the machine -/

/-- A critical section: a thread that can run takes a step of the machine. -/
theorem signal_act {a : α} : D.signal m (.act a) = some m' ↔ D.awake m (D.actor a) = true ∧
    ∃ inner, D.step m.inner a = some inner ∧
      m' = { inner, asleep := wakened m (D.actor a), notices := D.announced m a } := by
  simp [signal, Option.map_eq_some_iff, @eq_comm _ _ m']

/-- A thread goes to sleep. -/
theorem signal_sleep {i : ℕ} : D.signal m (.sleep i) = some m' ↔
    (D.waits m.inner i = true ∧ D.holds m.inner i = false ∧ D.expired m.inner i = false ∧
      i ∉ m.asleep ∧ some i ∉ m.notices) ∧ m' = { m with asleep := i :: m.asleep } := by
  simp [signal, @eq_comm _ _ m']

/-- A call of `notify_all`. -/
theorem signal_notify {who : Option ℕ} : D.signal m (.notify who) = some m' ↔
    who ∈ m.notices ∧ m' = { m with asleep := [], notices := m.notices.erase who } := by
  simp [signal, @eq_comm _ _ m']

/-- A spurious wakeup. -/
theorem signal_spurious {i : ℕ} : D.signal m (.spurious i) = some m' ↔
    i ∈ m.asleep ∧ m' = { m with asleep := m.asleep.erase i } := by
  simp [signal, @eq_comm _ _ m']

/-- A step of the monitored machine is a critical section or leaves the machine alone. -/
theorem inner_of_signal {s : Signal α} (h : D.signal m s = some m') :
    (∃ a, s = .act a ∧ D.step m.inner a = some m'.inner) ∨
      (∀ a, s ≠ .act a) ∧ m'.inner = m.inner := by
  cases s with
  | act a =>
    obtain ⟨-, inner, hinner, rfl⟩ := signal_act.1 h
    exact .inl ⟨a, rfl, hinner⟩
  | sleep i =>
    obtain ⟨-, rfl⟩ := signal_sleep.1 h
    exact .inr ⟨nofun, rfl⟩
  | notify who =>
    obtain ⟨-, rfl⟩ := signal_notify.1 h
    exact .inr ⟨nofun, rfl⟩
  | spurious i =>
    obtain ⟨-, rfl⟩ := signal_spurious.1 h
    exact .inr ⟨nofun, rfl⟩

/-- **Every run of the monitored machine is a run of the machine.** -/
theorem refines {signals : List (Signal α)} (h : Run D.signal m signals m') :
    Run D.step m.inner (acts signals) m'.inner := by
  induction signals generalizing m with
  | nil =>
    obtain rfl := Run.nil_iff.1 h
    exact Run.nil_iff.2 rfl
  | cons s signals ih =>
    obtain ⟨middle, hstep, hrun⟩ := Run.cons_iff.1 h
    have hrest := ih hrun
    rcases inner_of_signal hstep with ⟨a, rfl, hinner⟩ | ⟨hother, hinner⟩
    · exact Run.cons_iff.2 ⟨middle.inner, hinner, hrest⟩
    · rw [hinner] at hrest
      cases s with
      | act a => exact absurd rfl (hother a)
      | sleep i => exact hrest
      | notify who => exact hrest
      | spurious i => exact hrest

/-- A step of the machine, with its call of `notify_all` at once. -/
theorem exists_signals {s t : σ} {a : α} (h : D.step s a = some t) :
    ∃ signals, acts signals = [a] ∧ Run D.signal { inner := s } signals { inner := t } := by
  have hawake : D.awake { inner := s } (D.actor a) = true := by
    cases hactor : D.actor a <;> simp [awake]
  have hact := signal_act.2 ⟨hawake, t, h, rfl⟩
  have hasleep : wakened { inner := s } (D.actor a) = [] := by
    cases D.actor a <;> rfl
  rw [hasleep, announced] at hact
  cases hnotifies : D.notifies s a with
  | false =>
    rw [hnotifies] at hact
    exact ⟨[.act a], rfl, Run.cons_iff.2 ⟨_, hact, Run.nil_iff.2 rfl⟩⟩
  | true =>
    rw [hnotifies] at hact
    have hnotify : D.signal { inner := t, asleep := [], notices := [D.actor a] }
        (.notify (D.actor a)) = some { inner := t } :=
      signal_notify.2 ⟨List.mem_singleton_self _, by simp⟩
    exact ⟨[.act a, .notify (D.actor a)], rfl,
      Run.cons_iff.2 ⟨_, hact, Run.cons_iff.2 ⟨_, hnotify, Run.nil_iff.2 rfl⟩⟩⟩

/-- The critical sections of an append. -/
theorem acts_append (signals signals' : List (Signal α)) :
    acts (signals ++ signals') = acts signals ++ acts signals' := by
  induction signals with
  | nil => rfl
  | cons s signals ih => cases s <;> simp [acts, ih]

/-- **Every run of the machine is one of the monitored machine.** -/
theorem exists_run {s t : σ} {as : List α} (h : Run D.step s as t) :
    ∃ signals, acts signals = as ∧ Run D.signal { inner := s } signals { inner := t } := by
  induction as generalizing s with
  | nil =>
    obtain rfl := Run.nil_iff.1 h
    exact ⟨[], rfl, Run.nil_iff.2 rfl⟩
  | cons a as ih =>
    obtain ⟨middle, hstep, hrest⟩ := Run.cons_iff.1 h
    obtain ⟨first, hfirst, hrun⟩ := exists_signals hstep
    obtain ⟨rest, hacts, hrun'⟩ := ih hrest
    exact ⟨first ++ rest, by rw [acts_append, hfirst, hacts]; rfl, hrun.trans hrun'⟩

/-! ## No wakeup is lost -/

/-- What the code of the threads must guarantee, in the states with the invariant `I`: a wait ends
only when its condition holds or its time is up, a step does not move another thread that waits, and
is followed by `notify_all` when it makes the condition of another thread true. -/
structure Announces (D : Discipline σ α) (I : σ → Prop) : Prop where
  keeps : ∀ {s a t}, I s → D.step s a = some t → I t
  ends : ∀ {s a t i}, I s → D.step s a = some t → D.actor a = some i → D.waits s i = true →
    D.holds s i = true ∨ D.expired s i = true
  stays : ∀ {s a t i}, I s → D.step s a = some t → D.actor a ≠ some i → D.waits s i = true →
    D.waits t i = true
  announces : ∀ {s a t i}, I s → D.step s a = some t → D.actor a ≠ some i → D.waits s i = true →
    D.holds s i = false → D.holds t i = true → D.notifies s a = true

/-- The threads that sleep stand at their waits, once each, and when the condition of one of them
holds, a call of `notify_all` is ahead. -/
structure Sound (D : Discipline σ α) (m : Monitored σ) : Prop where
  nodup : m.asleep.Nodup
  waits : ∀ i ∈ m.asleep, D.waits m.inner i = true
  noticed : ∀ i ∈ m.asleep, D.holds m.inner i = true → m.notices ≠ []

/-- Nobody sleeps in the beginning. -/
theorem sound_start (D : Discipline σ α) (s : σ) : Sound D { inner := s } :=
  ⟨.nil, nofun, nofun⟩

/-- The threads that still sleep did so before, and the one that took the step does not. -/
theorem Sound.mem_wakened (h : Sound D m) {who : Option ℕ} {i : ℕ} (hi : i ∈ wakened m who) :
    i ∈ m.asleep ∧ who ≠ some i := by
  cases who with
  | none => exact ⟨hi, nofun⟩
  | some j =>
    obtain ⟨hne, hmem⟩ := h.nodup.mem_erase_iff.1 hi
    exact ⟨hmem, fun heq => hne (Option.some.inj heq).symm⟩

/-- At most one of the threads that sleep gets up when a thread takes a step. -/
theorem length_wakened (m : Monitored σ) (who : Option ℕ) :
    m.asleep.length ≤ (wakened m who).length + 1 := by
  cases who with
  | none => exact Nat.le_succ _
  | some i =>
    have hlength : m.asleep.length - 1 ≤ (wakened m (some i)).length := List.le_length_erase
    omega

/-- A critical section loses no wakeup. -/
theorem Sound.act {I : σ → Prop} (h : Sound D m) (hlaws : Announces D I) (hI : I m.inner) {a : α}
    (hstep : D.signal m (.act a) = some m') : Sound D m' := by
  obtain ⟨-, inner, hinner, rfl⟩ := signal_act.1 hstep
  refine ⟨?_, fun i hi => ?_, fun i hi hholds => ?_⟩
  · show (wakened m (D.actor a)).Nodup
    cases D.actor a with
    | none => exact h.nodup
    | some j => exact h.nodup.erase _
  · obtain ⟨hmem, hne⟩ := h.mem_wakened hi
    exact hlaws.stays hI hinner hne (h.waits i hmem)
  · obtain ⟨hmem, hne⟩ := h.mem_wakened hi
    show D.announced m a ≠ []
    unfold announced
    split_ifs with hnotifies
    · exact List.cons_ne_nil _ _
    · -- the condition held before the step, or the step would be announced
      refine h.noticed i hmem ?_
      by_contra hbefore
      exact hnotifies (hlaws.announces hI hinner hne (h.waits i hmem)
        (Bool.eq_false_of_not_eq_true hbefore) hholds)

/-- **Every step keeps the wakeups.** -/
theorem Sound.signal {I : σ → Prop} (h : Sound D m) (hlaws : Announces D I) (hI : I m.inner)
    {s : Signal α} (hstep : D.signal m s = some m') : Sound D m' := by
  cases s with
  | act a => exact h.act hlaws hI hstep
  | sleep i =>
    obtain ⟨⟨hwaits, hholds, -, hnew, -⟩, rfl⟩ := signal_sleep.1 hstep
    refine ⟨h.nodup.cons hnew, fun j hj => ?_, fun j hj hj' => ?_⟩
    · rcases List.mem_cons.1 hj with rfl | hj
      · exact hwaits
      · exact h.waits j hj
    · rcases List.mem_cons.1 hj with rfl | hj
      · exact absurd (hholds.symm.trans hj') nofun
      · exact h.noticed j hj hj'
  | notify who =>
    obtain ⟨-, rfl⟩ := signal_notify.1 hstep
    exact ⟨.nil, nofun, nofun⟩
  | spurious i =>
    obtain ⟨-, rfl⟩ := signal_spurious.1 hstep
    exact ⟨h.nodup.erase _, fun j hj => h.waits j (List.mem_of_mem_erase hj),
      fun j hj => h.noticed j (List.mem_of_mem_erase hj)⟩

/-- A step keeps the invariant of the machine. -/
theorem Announces.signal {I : σ → Prop} (hlaws : Announces D I) (hI : I m.inner) {s : Signal α}
    (hstep : D.signal m s = some m') : I m'.inner := by
  rcases inner_of_signal hstep with ⟨a, -, hinner⟩ | ⟨-, hinner⟩
  · exact hlaws.keeps hI hinner
  · exact hinner ▸ hI

/-- **No run loses a wakeup.** -/
theorem sound_of_run {I : σ → Prop} (hlaws : Announces D I) {s : σ} (hI : I s)
    {signals : List (Signal α)} (h : Run D.signal { inner := s } signals m) :
    I m.inner ∧ Sound D m :=
  Reachable.invariant (I := fun m => I m.inner ∧ Sound D m) ⟨hI, sound_start D s⟩
    (fun _ _ _ hm hstep => ⟨hlaws.signal hm.1 hstep, hm.2.signal hlaws hm.1 hstep⟩) ⟨signals, h⟩

/-! ## Progress -/

/-- A step of one of the threads. A spurious wakeup is none, and a critical section of somebody else
is none. -/
def ofThreads (D : Discipline σ α) : Signal α → Bool
  | .act a => (D.actor a).isSome
  | .sleep _ => true
  | .notify _ => true
  | .spurious _ => false

/-- **A thread that could act in the machine is not forgotten**: it can act, or a call of
`notify_all` is ahead. -/
theorem Sound.exists_signal {I : σ → Prop} (h : Sound D m) (hlaws : Announces D I)
    (hI : I m.inner) {a : α} {i : ℕ} {t : σ} (hactor : D.actor a = some i)
    (hstep : D.step m.inner a = some t) :
    (∃ m', D.signal m (.act a) = some m' ∧ m'.inner = t) ∨
      ∃ who m', D.signal m (.notify who) = some m' := by
  by_cases hnotices : m.notices = []
  · refine .inl ?_
    have hawake : D.awake m (D.actor a) = true := by
      rw [hactor]
      by_cases hasleep : i ∈ m.asleep
      · -- its condition cannot hold, so its time is up
        have hexpired : D.expired m.inner i = true :=
          (hlaws.ends hI hstep hactor (h.waits i hasleep)).resolve_left
            fun hholds => h.noticed i hasleep hholds hnotices
        simp [awake, hexpired, hnotices]
      · simp [awake, hasleep, hnotices]
    exact ⟨_, signal_act.2 ⟨hawake, t, hstep, rfl⟩, rfl⟩
  · obtain ⟨who, hwho⟩ := List.exists_mem_of_ne_nil _ hnotices
    exact .inr ⟨who, _, signal_notify.2 ⟨hwho, rfl⟩⟩

/-- A bound for the steps the threads can take before they need new work: `n` threads, and a measure
of what they have to do. -/
def effort (n : ℕ) (μ : σ → ℕ) (m : Monitored σ) : ℕ :=
  μ m.inner * (n + 3) + m.notices.length * (n + 1) + (n - m.asleep.length)

/-- At most as many threads sleep as wait. -/
theorem length_le_of_waits {n : ℕ} {l : List ℕ} (hnodup : l.Nodup)
    (hthreads : ∀ i ∈ l, i < n) : l.length ≤ n := by
  have hsub : l.toFinset ⊆ Finset.range n :=
    fun i hi => Finset.mem_range.2 (hthreads i (List.mem_toFinset.1 hi))
  have hcard := Finset.card_le_card hsub
  rwa [List.toFinset_card_of_nodup hnodup, Finset.card_range] at hcard

/-- Every step of the threads lowers the effort, when every critical section of them lowers the
measure and only the first `n` threads wait. -/
theorem Sound.effort_lt {n : ℕ} {μ : σ → ℕ} (h : Sound D m)
    (hthreads : ∀ i, D.waits m.inner i = true → i < n)
    (hless : ∀ a t, D.actor a ≠ none → D.step m.inner a = some t → μ t < μ m.inner)
    {s : Signal α} (hs : ofThreads D s = true) (hstep : D.signal m s = some m') :
    effort n μ m' < effort n μ m := by
  have hasleep : m.asleep.length ≤ n :=
    length_le_of_waits h.nodup fun i hi => hthreads i (h.waits i hi)
  unfold effort
  cases s with
  | act a =>
    obtain ⟨-, inner, hinner, rfl⟩ := signal_act.1 hstep
    have hmeasure := hless a inner (Option.isSome_iff_ne_none.1 hs) hinner
    have hnotices : (D.announced m a).length ≤ m.notices.length + 1 := by
      unfold announced
      split_ifs
      · exact le_rfl
      · exact Nat.le_succ _
    have hwakened := length_wakened m (D.actor a)
    have hmul := Nat.mul_le_mul_right (n + 1) hnotices
    have hmul' := Nat.mul_le_mul_right (n + 3) (Nat.succ_le_of_lt hmeasure)
    rw [Nat.succ_mul] at hmul hmul'
    show μ inner * (n + 3) + (D.announced m a).length * (n + 1) +
      (n - (wakened m (D.actor a)).length) < _
    omega
  | sleep i =>
    obtain ⟨⟨hwaits, -, -, hnew, -⟩, rfl⟩ := signal_sleep.1 hstep
    have hlt : (i :: m.asleep).length ≤ n :=
      length_le_of_waits (h.nodup.cons hnew) fun j hj => by
        rcases List.mem_cons.1 hj with rfl | hj
        · exact hthreads _ hwaits
        · exact hthreads j (h.waits j hj)
    rw [List.length_cons] at hlt
    simp only [List.length_cons]
    omega
  | notify who =>
    obtain ⟨hmem, rfl⟩ := signal_notify.1 hstep
    have hlength := List.length_erase_of_mem hmem
    have hpos := List.length_pos_of_mem hmem
    have hmul : m.notices.length * (n + 1) =
        (m.notices.erase who).length * (n + 1) + (n + 1) := by
      rw [hlength, ← Nat.succ_mul, Nat.succ_eq_add_one, Nat.sub_add_cancel hpos]
    simp only [List.length_nil]
    omega
  | spurious i => cases hs

/-- A spurious wakeup. -/
def isSpurious : Signal α → Bool
  | .spurious _ => true
  | _ => false

/-- A step that gives the threads nothing to do: a step of the threads themselves, a spurious
wakeup, or a critical section of somebody else that is not announced and does not raise the
measure. -/
def Quiet (D : Discipline σ α) (μ : σ → ℕ) : Signal α → Prop
  | .act a => D.actor a = none →
    ∀ s t, D.step s a = some t → D.notifies s a = false ∧ μ t ≤ μ s
  | _ => True

/-- A quiet step that is not one of the threads raises the effort by a spurious wakeup at most. -/
theorem effort_le {n : ℕ} {μ : σ → ℕ} {s : Signal α} (hs : ofThreads D s = false)
    (hquiet : Quiet D μ s) (hstep : D.signal m s = some m') :
    effort n μ m' ≤ effort n μ m + if isSpurious s then 1 else 0 := by
  cases s with
  | act a =>
    have hactor : D.actor a = none := Option.isNone_iff_eq_none.1 (Option.isSome_eq_false_iff.1 hs)
    obtain ⟨-, inner, hinner, rfl⟩ := signal_act.1 hstep
    obtain ⟨hnotifies, hle⟩ := hquiet hactor m.inner inner hinner
    have hmul := Nat.mul_le_mul_right (n + 3) hle
    show μ inner * (n + 3) + (D.announced m a).length * (n + 1) +
      (n - (wakened m (D.actor a)).length) ≤ _
    rw [announced, hnotifies, hactor]
    simp only [effort, wakened, isSpurious, Bool.false_eq_true, if_false]
    omega
  | sleep i => cases hs
  | notify who => cases hs
  | spurious i =>
    obtain ⟨hmem, rfl⟩ := signal_spurious.1 hstep
    have hlength : m.asleep.length - 1 ≤ (m.asleep.erase i).length := List.le_length_erase
    simp only [effort, isSpurious, if_true]
    omega

end Discipline

end Jevt.Library
