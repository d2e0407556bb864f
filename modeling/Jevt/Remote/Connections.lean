import Mathlib.Data.Nat.Init
import Jevt.Library.Lending
import Jevt.Library.Run

/-!
# The connections of the transport

Calls of `curl_transport::perform` share connections: a call takes an idle one, or makes one, and
its `lease` gives it back when the call ends, in whatever way it ends. `Connections` has the calls
at their places and the connections by their numbers. A step is what a call does while it holds the
mutex, or one thing it does to its own connection without it.

`uses` is the log of the calls of libcurl on the handles of a connection, with the thread that makes
them. `HandlePhase.next` is the order in which libcurl may be called: a handle may hold pointers to
what a call has left behind, so it must be reset first; the header list must not be freed while the
handle is in a transfer; and from the reset on the handle belongs to one thread.
-/

namespace Jevt.CurlTransport

open Library

/-! ## Handles -/

/-- Who calls libcurl: a call of `perform`, or the destructor of the transport. -/
inductive User where
  | call (k : Nat)
  | destructor
  deriving DecidableEq, Repr

/-- The calls of libcurl on a connection: both handles are made, `curl_easy_reset`, an option,
`curl_multi_add_handle`, what drives the transfer and reads from it, `curl_multi_remove_handle`,
`curl_slist_free_all` for the list that is an option, and the clean-up of both handles. -/
inductive HandleUse where
  | init
  | reset
  | option
  | add
  | drive
  | remove
  | freeList
  | cleanup
  deriving DecidableEq, Repr

/-- A connection as libcurl sees it: not made yet; with options that may point to nothing; with the
options of a user; in the transfer of a user; cleaned up. -/
inductive HandlePhase where
  | unborn
  | stale
  | ready (user : User)
  | attached (user : User)
  | closed
  deriving DecidableEq, Repr

/-- The order of the calls of libcurl. -/
def HandlePhase.next : HandlePhase → User × HandleUse → Option HandlePhase
  | .unborn, (_, .init) => some .stale
  | .stale, (user, .reset) => some (.ready user)
  | .stale, (_, .cleanup) => some .closed
  | .ready owner, (user, .option) => if user = owner then some (.ready owner) else none
  | .ready owner, (user, .add) => if user = owner then some (.attached owner) else none
  | .ready owner, (user, .freeList) => if user = owner then some .stale else none
  | .attached owner, (user, .drive) => if user = owner then some (.attached owner) else none
  | .attached owner, (user, .remove) => if user = owner then some (.ready owner) else none
  | _, _ => none

/-! ## Calls -/

/-- Where a call of `perform` is: at the checks in front, behind an empty pool, with a connection
that is not reset, that is, that is in a transfer, behind the transfer, behind the end of
`header_list`, in the destructor of a connection that there is no room for, or through. -/
inductive CallPlace where
  | entered
  | connecting
  | leased (connection : Nat)
  | preparing (connection : Nat)
  | transferring (connection : Nat)
  | detached (connection : Nat)
  | unwound (connection : Nat)
  | closing (connection : Nat)
  | returned
  deriving DecidableEq, Repr

namespace CallPlace

/-- The connection that a call has. -/
def holds : CallPlace → Option Nat
  | .leased c => some c
  | .preparing c => some c
  | .transferring c => some c
  | .detached c => some c
  | .unwound c => some c
  | .closing c => some c
  | _ => none

/-- The phase in which a call has its connection. -/
def phase (k : Nat) : CallPlace → HandlePhase
  | .preparing _ => .ready (.call k)
  | .transferring _ => .attached (.call k)
  | .detached _ => .ready (.call k)
  | _ => .stale

/-- A call that has not returned. -/
def inProgress (place : CallPlace) : Bool := place ≠ .returned

end CallPlace

/-- The transport with the calls of `perform`. -/
structure Connections where
  pool : Lending := {}
  calls : List CallPlace := []
  uses : List (Nat × User × HandleUse) := []
  destroyed : Bool := false

/-- The labels: a call, with what it does next, and the end of the transport. -/
inductive ConnectionLabel where
  | perform
  | refuse (k : Nat)
  | lookUp (k : Nat)
  | connect (k : Nat) (succeeds : Bool)
  | reset (k : Nat)
  | option (k : Nat)
  | add (k : Nat)
  | drive (k : Nat)
  | remove (k : Nat)
  | unwind (k : Nat)
  | giveBack (k : Nat)
  | close (k : Nat)
  | destroy
  deriving DecidableEq, Repr

namespace Connections

/-- The calls of libcurl with another one. -/
def used (s : Connections) (connection : Nat) (user : User) (use : HandleUse) :
    List (Nat × User × HandleUse) :=
  s.uses ++ [(connection, user, use)]

/-- A call goes on to another place. -/
def move (s : Connections) (k : Nat) (place : CallPlace) : List CallPlace :=
  s.calls.set k place

/-- One step, in a transport that retains at most `retained` connections. -/
def step (retained : Nat) (s : Connections) : ConnectionLabel → Option Connections
  | .perform => if s.destroyed then none else some { s with calls := s.calls ++ [.entered] }
  | .refuse k =>
    match s.calls[k]? with
    | some .entered => some { s with calls := s.move k .returned }
    | _ => none
  | .lookUp k =>
    match s.calls[k]? with
    | some .entered =>
      match s.pool.take with
      | some (c, pool) => some { s with pool, calls := s.move k (.leased c) }
      | none => some { s with calls := s.move k .connecting }
    | _ => none
  | .connect k succeeds =>
    match s.calls[k]? with
    | some .connecting =>
      if succeeds then
        some { s with
          pool := s.pool.make
          calls := s.move k (.leased s.pool.made)
          uses := s.used s.pool.made (.call k) .init }
      else some { s with calls := s.move k .returned }
    | _ => none
  | .reset k =>
    match s.calls[k]? with
    | some (.leased c) =>
      some { s with calls := s.move k (.preparing c), uses := s.used c (.call k) .reset }
    | _ => none
  | .option k =>
    match s.calls[k]? with
    | some (.preparing c) => some { s with uses := s.used c (.call k) .option }
    | _ => none
  | .add k =>
    match s.calls[k]? with
    | some (.preparing c) =>
      some { s with calls := s.move k (.transferring c), uses := s.used c (.call k) .add }
    | _ => none
  | .drive k =>
    match s.calls[k]? with
    | some (.transferring c) => some { s with uses := s.used c (.call k) .drive }
    | _ => none
  | .remove k =>
    match s.calls[k]? with
    | some (.transferring c) =>
      some { s with calls := s.move k (.detached c), uses := s.used c (.call k) .remove }
    | _ => none
  | .unwind k =>
    match s.calls[k]? with
    | some (.preparing c) =>
      some { s with calls := s.move k (.unwound c), uses := s.used c (.call k) .freeList }
    | some (.detached c) =>
      some { s with calls := s.move k (.unwound c), uses := s.used c (.call k) .freeList }
    | _ => none
  | .giveBack k =>
    match s.calls[k]? with
    | some (.unwound c) =>
      match s.pool.give retained c with
      | some pool => some { s with pool, calls := s.move k .returned }
      | none => some { s with calls := s.move k (.closing c) }
    | _ => none
  | .close k =>
    match s.calls[k]? with
    | some (.closing c) =>
      some { s with
        pool := s.pool.discard c
        calls := s.move k .returned
        uses := s.used c (.call k) .cleanup }
    | _ => none
  | .destroy =>
    if s.destroyed = false ∧ ∀ place ∈ s.calls, place = .returned then
      some { s with
        pool := s.pool.clear
        uses := s.uses ++ s.pool.idle.map fun c => (c, .destructor, .cleanup)
        destroyed := true }
    else none

/-! ## The invariant -/

variable {retained : Nat} {s s' : Connections}

/-- The phase of a connection behind the calls of libcurl so far. -/
def phaseOf (uses : List (Nat × User × HandleUse)) (c : Nat) : Option HandlePhase :=
  phase HandlePhase.next .unborn uses c

/-- The phases that belong to the places of a connection. -/
def requirements : Requirements CallPlace (Option HandlePhase) where
  holds := CallPlace.holds
  idle q := q = some .stale
  held k place q := q = some (place.phase k)
  gone q := q = some .closed
  unmade q := q = some .unborn

/-- Every connection is in one place and in the phase that belongs to it, and the transport is there
as long as it has calls. -/
structure Lent (retained : Nat) (s : Connections) : Prop where
  tended : Tended requirements retained s.pool s.calls (phaseOf s.uses)
  destroyed : s.destroyed = true → s.pool.idle = [] ∧ ∀ place ∈ s.calls, place = .returned

/-- A call of libcurl on one connection leaves the others alone. -/
theorem phaseOf_used (s : Connections) {c d : Nat} (user : User) (u : HandleUse) (hne : d ≠ c) :
    phaseOf (s.used c user u) d = phaseOf s.uses d :=
  phase_concat_other hne.symm

/-- A call that has not returned keeps the transport alive. -/
theorem Lent.alive (h : Lent retained s) {k : Nat} {a : CallPlace} (hcall : s.calls[k]? = some a)
    (hprogress : a ≠ .returned) {p : Prop} (hdestroyed : s.destroyed = true) : p :=
  absurd ((h.destroyed hdestroyed).2 a (List.mem_of_getElem? hcall)) hprogress

/-- A call of libcurl on the connection of a call. -/
theorem Lent.next (h : Lent retained s) {k : Nat} {a : CallPlace} {c : Nat} {u : HandleUse}
    {q : HandlePhase} (hcall : s.calls[k]? = some a) (ha : a.holds = some c)
    (hnext : HandlePhase.next (a.phase k) (.call k, u) = some q) :
    phaseOf (s.used c (.call k) u) c = some q :=
  (phase_concat_self (h.tended.held k a c hcall ha)).trans hnext

/-- A call uses its connection and goes on with it. -/
theorem Lent.use (h : Lent retained s) {k : Nat} {a b : CallPlace} {c : Nat} {u : HandleUse}
    (hcall : s.calls[k]? = some a) (ha : a.holds = some c) (hb : b.holds = some c)
    (hnext : HandlePhase.next (a.phase k) (.call k, u) = some (b.phase k)) :
    Lent retained { s with calls := s.move k b, uses := s.used c (.call k) u } where
  tended := h.tended.use hcall ha hb (fun _ hne => phaseOf_used s _ u hne) (h.next hcall ha hnext)
  destroyed := h.alive hcall fun heq => by rw [heq] at ha; cases ha

/-- A call uses its connection and stays where it is. -/
theorem Lent.stay (h : Lent retained s) {k : Nat} {a : CallPlace} {c : Nat} {u : HandleUse}
    (hcall : s.calls[k]? = some a) (ha : a.holds = some c)
    (hnext : HandlePhase.next (a.phase k) (.call k, u) = some (a.phase k)) :
    Lent retained { s with uses := s.used c (.call k) u } where
  tended := h.tended.stay hcall ha (fun _ hne => phaseOf_used s _ u hne) (h.next hcall ha hnext)
  destroyed := h.alive hcall fun heq => by rw [heq] at ha; cases ha

/-- A call goes on, and has what it had. -/
theorem Lent.pass (h : Lent retained s) {k : Nat} {a b : CallPlace}
    (hcall : s.calls[k]? = some a) (hprogress : a ≠ .returned) (hholds : b.holds = a.holds)
    (hphase : b.phase k = a.phase k) : Lent retained { s with calls := s.move k b } where
  tended := h.tended.pass hcall hholds fun _ _ hq => hq.trans (congrArg some hphase.symm)
  destroyed := h.alive hcall hprogress

/-- Every connection is in a phase: the calls of libcurl on it have been in order. -/
theorem Lent.isSome_phaseOf (h : Lent retained s) (c : Nat) :
    (phaseOf s.uses c).isSome = true := by
  have hsome : ∃ q, phaseOf s.uses c = some q := by
    by_cases hmade : c < s.pool.made
    · rcases h.tended.balanced.lt_iff.1 hmade with hidle | hheld | hgone
      · exact ⟨_, h.tended.idle c hidle⟩
      · obtain ⟨place, hplace, hholds⟩ := List.mem_filterMap.1 hheld
        obtain ⟨k, hcall⟩ := List.mem_iff_getElem?.1 hplace
        exact ⟨_, h.tended.held k place c hcall hholds⟩
      · exact ⟨_, h.tended.gone c hgone⟩
    · exact ⟨_, h.tended.unmade c (Nat.le_of_not_lt hmade)⟩
  exact Option.isSome_iff_exists.2 hsome

/-- The destructor of the transport destroys the idle connections. -/
theorem Lent.destroy (h : Lent retained s) (hreturned : ∀ place ∈ s.calls, place = .returned) :
    Lent retained { s with
      pool := s.pool.clear
      uses := s.uses ++ s.pool.idle.map fun c => (c, .destructor, .cleanup)
      destroyed := true } where
  tended := by
    obtain ⟨-, hnodup, -, -⟩ := h.tended.balanced.exclusive
    refine h.tended.clear (fun place hplace => hreturned place hplace ▸ rfl) (fun d hd => ?_)
      fun d hd => ?_
    · obtain ⟨q, hq⟩ := Option.isSome_iff_exists.1 (h.isSome_phaseOf d)
      exact ((phase_append_map hnodup hq).trans (if_neg hd)).trans hq.symm
    · exact (phase_append_map hnodup (h.tended.idle d hd)).trans (if_pos hd)
  destroyed := fun _ => ⟨rfl, hreturned⟩

/-- **Every step keeps the connections lent.** -/
theorem Lent.step (h : Lent retained s) {label : ConnectionLabel}
    (hstep : s.step retained label = some s') : Lent retained s' := by
  cases label with
  | perform =>
    unfold Connections.step at hstep
    dsimp only at hstep
    split_ifs at hstep with halive
    exact Option.some.inj hstep ▸
      ⟨h.tended.enter rfl, fun hdestroyed => absurd hdestroyed halive⟩
  | refuse k =>
    unfold Connections.step at hstep
    dsimp only at hstep
    split at hstep
    · next hcall => exact Option.some.inj hstep ▸ h.pass hcall nofun rfl rfl
    · cases hstep
  | lookUp k =>
    unfold Connections.step at hstep
    dsimp only at hstep
    split at hstep
    · next hcall =>
      split at hstep
      · next htake =>
        exact Option.some.inj hstep ▸
          ⟨h.tended.take hcall rfl htake rfl id, h.alive hcall nofun⟩
      · exact Option.some.inj hstep ▸ h.pass hcall nofun rfl rfl
    · cases hstep
  | connect k succeeds =>
    unfold Connections.step at hstep
    dsimp only at hstep
    split at hstep
    · next hcall =>
      split_ifs at hstep
      · have hnew : phaseOf (s.used s.pool.made (.call k) .init) s.pool.made = some .stale :=
          phase_concat_self (h.tended.unmade _ le_rfl)
        exact Option.some.inj hstep ▸ ⟨h.tended.make hcall rfl rfl
          (fun _ hne => phaseOf_used s _ _ hne) hnew, h.alive hcall nofun⟩
      · exact Option.some.inj hstep ▸ h.pass hcall nofun rfl rfl
    · cases hstep
  | reset k =>
    unfold Connections.step at hstep
    dsimp only at hstep
    split at hstep
    · next hcall => exact Option.some.inj hstep ▸ h.use hcall rfl rfl rfl
    · cases hstep
  | option k =>
    unfold Connections.step at hstep
    dsimp only at hstep
    split at hstep
    · next hcall => exact Option.some.inj hstep ▸ h.stay hcall rfl (if_pos rfl)
    · cases hstep
  | add k =>
    unfold Connections.step at hstep
    dsimp only at hstep
    split at hstep
    · next hcall => exact Option.some.inj hstep ▸ h.use hcall rfl rfl (if_pos rfl)
    · cases hstep
  | drive k =>
    unfold Connections.step at hstep
    dsimp only at hstep
    split at hstep
    · next hcall => exact Option.some.inj hstep ▸ h.stay hcall rfl (if_pos rfl)
    · cases hstep
  | remove k =>
    unfold Connections.step at hstep
    dsimp only at hstep
    split at hstep
    · next hcall => exact Option.some.inj hstep ▸ h.use hcall rfl rfl (if_pos rfl)
    · cases hstep
  | unwind k =>
    unfold Connections.step at hstep
    dsimp only at hstep
    split at hstep
    · next hcall => exact Option.some.inj hstep ▸ h.use hcall rfl rfl (if_pos rfl)
    · next hcall => exact Option.some.inj hstep ▸ h.use hcall rfl rfl (if_pos rfl)
    · cases hstep
  | giveBack k =>
    unfold Connections.step at hstep
    dsimp only at hstep
    split at hstep
    · next hcall =>
      split at hstep
      · next hgive =>
        exact Option.some.inj hstep ▸
          ⟨h.tended.give hcall rfl rfl hgive id, h.alive hcall nofun⟩
      · exact Option.some.inj hstep ▸ h.pass hcall nofun rfl rfl
    · cases hstep
  | close k =>
    unfold Connections.step at hstep
    dsimp only at hstep
    split at hstep
    · next hcall =>
      exact Option.some.inj hstep ▸ ⟨h.tended.discard hcall rfl rfl
        (fun _ hne => phaseOf_used s _ _ hne) (h.next hcall rfl rfl), h.alive hcall nofun⟩
    · cases hstep
  | destroy =>
    unfold Connections.step at hstep
    dsimp only at hstep
    split_ifs at hstep with hguard
    exact Option.some.inj hstep ▸ h.destroy hguard.2

/-! ## Runs -/

/-- There are no connections in the beginning. -/
theorem lent_start (retained : Nat) : Lent retained {} where
  tended := .start retained fun c => phase_nil HandlePhase.next .unborn c
  destroyed := nofun

/-- Only calls in progress have connections. -/
theorem length_held_le (calls : List CallPlace) :
    (calls.filterMap CallPlace.holds).length ≤ calls.countP CallPlace.inProgress := by
  rw [List.length_filterMap_eq_countP]
  refine List.countP_mono_left fun place _ hholds => ?_
  cases place <;> first | rfl | cases hholds

/-- **Connections are not shared.** In every run, however the calls of `perform` interleave and in
whatever way each of them ends: the calls of libcurl on each connection are in order, with all those
between a reset and the end of its header list from one call; a connection is held by one call at
most, in the phase that this call has brought it to, and is not idle then; at most `retained`
connections are idle, and those that are open beyond them belong to calls in progress; when no call
is in progress, none has been lost; and the destructor leaves none open. -/
theorem connections_are_not_shared {labels : List ConnectionLabel}
    (hrun : Run (step retained) {} labels s) :
    (∀ c, (phase HandlePhase.next .unborn s.uses c).isSome = true) ∧
      (∀ (k : Nat) (place : CallPlace) c, s.calls[k]? = some place → place.holds = some c →
        phase HandlePhase.next .unborn s.uses c = some (place.phase k) ∧ c ∉ s.pool.idle ∧
          ∀ (i : Nat) (other : CallPlace), s.calls[i]? = some other → other.holds = some c →
            i = k) ∧
      s.pool.idle.length ≤ retained ∧
      s.pool.made ≤ s.pool.gone.length + retained + s.calls.countP CallPlace.inProgress ∧
      ((∀ place ∈ s.calls, place = .returned) →
        s.pool.made = s.pool.gone.length + s.pool.idle.length) ∧
      (s.destroyed = true →
        ∀ c < s.pool.made, phase HandlePhase.next .unborn s.uses c = some .closed) := by
  have h : Lent retained s :=
    Reachable.invariant (lent_start retained) (fun _ _ _ h hstep => h.step hstep) ⟨labels, hrun⟩
  have hnone : ∀ place ∈ s.calls, place = .returned → place.holds = none := by
    rintro place - rfl
    rfl
  refine ⟨h.isSome_phaseOf, fun k place c hcall hholds => ?_, h.tended.balanced.bounded,
    h.tended.made_le (length_held_le s.calls),
    fun hreturned => h.tended.made_eq fun place hplace =>
      hnone place hplace (hreturned place hplace), fun hdestroyed c hc => ?_⟩
  · obtain ⟨hidle, -, -, halone⟩ := h.tended.alone hcall hholds
    exact ⟨h.tended.held k place c hcall hholds, hidle, halone⟩
  · obtain ⟨hidle, hreturned⟩ := h.destroyed hdestroyed
    rcases h.tended.balanced.lt_iff.1 hc with hmem | hmem | hmem
    · rw [hidle] at hmem
      cases hmem
    · obtain ⟨place, hplace, hholds⟩ := List.mem_filterMap.1 hmem
      exact absurd ((hnone place hplace (hreturned place hplace)).symm.trans hholds) nofun
    · exact h.tended.gone c hmem

/-- Two calls at a time with room for one connection, the second of which is refused by libcurl. -/
def overlap : List ConnectionLabel :=
  [.perform, .perform, .lookUp 0, .lookUp 1, .connect 0 true, .connect 1 true, .reset 0, .option 0,
    .add 0, .reset 1, .drive 0, .unwind 1, .remove 0, .giveBack 1, .unwind 0, .giveBack 0, .close 0,
    .destroy]

/-- Both connections have been cleaned up, the retained one last. -/
theorem connections_are_not_shared_overlap : ∃ s : Connections,
    s.pool = { made := 2, idle := [], gone := [0, 1] } ∧
      ∀ c < 2, phase HandlePhase.next .unborn s.uses c = some .closed := by
  obtain ⟨s, hrun, hpool, hdestroyed⟩ :
      ∃ s : Connections, Run (step 1) {} overlap s ∧
        s.pool = { made := 2, idle := [], gone := [0, 1] } ∧ s.destroyed = true :=
    ⟨_, rfl, rfl, rfl⟩
  obtain ⟨-, -, -, -, -, hclosed⟩ := connections_are_not_shared hrun
  exact ⟨s, hpool, fun c hc => hclosed hdestroyed c (hpool ▸ hc)⟩

end Connections

end Jevt.CurlTransport
