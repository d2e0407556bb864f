import Jevt.Laya.Batching
import Jevt.Library.Lending

/-!
# Concurrent calls of the ONNX adapter

Any number of threads may call `predict_batch` of one `laya_backend`. They share the cache of heads
and the buffers, each behind a mutex, and the session. `LayaCalls` has the calls at their places,
and a step is one critical section, or what a call does to its own buffers without a mutex. A buffer
that a call holds is its own: it is taken from the pool or made, its rows are written one by one,
the session reads it, and the destructor of the lease wipes it before it is given back.

An exception may end a call at every place, with anything left in its buffers. The answer of any
other call is the one it would have alone, after any other calls (`LayaActivity.Faithful`).
-/

namespace Jevt

open Library

/-! ## Calls -/

/-- The exceptions that `predict_batch` catches. -/
inductive LayaException where
  | onnxRuntime (what : Bytes)
  | invalidArgument (what : Bytes)
  | standard (what : Bytes)

/-- The `catch` clauses of `predict_batch`. -/
def LayaException.error : LayaException → Error
  | .onnxRuntime what => { code := .backendFailure, message := lit "ONNX Runtime: " ++ what }
  | .invalidArgument what => { code := .invalidRequest, message := what }
  | .standard what => { code := .backendFailure, message := lit "Laya backend: " ++ what }

/-- Where a call of `predict_batch` is: in front of its checks; in the loop over the requests; in
`prepare_head` without a mutex, where it makes a head; with buffers of other calls; with the rows in
front of one written; behind the session; in the destructor of its lease; in front of its second
mutex; or through. -/
inductive LayaPlace where
  | entered
  | collecting (items : List LayaItem) (states : List (Bytes × List Int))
      (rest : List InferenceRequest)
  | encoding (items : List LayaItem) (states : List (Bytes × List Int)) (request : InferenceRequest)
      (rest : List InferenceRequest) (options : List Bytes) (state : List Int) (head : PreparedHead)
  | leased (items : List LayaItem) (buffers : Nat)
  | writing (items : List LayaItem) (buffers row : Nat)
  | ran (items : List LayaItem) (buffers : Nat) (outputs : List SessionValue)
  | leaving (answer : Result Predicted) (buffers : Nat)
  | wiped (answer : Result Predicted) (buffers : Nat)
  | returned (answer : Result Predicted)

namespace LayaPlace

/-- The buffers that a call has leased. -/
def holds : LayaPlace → Option Nat
  | .leased _ c => some c
  | .writing _ c _ => some c
  | .ran _ c _ => some c
  | .leaving _ c => some c
  | .wiped _ c => some c
  | _ => none

/-- A call that has not returned. -/
def inProgress : LayaPlace → Bool
  | .returned _ => false
  | _ => true

/-- Where an exception takes a call from inside the `try`. -/
def unwound (failure : Error) : LayaPlace → Option LayaPlace
  | .entered => some (.returned (.error failure))
  | .collecting _ _ _ => some (.returned (.error failure))
  | .encoding _ _ _ _ _ _ _ => some (.returned (.error failure))
  | .leased _ c => some (.leaving (.error failure) c)
  | .writing _ c _ => some (.leaving (.error failure) c)
  | .ran _ c _ => some (.leaving (.error failure) c)
  | _ => none

end LayaPlace

/-- A call: its requests, the environments of its checks, whether it has been ended by an exception,
and its place. -/
structure LayaActivity where
  requests : List InferenceRequest
  check : Nat → Environment
  thrown : Bool := false
  place : LayaPlace := .entered

/-- What the calls share, and the calls. Each of the buffers is with the sum of the capacities of
its vectors, as it has been when they were wiped. -/
structure LayaCalls where
  heads : HeadCache := {}
  pool : Lending := {}
  contents : Nat → Buffers × Nat := fun _ => ({}, 0)
  bufferReuses : Nat := 0
  runs : Nat := 0
  calls : List LayaActivity := []

/-- The labels: a call, with what it does next, and what the standard library and the session may
do. -/
inductive LayaLabel where
  | predictBatch (requests : List InferenceRequest) (check : Nat → Environment)
  | check (k : Nat)
  | lookup (k : Nat)
  | insert (k : Nat) (capacities : Capacities) (exception : Option LayaException)
  | acquire (k : Nat)
  | assign (k : Nat)
  | write (k : Nat)
  | run (k : Nat)
  | decode (k : Nat)
  | wipe (k : Nat) (retained : Nat)
  | giveBack (k : Nat) (placed : Bool)
  | throw (k : Nat) (exception : LayaException) (left : Buffers)

/-- The elements in the vectors of the buffers. -/
def Buffers.size (buffers : Buffers) : Nat :=
  buffers.inputIds.length + buffers.attention.length + buffers.positions.length +
    buffers.qtypes.length

namespace LayaCalls

/-- A call goes on to another place. -/
def move (s : LayaCalls) (k : Nat) (a : LayaActivity) (place : LayaPlace) : List LayaActivity :=
  s.calls.set k { a with place }

/-- The buffers with one of them changed. -/
def update (s : LayaCalls) (c : Nat) (content : Buffers × Nat) : Nat → Buffers × Nat :=
  Function.update s.contents c content

end LayaCalls

namespace LayaBackend

variable (backend : LayaBackend)

/-- The end of a turn of the loop over the requests. -/
def collected (items : List LayaItem) (states : List (Bytes × List Int))
    (request : InferenceRequest) (rest : List InferenceRequest) (options : List Bytes)
    (state : List Int) (head : PreparedHead) : LayaPlace :=
  match backend.bundle.makeItem sizeSub request options head state with
  | .error failure => .returned (.error failure)
  | .ok item => .collecting (items ++ [item]) states rest

/-- A step of a call. -/
def step (s : LayaCalls) : LayaLabel → Option LayaCalls
  | .predictBatch requests check => some { s with calls := s.calls ++ [{ requests, check }] }
  | .check k => do
    let a ← s.calls[k]?
    match a.place with
    | .entered =>
      let place :=
        if a.requests = [] then .returned (.ok ⟨[], []⟩)
        else
          match firstFailure a.check 0 a.requests with
          | some failure => .returned (.error failure)
          | none => .collecting [] [] a.requests
      some { s with calls := s.move k a place }
    | _ => none
  | .lookup k => do
    let a ← s.calls[k]?
    match a.place with
    | .collecting items states (request :: rest) =>
      match renderOptions request with
      | .error failure => some { s with calls := s.move k a (.returned (.error failure)) }
      | .ok options =>
        let (state, states) := backend.stateOf states request.input
        let call := ⟨request.questionKind, request.question, options⟩
        match s.heads.lookup backend.limits call with
        | (some head, heads) =>
          let place := backend.collected items states request rest options state head
          some { s with heads, calls := s.move k a place }
        | (none, heads) =>
          let head := backend.bundle.headOf sizeSub call
          let place := .encoding items states request rest options state head
          some { s with heads, calls := s.move k a place }
    | _ => none
  | .insert k capacities exception => do
    let a ← s.calls[k]?
    match a.place with
    | .encoding items states request rest options state head =>
      let call := ⟨request.questionKind, request.question, options⟩
      let heads := s.heads.insert sizeSub backend.limits call head capacities exception.isNone
      match if s.heads.stores backend.limits call capacities then exception else none with
      | some exception =>
        let place := .returned (.error exception.error)
        some { s with heads, calls := s.calls.set k { a with thrown := true, place } }
      | none =>
        let place := backend.collected items states request rest options state head
        some { s with heads, calls := s.move k a place }
    | _ => none
  | .acquire k => do
    let a ← s.calls[k]?
    match a.place with
    | .collecting items _ [] =>
      if overflows items then
        some { s with calls := s.move k a (.returned (.error overflowError)) }
      else
        match s.pool.take with
        | some (c, pool) =>
          some { s with
            pool, bufferReuses := s.bufferReuses + 1, calls := s.move k a (.leased items c) }
        | none =>
          some { s with
            pool := s.pool.make
            contents := s.update s.pool.made ({}, 0)
            calls := s.move k a (.leased items s.pool.made) }
    | _ => none
  | .assign k => do
    let a ← s.calls[k]?
    match a.place with
    | .leased items c =>
      let buffers := (s.contents c).1.assign backend.bundle items.length (batchLength items)
        (batchWidth items)
      some { s with
        contents := s.update c (buffers, (s.contents c).2)
        calls := s.move k a (.writing items c 0) }
    | _ => none
  | .write k => do
    let a ← s.calls[k]?
    match a.place with
    | .writing items c row =>
      let item ← items[row]?
      let buffers := (s.contents c).1.writeItem (batchLength items) (batchWidth items) row item
      some { s with
        contents := s.update c (buffers, (s.contents c).2)
        calls := s.move k a (.writing items c (row + 1)) }
    | _ => none
  | .run k => do
    let a ← s.calls[k]?
    match a.place with
    | .writing items c row =>
      if row = items.length then
        match firstFailure a.check a.requests.length a.requests with
        | some failure => some { s with calls := s.move k a (.leaving (.error failure) c) }
        | none =>
          let outputs := backend.session ((s.contents c).1.tensors items)
          some { s with runs := s.runs + 1, calls := s.move k a (.ran items c outputs) }
      else none
    | _ => none
  | .decode k => do
    let a ← s.calls[k]?
    match a.place with
    | .ran items c outputs =>
      let answer :=
        match firstFailure a.check (2 * a.requests.length) a.requests with
        | some failure => .error failure
        | none => backend.decode items outputs
      some { s with calls := s.move k a (.leaving answer c) }
    | _ => none
  | .wipe k retained => do
    let a ← s.calls[k]?
    match a.place with
    | .leaving answer c =>
      let buffers := (s.contents c).1
      if retained < buffers.size then none
      else if backend.reusableBufferBytes < retained * 8 + buffers.mask.length then
        some { s with pool := s.pool.discard c, calls := s.move k a (.returned answer) }
      else
        let inputIds := List.replicate buffers.inputIds.length 0
        some { s with
          contents := s.update c ({ buffers with inputIds }, retained)
          calls := s.move k a (.wiped answer c) }
    | _ => none
  | .giveBack k placed => do
    let a ← s.calls[k]?
    match a.place with
    | .wiped answer c =>
      match if placed then s.pool.give backend.reusableBuffers c else none with
      | some pool => some { s with pool, calls := s.move k a (.returned answer) }
      | none => some { s with pool := s.pool.discard c, calls := s.move k a (.returned answer) }
    | _ => none
  | .throw k exception left => do
    let a ← s.calls[k]?
    let place ← a.place.unwound exception.error
    let contents := match a.place.holds with
      | some c => s.update c (left, (s.contents c).2)
      | none => s.contents
    some { s with contents, calls := s.calls.set k { a with thrown := true, place } }

/-! ## Answers -/

/-- What a call answers behind the session. -/
def received (a : LayaActivity) (items : List LayaItem) (outputs : List SessionValue) :
    Result Predicted :=
  match firstFailure a.check (2 * a.requests.length) a.requests with
  | some failure => .error failure
  | none => backend.decode items outputs

/-- What a call answers that has buffers. -/
def served (a : LayaActivity) (items : List LayaItem) : Result Predicted :=
  match firstFailure a.check a.requests.length a.requests with
  | some failure => .error failure
  | none => backend.received a items (backend.session (layaTensors backend.bundle items))

/-- What a call answers behind the loop over the requests. -/
def answerOf (a : LayaActivity) : Result (List LayaItem) → Result Predicted
  | .error failure => .error failure
  | .ok items => if overflows items then .error overflowError else backend.served a items

/-- What a call answers. -/
def alone (a : LayaActivity) : Result Predicted :=
  if a.requests = [] then .ok ⟨[], []⟩
  else
    match firstFailure a.check 0 a.requests with
    | some failure => .error failure
    | none => backend.answerOf a (a.requests.mapM (backend.bundle.item sizeSub))

/-- What a call answers that goes on from its place alone. -/
def outcome (a : LayaActivity) : Result Predicted :=
  match a.place with
  | .entered => backend.alone a
  | .collecting items _ rest =>
    backend.answerOf a ((rest.mapM (backend.bundle.item sizeSub)).map (items ++ ·))
  | .encoding items _ request rest _ _ _ =>
    backend.answerOf a (((request :: rest).mapM (backend.bundle.item sizeSub)).map (items ++ ·))
  | .leased items _ => backend.served a items
  | .writing items _ _ => backend.served a items
  | .ran items _ outputs => backend.received a items outputs
  | .leaving answer _ => answer
  | .wiped answer _ => answer
  | .returned answer => answer

variable {backend}

/-- **A call alone** answers so, after any other calls. -/
theorem predictBatch_eq_alone {state : LayaState} (a : LayaActivity) (capacities : Nat → Capacities)
    (retained : Nat) (hstate : state.heads.Sound backend.bundle backend.limits) :
    (backend.predictBatch ⟨a.check, capacities, retained⟩ a.requests state).1 =
      backend.alone a := by
  unfold alone
  split_ifs with hempty
  · rw [predictBatch, if_pos hempty]
  · cases hchecks : firstFailure a.check 0 a.requests with
    | some failure => rw [predictBatch, if_neg hempty, hchecks]
    | none =>
      dsimp only
      cases hitems : a.requests.mapM (backend.bundle.item sizeSub) with
      | error failure =>
        have hcollect := (@collect_eq backend capacities 0 a.requests _ [] hstate
          (List.forall_mem_nil _)).1
        rw [predictBatch, if_neg hempty, hchecks]
        dsimp only
        rw [hcollect, hitems]
        rfl
      | ok items =>
        rw [predictBatch_of_items hstate hempty hchecks hitems]
        unfold answerOf served received
        dsimp only
        split_ifs
        · rfl
        · cases firstFailure a.check a.requests.length a.requests with
          | some failure => rfl
          | none => cases firstFailure a.check (2 * a.requests.length) a.requests <;> rfl

/-- The rows of a batch whose first request has one. -/
theorem mapM_cons_append {items : List LayaItem} {request : InferenceRequest}
    {rest : List InferenceRequest} {item : LayaItem}
    (hitem : backend.bundle.item sizeSub request = .ok item) :
    ((request :: rest).mapM (backend.bundle.item sizeSub)).map (items ++ ·) =
      (rest.mapM (backend.bundle.item sizeSub)).map (items ++ [item] ++ ·) := by
  rw [List.mapM_cons, hitem]
  cases rest.mapM (backend.bundle.item sizeSub) with
  | error failure => rfl
  | ok more => exact congrArg Except.ok (List.append_cons _ _ _)

/-- The rows of a batch whose first request has none. -/
theorem mapM_cons_error {items : List LayaItem} {request : InferenceRequest}
    {rest : List InferenceRequest} {failure : Error}
    (hitem : backend.bundle.item sizeSub request = .error failure) :
    ((request :: rest).mapM (backend.bundle.item sizeSub)).map (items ++ ·) = .error failure := by
  rw [List.mapM_cons, hitem]
  rfl

/-! ## Faithful calls -/

/-- What a call has encoded. -/
def Encoded (backend : LayaBackend) : LayaPlace → Prop
  | .collecting _ states _ => ∀ entry ∈ states, entry.2 = backend.bundle.encodeState entry.1
  | .encoding _ states request _ options state head =>
    (∀ entry ∈ states, entry.2 = backend.bundle.encodeState entry.1) ∧
      renderOptions request = .ok options ∧ state = backend.bundle.encodeState request.input ∧
        head = backend.bundle.headOf sizeSub ⟨request.questionKind, request.question, options⟩
  | _ => True

/-- A call is on its way to the answer that it has alone, unless an exception has ended it. -/
structure Faithful (backend : LayaBackend) (a : LayaActivity) : Prop where
  answer : a.thrown = false → backend.outcome a = backend.alone a
  encoded : backend.Encoded a.place

/-- A call goes on, and its answer stays the same. -/
theorem Faithful.move {a : LayaActivity} {place : LayaPlace} (h : backend.Faithful a)
    (houtcome : backend.outcome { a with place } = backend.outcome a)
    (hencoded : backend.Encoded place) : backend.Faithful { a with place } where
  answer := fun hthrown => houtcome.trans (h.answer hthrown)
  encoded := hencoded

/-- The loop over the requests goes on with a state and a head that are as encoded. -/
theorem Faithful.collected {a : LayaActivity} {items : List LayaItem}
    {states : List (Bytes × List Int)} {request : InferenceRequest} {rest : List InferenceRequest}
    {options : List Bytes} (h : backend.Faithful a)
    (houtcome : backend.outcome a = backend.answerOf a
      (((request :: rest).mapM (backend.bundle.item sizeSub)).map (items ++ ·)))
    (hstates : ∀ entry ∈ states, entry.2 = backend.bundle.encodeState entry.1)
    (hoptions : renderOptions request = .ok options) :
    backend.Faithful { a with
      place := backend.collected items states request rest options
        (backend.bundle.encodeState request.input)
        (backend.bundle.headOf sizeSub ⟨request.questionKind, request.question, options⟩) } := by
  have hitem : backend.bundle.item sizeSub request =
      backend.bundle.makeItem sizeSub request options
        (backend.bundle.headOf sizeSub ⟨request.questionKind, request.question, options⟩)
        (backend.bundle.encodeState request.input) := by
    rw [LayaBundle.item, hoptions]
    rfl
  unfold LayaBackend.collected
  rw [← hitem]
  cases hmade : backend.bundle.item sizeSub request with
  | error failure =>
    refine h.move ?_ trivial
    rw [houtcome, mapM_cons_error hmade]
    rfl
  | ok item =>
    refine h.move ?_ hstates
    rw [houtcome, mapM_cons_append hmade]
    rfl

/-! ## Buffers -/

/-- Buffers in which the rows in front of one have been written, whatever was in them. -/
def Written (bundle : LayaBundle) (items : List LayaItem) (row : Nat) (buffers : Buffers) : Prop :=
  ∃ before : Buffers, buffers = Buffers.writeItems (batchLength items) (batchWidth items) 0
    (items.take row) (before.assign bundle items.length (batchLength items) (batchWidth items))

/-- Buffers without input ids that are small enough to be kept. -/
structure Clean (backend : LayaBackend) (content : Buffers × Nat) : Prop where
  wiped : ∀ id ∈ content.1.inputIds, id = 0
  capacity : content.1.size ≤ content.2
  bounded : content.2 * 8 + content.1.mask.length ≤ backend.reusableBufferBytes

/-- What is required of buffers at the places of a call. -/
def bufferRequirements (backend : LayaBackend) : Requirements LayaActivity (Buffers × Nat) where
  holds a := a.place.holds
  idle := backend.Clean
  held _ a content :=
    match a.place with
    | .writing items _ row => Written backend.bundle items row content.1
    | .wiped _ _ => backend.Clean content
    | _ => True
  gone _ := True
  unmade _ := True

/-- The rows of a batch are written one after the other. -/
theorem writeItems_concat (length width i : Nat) (items : List LayaItem) (item : LayaItem)
    (buffers : Buffers) :
    Buffers.writeItems length width i (items ++ [item]) buffers =
      (Buffers.writeItems length width i items buffers).writeItem length width (i + items.length)
        item := by
  induction items generalizing i buffers with
  | nil => rfl
  | cons first items ih =>
    rw [List.cons_append, Buffers.writeItems, ih, Buffers.writeItems, List.length_cons,
      Nat.add_assoc, Nat.add_comm 1]

/-- One more row is written. -/
theorem Written.write {bundle : LayaBundle} {items : List LayaItem} {row : Nat} {item : LayaItem}
    {buffers : Buffers} (h : Written bundle items row buffers) (hitem : items[row]? = some item) :
    Written bundle items (row + 1)
      (buffers.writeItem (batchLength items) (batchWidth items) row item) := by
  obtain ⟨before, rfl⟩ := h
  have hlt := (List.getElem?_eq_some_iff.1 hitem).1
  refine ⟨before, ?_⟩
  rw [List.take_add_one, hitem, Option.toList_some, writeItems_concat, List.length_take,
    Nat.min_eq_left hlt.le, Nat.zero_add]

/-- The session is given the rows of the batch. -/
theorem Written.tensors {bundle : LayaBundle} {items : List LayaItem} {buffers : Buffers}
    (h : Written bundle items items.length buffers) :
    buffers.tensors items = layaTensors bundle items := by
  obtain ⟨before, rfl⟩ := h
  rw [List.take_length]
  exact tensors_fill bundle items before

/-! ## The invariant -/

/-- The cache is sound, every buffer is in one place and as it is required there, and every call is
on its way to its answer. -/
structure Leased (backend : LayaBackend) (s : LayaCalls) : Prop where
  heads : s.heads.Sound backend.bundle backend.limits
  tended : Tended backend.bufferRequirements backend.reusableBuffers s.pool s.calls s.contents
  calls : ∀ a ∈ s.calls, backend.Faithful a

variable {s s' : LayaCalls} {k : Nat} {a : LayaActivity}

/-- Every call is faithful when one of them has gone on. -/
theorem forall_mem_set {α : Type} {p : α → Prop} {l : List α} {i : Nat} {x : α}
    (h : ∀ y ∈ l, p y) (hx : p x) : ∀ y ∈ l.set i x, p y := by
  intro y hy
  rcases List.mem_or_eq_of_mem_set hy with hmem | rfl
  · exact h y hmem
  · exact hx

/-- The call at a place is faithful. -/
theorem Leased.faithful (h : backend.Leased s) (hk : s.calls[k]? = some a) :
    backend.Faithful a :=
  h.calls a (List.mem_of_getElem? hk)

/-- Changing a buffer leaves the others alone. -/
theorem update_other (s : LayaCalls) {c d : Nat} (content : Buffers × Nat) (hne : d ≠ c) :
    s.update c content d = s.contents d :=
  Function.update_of_ne hne _ _

/-- The buffer that is changed. -/
theorem update_self (s : LayaCalls) (c : Nat) (content : Buffers × Nat) :
    s.update c content c = content :=
  Function.update_self _ _ _

/-- A call without buffers goes on without buffers. -/
theorem Leased.free (h : backend.Leased s) {b : LayaActivity} {heads : HeadCache}
    (hheads : heads.Sound backend.bundle backend.limits) (hk : s.calls[k]? = some a)
    (ha : a.place.holds = none) (hb : b.place.holds = none) (hfaithful : backend.Faithful b) :
    backend.Leased { s with heads, calls := s.calls.set k b } where
  heads := hheads
  tended := h.tended.pass hk (hb.trans ha.symm) fun _ hc => absurd (ha.symm.trans hc) nofun
  calls := forall_mem_set h.calls hfaithful

/-- A call with buffers goes on with them, and does not change them. -/
theorem Leased.keep (h : backend.Leased s) {place : LayaPlace} (runs : Nat)
    (hk : s.calls[k]? = some a) (hholds : place.holds = a.place.holds)
    (hheld : ∀ content, backend.bufferRequirements.held k a content →
      backend.bufferRequirements.held k { a with place } content)
    (hfaithful : backend.Faithful { a with place }) :
    backend.Leased { s with runs, calls := s.move k a place } where
  heads := h.heads
  tended := h.tended.pass hk hholds fun c _ => hheld (s.contents c)
  calls := forall_mem_set h.calls hfaithful

/-- A call changes its buffers. -/
theorem Leased.change (h : backend.Leased s) {b : LayaActivity} {c : Nat} {content : Buffers × Nat}
    (hk : s.calls[k]? = some a) (ha : a.place.holds = some c) (hb : b.place.holds = some c)
    (hheld : backend.bufferRequirements.held k b content) (hfaithful : backend.Faithful b) :
    backend.Leased { s with contents := s.update c content, calls := s.calls.set k b } where
  heads := h.heads
  tended := by
    refine h.tended.use hk ha hb (fun _ hne => update_other s content hne) ?_
    dsimp only
    rwa [update_self]
  calls := forall_mem_set h.calls hfaithful

/-- The buffers of a call come to their end. -/
theorem Leased.drop (h : backend.Leased s) {place : LayaPlace} {c : Nat}
    (hk : s.calls[k]? = some a) (ha : a.place.holds = some c) (hb : place.holds = none)
    (hfaithful : backend.Faithful { a with place }) :
    backend.Leased { s with pool := s.pool.discard c, calls := s.move k a place } where
  heads := h.heads
  tended := h.tended.discard hk ha hb (fun _ _ => rfl) trivial
  calls := forall_mem_set h.calls hfaithful

/-! ## Steps -/

/-- A call makes its first checks. -/
theorem Leased.check (h : backend.Leased s) (hstep : backend.step s (.check k) = some s') :
    backend.Leased s' := by
  obtain ⟨a, hk, hstep⟩ := Option.bind_eq_some_iff.1 hstep
  have hfaithful := h.faithful hk
  split at hstep
  · next hplace =>
    obtain rfl := Option.some.inj hstep
    have halone : backend.outcome a = backend.alone a := by
      unfold outcome
      rw [hplace]
    refine h.free h.heads hk (hplace ▸ rfl) ?_ ?_
    · dsimp only
      split_ifs
      · rfl
      · split <;> rfl
    · unfold alone at halone
      split_ifs at halone ⊢ with hempty
      · exact hfaithful.move halone.symm trivial
      · cases hchecks : firstFailure a.check 0 a.requests with
        | some failure =>
          rw [hchecks] at halone
          exact hfaithful.move halone.symm trivial
        | none =>
          rw [hchecks] at halone
          refine hfaithful.move (.trans ?_ halone.symm) (List.forall_mem_nil _)
          show backend.answerOf a
            ((a.requests.mapM (backend.bundle.item sizeSub)).map ([] ++ ·)) = _
          cases a.requests.mapM (backend.bundle.item sizeSub) <;> rfl
  · cases hstep

/-- A call looks up a head. -/
theorem Leased.lookup (h : backend.Leased s) (hstep : backend.step s (.lookup k) = some s') :
    backend.Leased s' := by
  obtain ⟨a, hk, hstep⟩ := Option.bind_eq_some_iff.1 hstep
  have hfaithful := h.faithful hk
  split at hstep
  · next items states request rest hplace =>
    have hnone : a.place.holds = none := hplace ▸ rfl
    have houtcome : backend.outcome a = backend.answerOf a
        (((request :: rest).mapM (backend.bundle.item sizeSub)).map (items ++ ·)) := by
      unfold outcome
      rw [hplace]
    have hstates : ∀ entry ∈ states, entry.2 = backend.bundle.encodeState entry.1 := by
      have hencoded := hfaithful.encoded
      rwa [hplace] at hencoded
    have hencodes : (backend.stateOf states request.input).1 =
          backend.bundle.encodeState request.input ∧
        ∀ entry ∈ (backend.stateOf states request.input).2,
          entry.2 = backend.bundle.encodeState entry.1 := stateOf_eq hstates
    obtain ⟨hstate, hstates'⟩ := hencodes
    split at hstep
    · next failure hoptions =>
      have hitem : backend.bundle.item sizeSub request = .error failure := by
        rw [LayaBundle.item, hoptions]
      refine Option.some.inj hstep ▸ h.free h.heads hk hnone rfl (hfaithful.move ?_ trivial)
      rw [houtcome, mapM_cons_error hitem]
      rfl
    · next options hoptions =>
      have hsound : ∀ {call : HeadCall} {found : Option PreparedHead} {heads : HeadCache},
          s.heads.lookup backend.limits call = (found, heads) →
            heads.Sound backend.bundle backend.limits := fun hlookup => by
        obtain rfl := congrArg Prod.snd hlookup
        rw [HeadCache.Sound, HeadCache.store_lookup]
        exact h.heads
      dsimp only at hstep
      split at hstep
      · next head heads hlookup =>
        have hhead := h.heads.found (congrArg Prod.fst hlookup)
        refine Option.some.inj hstep ▸
          h.free (hsound hlookup) hk hnone ?_ ?_
        · unfold LayaBackend.collected
          dsimp only
          split <;> rfl
        · rw [hstate, hhead]
          exact hfaithful.collected houtcome hstates' hoptions
      · next heads hlookup =>
        exact Option.some.inj hstep ▸
          h.free (hsound hlookup) hk hnone rfl
            (hfaithful.move houtcome.symm ⟨hstates', hoptions, hstate, rfl⟩)
  · cases hstep

/-- A call puts a head that it has made into the cache. -/
theorem Leased.insert (h : backend.Leased s) {capacities : Capacities}
    {exception : Option LayaException}
    (hstep : backend.step s (.insert k capacities exception) = some s') : backend.Leased s' := by
  obtain ⟨a, hk, hstep⟩ := Option.bind_eq_some_iff.1 hstep
  have hfaithful := h.faithful hk
  split at hstep
  · next items states request rest options state head hplace =>
    have hnone : a.place.holds = none := hplace ▸ rfl
    have houtcome : backend.outcome a = backend.answerOf a
        (((request :: rest).mapM (backend.bundle.item sizeSub)).map (items ++ ·)) := by
      unfold outcome
      rw [hplace]
    have hencoded := hfaithful.encoded
    rw [hplace] at hencoded
    obtain ⟨hstates, hoptions, rfl, rfl⟩ := hencoded
    have hheads : ∀ call : HeadCall, (s.heads.insert sizeSub backend.limits call
        (backend.bundle.headOf sizeSub call) capacities exception.isNone).Sound backend.bundle
          backend.limits := fun _ => h.heads.insert capacities exception.isNone
    dsimp only at hstep
    split at hstep
    · exact Option.some.inj hstep ▸ h.free (hheads _) hk hnone rfl ⟨nofun, trivial⟩
    · refine Option.some.inj hstep ▸ h.free (hheads _) hk hnone ?_
        (hfaithful.collected houtcome hstates hoptions)
      unfold LayaBackend.collected
      dsimp only
      split <;> rfl
  · cases hstep

/-- A call takes buffers, or makes them. -/
theorem Leased.acquire (h : backend.Leased s) (hstep : backend.step s (.acquire k) = some s') :
    backend.Leased s' := by
  obtain ⟨a, hk, hstep⟩ := Option.bind_eq_some_iff.1 hstep
  have hfaithful := h.faithful hk
  split at hstep
  · next items states hplace =>
    have hnone : a.place.holds = none := hplace ▸ rfl
    have houtcome : backend.outcome a = backend.answerOf a (.ok items) := by
      unfold outcome
      rw [hplace]
      exact congrArg (fun more => backend.answerOf a (.ok more)) (List.append_nil items)
    unfold answerOf at houtcome
    dsimp only at houtcome
    split_ifs at hstep houtcome
    · exact Option.some.inj hstep ▸
        h.free h.heads hk hnone rfl (hfaithful.move houtcome.symm trivial)
    · have hleased : ∀ c, backend.Faithful { a with place := .leased items c } := fun c =>
        hfaithful.move houtcome.symm trivial
      split at hstep
      · next c pool htake =>
        exact Option.some.inj hstep ▸
          ⟨h.heads, h.tended.take hk hnone htake rfl fun _ => trivial,
            forall_mem_set h.calls (hleased c)⟩
      · exact Option.some.inj hstep ▸
          ⟨h.heads, h.tended.make hk hnone rfl (fun _ hne => update_other s _ hne) trivial,
            forall_mem_set h.calls (hleased s.pool.made)⟩
  · cases hstep

/-- A call prepares its buffers. -/
theorem Leased.assign (h : backend.Leased s) (hstep : backend.step s (.assign k) = some s') :
    backend.Leased s' := by
  obtain ⟨a, hk, hstep⟩ := Option.bind_eq_some_iff.1 hstep
  have hfaithful := h.faithful hk
  split at hstep
  · next items c hplace =>
    refine Option.some.inj hstep ▸
      h.change hk (hplace ▸ rfl) rfl ⟨(s.contents c).1, rfl⟩ (hfaithful.move ?_ trivial)
    unfold outcome
    rw [hplace]
    rfl
  · cases hstep

/-- A call writes a row. -/
theorem Leased.write (h : backend.Leased s) (hstep : backend.step s (.write k) = some s') :
    backend.Leased s' := by
  obtain ⟨a, hk, hstep⟩ := Option.bind_eq_some_iff.1 hstep
  have hfaithful := h.faithful hk
  split at hstep
  · next items c row hplace =>
    obtain ⟨item, hitem, hstep⟩ := Option.bind_eq_some_iff.1 hstep
    have hholds : a.place.holds = some c := hplace ▸ rfl
    have hwritten := h.tended.held k a c hk hholds
    unfold bufferRequirements at hwritten
    dsimp only at hwritten
    rw [hplace] at hwritten
    refine Option.some.inj hstep ▸
      h.change hk hholds rfl (hwritten.write hitem) (hfaithful.move ?_ trivial)
    unfold outcome
    rw [hplace]
    rfl
  · cases hstep

/-- A call makes its second checks and runs the session. -/
theorem Leased.run (h : backend.Leased s) (hstep : backend.step s (.run k) = some s') :
    backend.Leased s' := by
  obtain ⟨a, hk, hstep⟩ := Option.bind_eq_some_iff.1 hstep
  have hfaithful := h.faithful hk
  split at hstep
  · next items c row hplace =>
    split_ifs at hstep with hrow
    subst hrow
    have hholds : a.place.holds = some c := hplace ▸ rfl
    have hwritten := h.tended.held k a c hk hholds
    unfold bufferRequirements at hwritten
    dsimp only at hwritten
    rw [hplace] at hwritten
    have houtcome : backend.outcome a = backend.served a items := by
      unfold outcome
      rw [hplace]
    unfold served at houtcome
    split at hstep
    · next failure hchecks =>
      rw [hchecks] at houtcome
      exact Option.some.inj hstep ▸
        h.keep s.runs hk hholds.symm (fun _ _ => trivial) (hfaithful.move houtcome.symm trivial)
    · next hchecks =>
      rw [hchecks] at houtcome
      refine Option.some.inj hstep ▸
        h.keep (s.runs + 1) hk hholds.symm (fun _ _ => trivial) (hfaithful.move ?_ trivial)
      rw [houtcome, hwritten.tensors]
      rfl
  · cases hstep

/-- A call makes its last checks and reads its answer off what the session has returned. -/
theorem Leased.decode (h : backend.Leased s) (hstep : backend.step s (.decode k) = some s') :
    backend.Leased s' := by
  obtain ⟨a, hk, hstep⟩ := Option.bind_eq_some_iff.1 hstep
  have hfaithful := h.faithful hk
  split at hstep
  · next items c outputs hplace =>
    refine Option.some.inj hstep ▸
      h.keep s.runs hk (hplace ▸ rfl) (fun _ _ => trivial) (hfaithful.move ?_ trivial)
    have houtcome : backend.outcome a = backend.received a items outputs := by
      unfold outcome
      rw [hplace]
    exact houtcome.symm
  · cases hstep

/-- The destructor of a lease wipes the buffers. -/
theorem Leased.wipe (h : backend.Leased s) {retained : Nat}
    (hstep : backend.step s (.wipe k retained) = some s') : backend.Leased s' := by
  obtain ⟨a, hk, hstep⟩ := Option.bind_eq_some_iff.1 hstep
  have hfaithful := h.faithful hk
  split at hstep
  · next answer c hplace =>
    have houtcome : backend.outcome a = answer := by
      unfold outcome
      rw [hplace]
    dsimp only at hstep
    split_ifs at hstep with hcapacity hbytes
    · exact Option.some.inj hstep ▸
        h.drop hk (hplace ▸ rfl) rfl (hfaithful.move houtcome.symm trivial)
    · refine Option.some.inj hstep ▸
        h.change hk (hplace ▸ rfl) rfl ?_ (hfaithful.move houtcome.symm trivial)
      refine ⟨fun _ => List.eq_of_mem_replicate, ?_, Nat.le_of_not_lt hbytes⟩
      unfold Buffers.size
      rw [List.length_replicate]
      exact Nat.le_of_not_lt hcapacity
  · cases hstep

/-- The destructor of a lease gives the buffers back. -/
theorem Leased.giveBack (h : backend.Leased s) {placed : Bool}
    (hstep : backend.step s (.giveBack k placed) = some s') : backend.Leased s' := by
  obtain ⟨a, hk, hstep⟩ := Option.bind_eq_some_iff.1 hstep
  have hfaithful := h.faithful hk
  split at hstep
  · next answer c hplace =>
    have houtcome : backend.outcome a = answer := by
      unfold outcome
      rw [hplace]
    have hreturned : backend.Faithful { a with place := .returned answer } :=
      hfaithful.move houtcome.symm trivial
    have hholds : a.place.holds = some c := hplace ▸ rfl
    split at hstep
    · next pool hgive =>
      split_ifs at hgive
      refine Option.some.inj hstep ▸
        ⟨h.heads, h.tended.give hk hholds rfl hgive fun hheld => ?_,
          forall_mem_set h.calls hreturned⟩
      unfold bufferRequirements at hheld
      dsimp only at hheld
      rwa [hplace] at hheld
    · exact Option.some.inj hstep ▸ h.drop hk hholds rfl hreturned
  · cases hstep

/-- An exception ends a call. -/
theorem Leased.throw (h : backend.Leased s) {exception : LayaException} {left : Buffers}
    (hstep : backend.step s (.throw k exception left) = some s') : backend.Leased s' := by
  obtain ⟨a, hk, hstep⟩ := Option.bind_eq_some_iff.1 hstep
  obtain ⟨place, hplace, hstep⟩ := Option.bind_eq_some_iff.1 hstep
  obtain ⟨requests, check, thrown, from_⟩ := a
  cases from_ with
  | entered | collecting | encoding =>
    obtain rfl := Option.some.inj hplace
    exact Option.some.inj hstep ▸ h.free h.heads hk rfl rfl ⟨nofun, trivial⟩
  | leased | writing | ran =>
    obtain rfl := Option.some.inj hplace
    exact Option.some.inj hstep ▸ h.change hk rfl rfl trivial ⟨nofun, trivial⟩
  | leaving => cases hplace
  | wiped => cases hplace
  | returned => cases hplace

/-- **Every step keeps the leases.** -/
theorem Leased.step (h : backend.Leased s) {label : LayaLabel}
    (hstep : backend.step s label = some s') : backend.Leased s' := by
  cases label with
  | predictBatch requests check =>
    refine Option.some.inj hstep ▸ ⟨h.heads, h.tended.enter rfl, ?_⟩
    exact List.forall_mem_append.2 ⟨h.calls, List.forall_mem_singleton.2 ⟨fun _ => rfl, trivial⟩⟩
  | check k => exact h.check hstep
  | lookup k => exact h.lookup hstep
  | insert k capacities exception => exact h.insert hstep
  | acquire k => exact h.acquire hstep
  | assign k => exact h.assign hstep
  | write k => exact h.write hstep
  | run k => exact h.run hstep
  | decode k => exact h.decode hstep
  | wipe k retained => exact h.wipe hstep
  | giveBack k placed => exact h.giveBack hstep
  | throw k exception left => exact h.throw hstep

/-! ## Runs -/

/-- There are no calls in the beginning. -/
theorem leased_start (backend : LayaBackend) : backend.Leased {} where
  heads := HeadCache.sound_empty
  tended := .start _ fun _ => trivial
  calls := List.forall_mem_nil _

/-- A run keeps the leases. -/
theorem leased_of_run {labels : List LayaLabel} (hrun : Run backend.step {} labels s) :
    backend.Leased s :=
  Reachable.invariant (leased_start backend) (fun _ _ _ h hstep => h.step hstep) ⟨labels, hrun⟩

/-- Only calls in progress have buffers. -/
theorem length_leased_le (calls : List LayaActivity) :
    (calls.filterMap fun a => a.place.holds).length ≤
      calls.countP fun a => a.place.inProgress := by
  rw [List.length_filterMap_eq_countP]
  refine List.countP_mono_left fun a _ hholds => ?_
  obtain ⟨requests, check, thrown, place⟩ := a
  cases place <;> first | rfl | cases hholds

/-- **Concurrent calls do not interfere.** In every run, however the calls of `predict_batch`
interleave and whichever of them exceptions end: a call that has returned without one has the answer
that it would have alone, after any calls that may have been in front of it; buffers are leased to
one call at most, and not idle then; at most `reusable_buffers` are idle, all of them without input
ids and not larger than `reusable_buffer_bytes`; none is lost; and the cache of heads stays within
its limits. -/
theorem calls_do_not_interfere {labels : List LayaLabel} (hrun : Run backend.step {} labels s) :
    (∀ a ∈ s.calls, ∀ answer, a.place = .returned answer → a.thrown = false →
        ∀ history capacities retained,
          (backend.predictBatch ⟨a.check, capacities, retained⟩ a.requests
            (backend.after history)).1 = answer) ∧
      (∀ (k : Nat) (a : LayaActivity) c, s.calls[k]? = some a → a.place.holds = some c →
        c ∉ s.pool.idle ∧ ∀ (i : Nat) (other : LayaActivity), s.calls[i]? = some other →
          other.place.holds = some c → i = k) ∧
      (s.pool.idle.length ≤ backend.reusableBuffers ∧
        ∀ c ∈ s.pool.idle, backend.Clean (s.contents c)) ∧
      s.pool.made ≤ s.pool.gone.length + backend.reusableBuffers +
        s.calls.countP (fun a => a.place.inProgress) ∧
      ((∀ a ∈ s.calls, a.place.inProgress = false) →
        s.pool.made = s.pool.gone.length + s.pool.idle.length) ∧
      s.heads.store.Bounded backend.limits.entries backend.limits.bytes := by
  have h := leased_of_run hrun
  refine ⟨fun a ha answer hplace hthrown history capacities retained => ?_,
    fun k a c hk hholds => ?_, ⟨h.tended.balanced.bounded, h.tended.idle⟩,
    h.tended.made_le (length_leased_le s.calls), fun hreturned => h.tended.made_eq fun a ha => ?_,
    h.heads.bounded⟩
  · have hanswer := (h.calls a ha).answer hthrown
    unfold outcome at hanswer
    rw [hplace] at hanswer
    rw [predictBatch_eq_alone a capacities retained (sound_after history)]
    exact hanswer.symm
  · obtain ⟨hidle, -, -, halone⟩ := h.tended.alone hk hholds
    exact ⟨hidle, halone⟩
  · have hplace := hreturned a ha
    obtain ⟨requests, check, thrown, place⟩ := a
    cases place <;> first | rfl | cases hplace

/-- A call, and a batch that finds its head in the cache and is ended by the session. -/
def rivals : List LayaLabel :=
  [.predictBatch [markChoice] stillCall.check, .predictBatch [markNoul, markChoice] stillCall.check,
    .check 0, .check 1, .lookup 0, .lookup 1, .insert 1 ⟨0, 0, 0, 0⟩ none,
    .insert 0 ⟨0, 0, 0, 0⟩ none, .acquire 0, .lookup 1, .acquire 1, .assign 0, .assign 1, .write 1,
    .write 0, .run 0, .write 1, .throw 1 (.onnxRuntime (lit "run")) {}, .decode 0, .wipe 1 0,
    .wipe 0 1000, .giveBack 0 true, .giveBack 1 true]

/-- Both have returned, and the first with the answer that it has after the second. -/
theorem calls_do_not_interfere_rivals : ∃ s : LayaCalls,
    s.pool = { made := 2, idle := [0, 1], gone := [] } ∧
      (∀ a ∈ s.calls, a.place.inProgress = false) ∧
        ∀ a ∈ s.calls, ∀ answer, a.place = .returned answer → a.thrown = false →
          (markBackend.predictBatch ⟨a.check, stillCall.capacities, 0⟩ a.requests
            (markBackend.after [(stillCall, [markNoul, markChoice])])).1 = answer := by
  have hends : (rivals.foldlM markBackend.step {}).map
      (fun s => (s.pool, s.calls.all fun a => !a.place.inProgress)) =
        some ({ made := 2, idle := [0, 1], gone := [] }, true) := by decide +kernel
  obtain ⟨s, hrun, hs⟩ := Option.map_eq_some_iff.1 hends
  obtain ⟨hpool, hreturned⟩ := Prod.mk.inj hs
  refine ⟨s, hpool, fun a ha => by simpa using List.all_eq_true.1 hreturned a ha,
    fun a ha answer hplace hthrown => ?_⟩
  exact (calls_do_not_interfere hrun).1 a ha answer hplace hthrown _ _ _

end LayaBackend

end Jevt
