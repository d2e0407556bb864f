import Jevt.Experience.Memory
import Jevt.Library.Distinct
import Jevt.Library.Run

/-!
# Episodes of the memory of outcomes

The owner of a memory records attempts and clears it. An episode is a memory with the calls that
were accepted since it was last cleared, and with each of them whether it inserted its context
(`Episode`).

What the memory holds is a function of these calls (`Episode.Consistent`): the contexts are the ones
that were inserted last, the window has the newest attempt ids, and the evidence of a context counts
the calls since the context was inserted. `outcome_memory_episodes` says so for every run, and what
the next call does.
-/

namespace Jevt.Experience

open Library

/-! ## Episodes -/

/-- A call of the owner. -/
inductive MemoryOp where
  | record (call : Attempt)
  | clear

/-- An accepted call, and whether it inserted its context. -/
structure Accepted where
  call : Attempt
  inserted : Bool

/-- A memory and the calls that were accepted since it was last cleared. -/
structure Episode where
  memory : OutcomeMemory
  accepted : List Accepted

/-- The attempt ids of accepted calls. -/
def attempts (accepted : List Accepted) : List Bytes :=
  accepted.map fun entry => entry.call.attempt

/-- The contexts that were inserted, the oldest insertion first. -/
def insertions (accepted : List Accepted) : List Bytes :=
  (accepted.filter Accepted.inserted).map fun entry => entry.call.context

/-- The calls for a context since it was last inserted. -/
def callsFor (context : Bytes) (accepted : List Accepted) : List Attempt :=
  accepted.foldl (fun calls entry =>
    if entry.call.context = context then
      if entry.inserted then [entry.call] else calls ++ [entry.call]
    else calls) []

namespace Episode

/-- A new memory. -/
def start (capacity : Nat) : Episode :=
  ⟨.new capacity, []⟩

/-- A call of the owner in an episode. -/
def step (e : Episode) : MemoryOp → Option Episode
  | .record call =>
    (e.memory.record call).map fun answer =>
      ⟨answer.2, if answer.1 then
        e.accepted ++ [⟨call, !e.memory.records.contains call.context⟩] else e.accepted⟩
  | .clear => some ⟨e.memory.clear, []⟩

/-- The memory holds what the accepted calls say. -/
structure Consistent (capacity : Nat) (e : Episode) : Prop where
  effective : e.memory.capacity = capacity
  bounded : e.memory.records.size ≤ capacity
  stored : e.memory.insertionOrder.Perm e.memory.records.keys
  distinct : e.memory.insertionOrder.Nodup
  oldest : e.memory.insertionOrder <:+ insertions e.accepted
  window : e.memory.seen = (attempts e.accepted).rtake (4 * capacity)
  seenDistinct : e.memory.seen.Nodup
  seenBounded : e.memory.seen.length ≤ 4 * capacity
  evidence : ∀ context value, e.memory.find context = some value →
    value.Counts (callsFor context e.accepted)

/-- A new memory holds nothing. -/
theorem consistent_start (capacity : Nat) : Consistent (max 1 capacity) (start capacity) where
  effective := rfl
  bounded := Nat.zero_le _
  stored := .nil
  distinct := .nil
  oldest := List.nil_suffix
  window := (List.rtake_nil _).symm
  seenDistinct := .nil
  seenBounded := Nat.zero_le _
  evidence := nofun

/-- A memory that was cleared holds nothing. -/
theorem Consistent.clear {capacity : Nat} {e : Episode} (h : Consistent capacity e) :
    Consistent capacity ⟨e.memory.clear, []⟩ where
  effective := h.effective
  bounded := Nat.zero_le _
  stored := .nil
  distinct := .nil
  oldest := List.nil_suffix
  window := (List.rtake_nil _).symm
  seenDistinct := .nil
  seenBounded := Nat.zero_le _
  evidence := nofun

end Episode

/-! ## The logs of one more call -/

section
variable {accepted : List Accepted} {call : Attempt} {inserted : Bool}

/-- The attempt ids with one more call. -/
@[simp] theorem attempts_concat :
    attempts (accepted ++ [⟨call, inserted⟩]) = attempts accepted ++ [call.attempt] := by
  simp [attempts]

/-- The insertions with a call that inserts its context. -/
@[simp] theorem insertions_concat_true :
    insertions (accepted ++ [⟨call, true⟩]) = insertions accepted ++ [call.context] := by
  simp [insertions]

/-- The insertions with a call that does not. -/
@[simp] theorem insertions_concat_false :
    insertions (accepted ++ [⟨call, false⟩]) = insertions accepted := by
  simp [insertions]

/-- A call that inserts its context is the first one for it. -/
theorem callsFor_concat_true :
    callsFor call.context (accepted ++ [⟨call, true⟩]) = [call] := by
  simp [callsFor]

/-- A call for a context that is there is one more for it. -/
theorem callsFor_concat_false :
    callsFor call.context (accepted ++ [⟨call, false⟩]) =
      callsFor call.context accepted ++ [call] := by
  simp [callsFor]

/-- A call is none for the other contexts. -/
theorem callsFor_concat_of_ne {context : Bytes} (h : call.context ≠ context) :
    callsFor context (accepted ++ [⟨call, inserted⟩]) = callsFor context accepted := by
  simp [callsFor, h]

/-- There are not more calls for a context than calls. -/
theorem length_callsFor_le (context : Bytes) (accepted : List Accepted) :
    (callsFor context accepted).length ≤ accepted.length := by
  induction accepted using List.reverseRecOn with
  | nil => exact Nat.le_refl 0
  | append_singleton accepted entry ih =>
    obtain ⟨call, inserted⟩ := entry
    rw [List.length_append, List.length_singleton]
    by_cases hcontext : call.context = context
    · subst hcontext
      cases inserted with
      | true => simp [callsFor_concat_true]
      | false => simp [callsFor_concat_false, ih]
    · rw [callsFor_concat_of_ne hcontext]
      omega

end

/-! ## One call -/

namespace OutcomeMemory

variable {m after : OutcomeMemory} {call : Attempt}

/-- The order and the records have the same contexts once each, within the capacity. -/
structure Linked (m : OutcomeMemory) : Prop where
  positive : 0 < m.capacity
  bounded : m.records.size ≤ m.capacity
  stored : m.insertionOrder.Perm m.records.keys
  distinct : m.insertionOrder.Nodup

/-- There are as many contexts in the order as there are records. -/
theorem Linked.length_eq (h : m.Linked) : m.insertionOrder.length = m.records.size := by
  rw [h.stored.length_eq, OrderedMap.length_keys]

/-- A context is in the order when it has a record. -/
theorem Linked.mem_iff (h : m.Linked) {context : Bytes} :
    context ∈ m.insertionOrder ↔ m.find context ≠ none := by
  rw [h.stored.mem_iff, find, Ne, OrderedMap.find_eq_none_iff, not_not]

/-- What is left when a context has entered: the order has taken it in, and the records are those of
the contexts that are still in the order. -/
structure Entered (context : Bytes) (m after : OutcomeMemory) : Prop where
  capacity : after.capacity = m.capacity
  seen : after.seen = m.seen
  order : after.insertionOrder = enqueue m.capacity context m.insertionOrder
  find : ∀ x, after.find x = if x ∈ after.insertionOrder then m.find x else none

/-- A context without a record is not found. -/
theorem Linked.find_eq_none (h : m.Linked) {context : Bytes} (hnew : context ∉ m.insertionOrder) :
    m.find context = none :=
  not_not.1 fun hfound => hnew (h.mem_iff.2 hfound)

/-- A context that has a record enters. -/
theorem Linked.entered_of_mem (h : m.Linked) {context : Bytes} (hmem : context ∈ m.insertionOrder) :
    Entered context m m where
  capacity := rfl
  seen := rfl
  order := (if_pos hmem).symm
  find := by
    intro x
    split
    · rfl
    · next hx => exact h.find_eq_none hx

/-- A new context enters where there is room. -/
theorem Linked.entered_of_room (h : m.Linked) {context : Bytes} (hnew : context ∉ m.insertionOrder)
    (hroom : ¬ m.capacity ≤ m.records.size) :
    Entered context m { m with insertionOrder := m.insertionOrder ++ [context] } where
  capacity := rfl
  seen := rfl
  order := by rw [enqueue, if_neg hnew, if_neg (h.length_eq ▸ hroom)]
  find := by
    intro x
    split
    · rfl
    · next hx => exact h.find_eq_none fun hold => hx (List.mem_append_left _ hold)

/-- A new context enters when the oldest one has left. -/
theorem Linked.entered_of_full (h : m.Linked) {context oldest : Bytes} {rest : List Bytes}
    (horder : m.insertionOrder = oldest :: rest) (hnew : context ∉ m.insertionOrder)
    (hfull : m.capacity ≤ m.records.size) :
    Entered context m
      { m with records := m.records.erase oldest, insertionOrder := rest ++ [context] } where
  capacity := rfl
  seen := rfl
  order := by rw [enqueue, if_neg hnew, if_pos (h.length_eq ▸ hfull), horder, List.tail_cons]
  find := by
    intro x
    refine (OrderedMap.find_erase oldest x m.records).trans ?_
    have hdistinct := h.distinct
    rw [horder, List.nodup_cons] at hdistinct
    rw [horder, List.mem_cons, not_or] at hnew
    by_cases hx : x = oldest
    · subst hx
      have hgone : x ∉ rest ++ [context] := by
        rw [List.mem_append, List.mem_singleton]
        rintro (hrest | rfl)
        · exact hdistinct.1 hrest
        · exact hnew.1 rfl
      rw [if_pos rfl, if_neg hgone]
    · rw [if_neg hx]
      split
      · rfl
      · next hout =>
        refine h.find_eq_none fun hold => ?_
        rw [horder, List.mem_cons] at hold
        rcases hold with hold | hold
        · exact hx hold
        · exact hout (List.mem_append_left _ hold)

/-- Every context can enter: the queue whose front is taken is not empty. -/
theorem Linked.exists_enter (h : m.Linked) (context : Bytes) :
    ∃ after, m.enter context = some after ∧ Entered context m after := by
  unfold enter
  by_cases hmem : context ∈ m.insertionOrder
  · rw [if_pos (OrderedMap.contains_iff.2 (h.stored.mem_iff.1 hmem))]
    exact ⟨m, rfl, h.entered_of_mem hmem⟩
  · rw [if_neg fun hkey => hmem (h.stored.mem_iff.2 (OrderedMap.contains_iff.1 hkey))]
    by_cases hfull : m.capacity ≤ m.records.size
    · rw [if_pos hfull, removeOldest]
      cases horder : m.insertionOrder with
      | nil =>
        have hlength := h.length_eq
        have hpos := h.positive
        rw [horder, List.length_nil] at hlength
        omega
      | cons oldest rest => exact ⟨_, rfl, h.entered_of_full horder hmem hfull⟩
    · rw [if_neg hfull]
      exact ⟨_, rfl, h.entered_of_room hmem hfull⟩

/-- What an accepted call leaves of a memory. -/
structure Recorded (call : Attempt) (m after : OutcomeMemory) : Prop where
  capacity : after.capacity = m.capacity
  seen : after.seen = (m.remember call.attempt).seen
  order : after.insertionOrder = enqueue m.capacity call.context m.insertionOrder
  find : ∀ x, after.find x =
    if x = call.context then some (((m.find x).getD {}).count call)
    else if x ∈ after.insertionOrder then m.find x else none

/-- A call whose id is in the window is refused. -/
theorem record_of_mem (hmem : call.attempt ∈ m.seen) : m.record call = some (false, m) :=
  if_pos (List.contains_iff_mem.2 hmem)

/-- A call whose id is not in the window is accepted. -/
theorem Linked.exists_record (h : m.Linked) (hnew : call.attempt ∉ m.seen) :
    ∃ after, m.record call = some (true, after) ∧ Recorded call m after := by
  have hremember : (m.remember call.attempt).Linked :=
    ⟨h.positive, h.bounded, h.stored, h.distinct⟩
  obtain ⟨left, henter, hentered⟩ := hremember.exists_enter call.context
  have hfound : left.find call.context = m.find call.context := by
    have hfind := hentered.find call.context
    have hin : call.context ∈ left.insertionOrder := by
      rw [hentered.order, mem_enqueue_iff hremember.distinct]
      exact .inl rfl
    rw [if_pos hin] at hfind
    exact hfind
  refine ⟨left.update call, ?_, hentered.capacity, hentered.seen, hentered.order, fun x => ?_⟩
  · rw [record, if_neg (mt List.contains_iff_mem.1 hnew), henter, Option.map_some]
  · refine (OrderedMap.find_assign call.context x _ left.records).trans ?_
    split
    · next hx => rw [hx, hfound]
    · exact hentered.find x

/-- An accepted call keeps the order and the records linked. -/
theorem Linked.recorded (h : m.Linked) (hafter : Recorded call m after) : after.Linked := by
  have hdistinct : after.insertionOrder.Nodup := hafter.order ▸ nodup_enqueue h.distinct
  have hlength : after.insertionOrder.length ≤ m.capacity := by
    rw [hafter.order]
    refine length_enqueue_le h.positive ?_
    rw [h.length_eq]
    exact h.bounded
  have hstored : after.insertionOrder.Perm after.records.keys := by
    refine (List.perm_ext_iff_of_nodup hdistinct after.records.nodup_keys).2 fun x => ?_
    have hkey : x ∈ after.records.keys ↔ after.find x ≠ none := by
      rw [OutcomeMemory.find, Ne, OrderedMap.find_eq_none_iff, not_not]
    rw [hkey, hafter.find x]
    by_cases hx : x = call.context
    · have hin : x ∈ after.insertionOrder := by
        rw [hafter.order, mem_enqueue_iff h.distinct]
        exact .inl hx
      simp [hx, hx ▸ hin]
    · by_cases hin : x ∈ after.insertionOrder
      · have hold : x ∈ m.insertionOrder := by
          have henqueue := hin
          rw [hafter.order, mem_enqueue_iff h.distinct] at henqueue
          exact (henqueue.resolve_left hx).1
        simp only [hx, hin, if_true, if_false]
        exact iff_of_true trivial (h.mem_iff.1 hold)
      · simp [hx, hin]
  refine ⟨hafter.capacity ▸ h.positive, ?_, hstored, hdistinct⟩
  rw [hafter.capacity, ← OrderedMap.length_keys, ← hstored.length_eq]
  exact hlength

/-- What a call does for the records: its own context gets one label, and of the others only the
oldest one is removed, by a new context that comes to a full memory. -/
structure Labels (call : Attempt) (m after : OutcomeMemory) : Prop where
  own : ∃ value, after.find call.context = some value ∧
    Evidence.Adds call ((m.find call.context).getD {}) value
  others : ∀ context ≠ call.context, after.find context =
    if call.context ∉ m.records.keys ∧ m.capacity ≤ m.records.size ∧
        m.insertionOrder.head? = some context then none
    else m.find context

/-- An accepted call adds its label. -/
theorem Linked.labels (h : m.Linked) (hafter : Recorded call m after) : Labels call m after where
  own := ⟨_, (hafter.find call.context).trans (if_pos rfl), Evidence.adds_count call _⟩
  others := by
    intro context hne
    have hin : context ∈ after.insertionOrder ↔ context ∈ m.insertionOrder ∧
        ¬ (call.context ∉ m.records.keys ∧ m.capacity ≤ m.records.size ∧
          m.insertionOrder.head? = some context) := by
      rw [hafter.order, mem_enqueue_iff h.distinct, h.stored.mem_iff, h.length_eq]
      simp only [hne, false_or, h.stored.mem_iff]
    rw [hafter.find context, if_neg hne]
    by_cases hold : context ∈ m.insertionOrder
    · by_cases hleaves : call.context ∉ m.records.keys ∧ m.capacity ≤ m.records.size ∧
          m.insertionOrder.head? = some context
      · rw [if_pos hleaves, if_neg fun hmem => (hin.1 hmem).2 hleaves]
      · rw [if_neg hleaves, if_pos (hin.2 ⟨hold, hleaves⟩)]
    · rw [h.find_eq_none hold, ite_self, ite_self]

end OutcomeMemory

/-! ## Runs -/

namespace Episode

variable {capacity : Nat} {e : Episode} {call : Attempt} {after : OutcomeMemory}

/-- The memory of an episode is linked. -/
theorem Consistent.linked (h : Consistent capacity e) (hpos : 0 < capacity) : e.memory.Linked where
  positive := h.effective ▸ hpos
  bounded := h.effective ▸ h.bounded
  stored := h.stored
  distinct := h.distinct

/-- The window with one more id has the newest ids of the longer log: the product with the capacity
does not wrap around. -/
theorem Consistent.seen_remember (h : Consistent capacity e) (hpos : 0 < capacity)
    (hcapacity : 4 * capacity < 2 ^ 64) :
    (e.memory.remember call.attempt).seen =
      (attempts e.accepted ++ [call.attempt]).rtake (4 * capacity) := by
  have hlimit : e.memory.capacity * 4 % sizeModulus = 4 * capacity := by
    rw [h.effective, Nat.mul_comm]
    exact Nat.mod_eq_of_lt hcapacity
  have hlimitPos : 0 < 4 * capacity := by omega
  rw [← trim_rtake_concat hlimitPos, ← h.window, ← hlimit]
  rfl

/-- The calls for the contexts of the memory when a call was accepted. -/
theorem Consistent.evidence_recorded (h : Consistent capacity e)
    (hafter : OutcomeMemory.Recorded call e.memory after) {context : Bytes} {value : Evidence}
    (hvalue : after.find context = some value) :
    value.Counts (callsFor context
      (e.accepted ++ [⟨call, !e.memory.records.contains call.context⟩])) := by
  rw [hafter.find context] at hvalue
  split at hvalue
  · next hown =>
    subst hown
    obtain rfl := Option.some.inj hvalue
    cases hold : e.memory.find call.context with
    | none =>
      have hnew : e.memory.records.contains call.context = false :=
        Option.isSome_eq_false_iff.2 (Option.isNone_iff_eq_none.2 hold)
      rw [hnew, Bool.not_false, callsFor_concat_true]
      exact Evidence.counts_nil.concat (Evidence.adds_count call _)
    | some old =>
      have hthere : e.memory.records.contains call.context = true :=
        Option.isSome_iff_exists.2 ⟨old, hold⟩
      rw [hthere, Bool.not_true, callsFor_concat_false]
      exact (h.evidence _ old hold).concat (Evidence.adds_count call old)
  · next hother =>
    rw [callsFor_concat_of_ne (Ne.symm hother)]
    split at hvalue
    · exact h.evidence context value hvalue
    · cases hvalue

/-- An accepted call keeps an episode consistent. -/
theorem Consistent.recorded (h : Consistent capacity e) (hpos : 0 < capacity)
    (hcapacity : 4 * capacity < 2 ^ 64) (hnew : call.attempt ∉ e.memory.seen)
    (hafter : OutcomeMemory.Recorded call e.memory after) :
    Consistent capacity
      ⟨after, e.accepted ++ [⟨call, !e.memory.records.contains call.context⟩]⟩ := by
  have hlinked := h.linked hpos
  have hlinked' := hlinked.recorded hafter
  have heffective : after.capacity = capacity := hafter.capacity.trans h.effective
  have hseen := hafter.seen.trans (h.seen_remember hpos hcapacity)
  refine ⟨heffective, heffective ▸ hlinked'.bounded, hlinked'.stored, hlinked'.distinct, ?_,
    ?_, ?_, ?_, fun context value => h.evidence_recorded hafter⟩
  · dsimp only
    rw [hafter.order]
    cases hctx : e.memory.records.contains call.context with
    | true =>
      have hin := hlinked.stored.mem_iff.2 (OrderedMap.contains_iff.1 hctx)
      rw [Bool.not_true, insertions_concat_false, enqueue, if_pos hin]
      exact h.oldest
    | false =>
      rw [Bool.not_false, insertions_concat_true]
      refine enqueue_suffix h.oldest fun hin => Bool.eq_false_iff.1 hctx ?_
      exact OrderedMap.contains_iff.2 (hlinked.stored.mem_iff.1 hin)
  · rw [attempts_concat]
    exact hseen
  · dsimp only
    rw [hafter.seen, OutcomeMemory.remember]
    have happend : (e.memory.seen ++ [call.attempt]).Nodup := by
      simpa [List.nodup_append] using ⟨h.seenDistinct, fun a ha hcall => hnew (hcall ▸ ha)⟩
    dsimp only
    split
    · exact (List.tail_sublist _).nodup happend
    · exact happend
  · dsimp only
    rw [hseen]
    exact length_rtake_le _ _

/-- Every call of the owner is possible and keeps an episode consistent. -/
theorem Consistent.exists_step (hpos : 0 < capacity) (hcapacity : 4 * capacity < 2 ^ 64)
    (e : Episode) (op : MemoryOp) (h : Consistent capacity e) :
    ∃ e', e.step op = some e' ∧ Consistent capacity e' := by
  cases op with
  | record call =>
    by_cases hmem : call.attempt ∈ e.memory.seen
    · refine ⟨e, ?_, h⟩
      rw [step, OutcomeMemory.record_of_mem hmem]
      rfl
    · obtain ⟨after, hrecord, hafter⟩ := (h.linked hpos).exists_record hmem
      refine ⟨_, ?_, h.recorded hpos hcapacity hmem hafter⟩
      rw [step, hrecord]
      rfl
  | clear => exact ⟨_, rfl, h.clear⟩

/-- A run accepts its calls at most. -/
theorem length_accepted_le {ops : List MemoryOp} (h : Run step (start capacity) ops e) :
    e.accepted.length ≤ ops.length := by
  induction ops using List.reverseRecOn generalizing e with
  | nil =>
    obtain rfl := Run.nil_iff.1 h
    exact Nat.le_refl 0
  | append_singleton ops op ih =>
    obtain ⟨m, hrun, hstep⟩ := Run.snoc_iff.1 h
    have hm := ih hrun
    rw [List.length_append, List.length_singleton]
    cases op with
    | record call =>
      obtain ⟨answer, -, rfl⟩ := Option.map_eq_some_iff.1 hstep
      dsimp only
      split
      · rw [List.length_append, List.length_singleton]
        omega
      · omega
    | clear =>
      obtain rfl := Option.some.inj hstep
      exact Nat.zero_le _

/-- What is counted for a context is at most the number of calls of the run: a counter wraps around
in no run of fewer than `2 ^ 64` calls. -/
theorem Consistent.total_le {ops : List MemoryOp} (h : Consistent capacity e) {size : Nat}
    (hrun : Run step (start size) ops e) {context : Bytes} {value : Evidence}
    (hvalue : e.memory.find context = some value) :
    value.successes + value.failures + value.unknown ≤ ops.length :=
  calc value.successes + value.failures + value.unknown
      = (callsFor context e.accepted).length := (h.evidence context value hvalue).total
    _ ≤ e.accepted.length := length_callsFor_le context e.accepted
    _ ≤ ops.length := length_accepted_le hrun

end Episode

/-- **The memory of outcomes over whole episodes.** Whatever the owner records and clears, the
memory stays within its bounds and holds what the accepted calls say; the next call is refused when
its attempt id is one of the newest accepted ones, and then nothing changes, and otherwise it adds
its one label. -/
theorem outcome_memory_episodes {capacity : Nat} (hcapacity : 4 * max 1 capacity < 2 ^ 64)
    (ops : List MemoryOp) :
    ∃ e, Run Episode.step (.start capacity) ops e ∧ e.Consistent (max 1 capacity) ∧
      ∀ call, ∃ accepted after, e.memory.record call = some (accepted, after) ∧
        (accepted = false ↔
          call.attempt ∈ (attempts e.accepted).rtake (4 * max 1 capacity)) ∧
        (accepted = false → after = e.memory) ∧
        (accepted = true → OutcomeMemory.Labels call e.memory after) := by
  have hpos : 0 < max 1 capacity := by omega
  obtain ⟨e, hrun, h⟩ := Run.exists_of_invariant
    (Episode.Consistent.exists_step hpos hcapacity) ops (Episode.consistent_start capacity)
  have hlinked := h.linked hpos
  refine ⟨e, hrun, h, fun call => ?_⟩
  rw [← h.window]
  by_cases hmem : call.attempt ∈ e.memory.seen
  · refine ⟨false, e.memory, OutcomeMemory.record_of_mem hmem, ?_, ?_, ?_⟩
    · exact iff_of_true rfl hmem
    · exact fun _ => rfl
    · exact nofun
  · obtain ⟨after, hrecord, hafter⟩ := hlinked.exists_record hmem
    refine ⟨true, after, hrecord, ?_, ?_, ?_⟩
    · exact iff_of_false nofun hmem
    · exact nofun
    · exact fun _ => hlinked.labels hafter

/-- The test of the bound. -/
theorem outcome_memory_episodes_two :
    ∃ e, Run Episode.step (.start 2)
        [.record ⟨lit "a", lit "1", .failed, []⟩, .record ⟨lit "b", lit "2", .succeeded, []⟩,
          .record ⟨lit "c", lit "3", .unknown, []⟩] e ∧ e.Consistent 2 ∧
      ∀ call, ∃ accepted after, e.memory.record call = some (accepted, after) ∧
        (accepted = false ↔ call.attempt ∈ (attempts e.accepted).rtake 8) ∧
        (accepted = false → after = e.memory) ∧
        (accepted = true → OutcomeMemory.Labels call e.memory after) := by
  have hcapacity : 4 * max 1 2 < 2 ^ 64 := by omega
  exact outcome_memory_episodes hcapacity _

end Jevt.Experience
