import Jevt.Library.OrderedMap
import Jevt.Text

/-!
# The memory of outcomes

`outcome_memory` of `include/jevt/experience.hpp`: how many attempts succeeded, failed or ended
without an observation, for each of a bounded number of contexts, and a window of attempt ids that
keeps an attempt from being counted twice.

A `std::map` is an ordered map, a `std::deque` is a list with its front first, and a pointer into a
map is the value it points to. The product `capacity_ * 4` wraps around. The counters grow by one a
call and are natural numbers. Taking the front of an empty queue is undefined: where `record` would
do so it has no result.
-/

namespace Jevt.Experience

open Library

/-- `outcome`. -/
inductive Outcome where
  | succeeded
  | failed
  | unknown
  deriving DecidableEq, Repr

-- An assignment to a map needs these of its keys.
local instance : LawfulBEq Bytes := inferInstance
local instance : Std.Trichotomous (α := Bytes) (· < ·) := inferInstance
local instance : IsTrans Bytes (· < ·) := inferInstance

/-- `evidence`. -/
structure Evidence where
  successes : Nat := 0
  failures : Nat := 0
  unknown : Nat := 0
  failureClasses : OrderedMap Bytes Nat := .empty
  deriving DecidableEq

/-- `outcome_memory`. -/
structure OutcomeMemory where
  capacity : Nat
  records : OrderedMap Bytes Evidence := .empty
  insertionOrder : List Bytes := []
  seen : List Bytes := []
  deriving DecidableEq

/-- The arguments of `record`. -/
structure Attempt where
  context : Bytes
  attempt : Bytes
  result : Outcome
  failureClass : Bytes := []
  deriving DecidableEq

/-- The key a failure is counted under. -/
def Attempt.className (call : Attempt) : Bytes :=
  if call.failureClass.isEmpty then lit "unspecified" else call.failureClass

/-- The counters that `record` adds one to. -/
def Evidence.count (call : Attempt) (value : Evidence) : Evidence :=
  match call.result with
  | .succeeded => { value with successes := value.successes + 1 }
  | .unknown => { value with unknown := value.unknown + 1 }
  | .failed =>
    { value with
      failures := value.failures + 1
      failureClasses := value.failureClasses.assign call.className
        ((value.failureClasses.find call.className).getD 0 + 1) }

namespace OutcomeMemory

/-- The constructor. -/
def new (capacity : Nat) : OutcomeMemory :=
  { capacity := max 1 capacity }

/-- `find`. -/
def find (context : Bytes) (m : OutcomeMemory) : Option Evidence :=
  m.records.find context

/-- Puts an attempt id into the window. -/
def remember (attempt : Bytes) (m : OutcomeMemory) : OutcomeMemory :=
  let seen := m.seen ++ [attempt]
  { m with seen := if m.capacity * 4 % sizeModulus < seen.length then seen.tail else seen }

/-- Removes the oldest context. -/
def removeOldest (m : OutcomeMemory) : Option OutcomeMemory :=
  match m.insertionOrder with
  | [] => none
  | oldest :: rest => some { m with records := m.records.erase oldest, insertionOrder := rest }

/-- Makes room for a context that has no record, and puts it at the end of the order. -/
def enter (context : Bytes) (m : OutcomeMemory) : Option OutcomeMemory :=
  if m.records.contains context then some m
  else
    (if m.capacity ≤ m.records.size then m.removeOldest else some m).map fun m =>
      { m with insertionOrder := m.insertionOrder ++ [context] }

/-- Counts an attempt for its context. -/
def update (call : Attempt) (m : OutcomeMemory) : OutcomeMemory :=
  { m with
    records := m.records.assign call.context (((m.find call.context).getD {}).count call) }

/-- `record`. -/
def record (call : Attempt) (m : OutcomeMemory) : Option (Bool × OutcomeMemory) :=
  if m.seen.contains call.attempt then some (false, m)
  else ((m.remember call.attempt).enter call.context).map fun m => (true, m.update call)

/-- `clear`. -/
def clear (m : OutcomeMemory) : OutcomeMemory :=
  { m with records := .empty, insertionOrder := [], seen := [] }

end OutcomeMemory

/-! ## One label -/

/-- One label of a call is added to evidence. -/
structure Evidence.Adds (call : Attempt) (before after : Evidence) : Prop where
  successes : after.successes = before.successes + if call.result = .succeeded then 1 else 0
  failures : after.failures = before.failures + if call.result = .failed then 1 else 0
  unknown : after.unknown = before.unknown + if call.result = .unknown then 1 else 0
  classes : ∀ name, (after.failureClasses.find name).getD 0 =
    (before.failureClasses.find name).getD 0 +
      if call.result = .failed ∧ name = call.className then 1 else 0
  sum : (after.failureClasses.entries.map Prod.snd).sum =
    (before.failureClasses.entries.map Prod.snd).sum + if call.result = .failed then 1 else 0

/-- Counting a call adds one label. -/
theorem Evidence.adds_count (call : Attempt) (value : Evidence) :
    Adds call value (value.count call) := by
  unfold Evidence.count
  cases hresult : call.result with
  | succeeded => constructor <;> simp [hresult]
  | unknown => constructor <;> simp [hresult]
  | failed =>
    refine ⟨by simp [hresult], by simp [hresult], by simp [hresult], ?_, ?_⟩
    · intro name
      simp only [OrderedMap.find_assign, hresult, true_and]
      by_cases hname : name = call.className <;> simp [hname]
    · have hsum := OrderedMap.sum_assign call.className
        ((value.failureClasses.find call.className).getD 0 + 1) value.failureClasses
      simp only [hresult, if_true]
      omega

/-- What a list of calls leaves in the evidence of a context. -/
structure Evidence.Counts (calls : List Attempt) (value : Evidence) : Prop where
  total : value.successes + value.failures + value.unknown = calls.length
  successes : value.successes = calls.countP fun call => call.result = .succeeded
  failures : value.failures = calls.countP fun call => call.result = .failed
  unknown : value.unknown = calls.countP fun call => call.result = .unknown
  classes : ∀ name, (value.failureClasses.find name).getD 0 =
    calls.countP fun call => call.result = .failed ∧ name = call.className
  sum : value.failures = (value.failureClasses.entries.map Prod.snd).sum

/-- No calls leave no evidence. -/
theorem Evidence.counts_nil : Counts [] {} := by
  constructor <;> simp

/-- One more call adds its label. -/
theorem Evidence.Counts.concat {calls : List Attempt} {call : Attempt} {before after : Evidence}
    (h : Counts calls before) (hadds : Adds call before after) :
    Counts (calls ++ [call]) after where
  total := by
    have htotal := h.total
    rw [List.length_append, List.length_singleton, hadds.successes, hadds.failures, hadds.unknown]
    cases call.result <;> simp <;> omega
  successes := by rw [hadds.successes, h.successes]; simp [List.countP_singleton]
  failures := by rw [hadds.failures, h.failures]; simp [List.countP_singleton]
  unknown := by rw [hadds.unknown, h.unknown]; simp [List.countP_singleton]
  classes := by
    intro name
    rw [hadds.classes, h.classes]
    simp [List.countP_singleton]
  sum := by rw [hadds.failures, hadds.sum, h.sum]

end Jevt.Experience
