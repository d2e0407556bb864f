import Mathlib.Algebra.GroupWithZero.Nat
import Jevt.Cache.Store
import Jevt.Library.Recency

/-!
# What the cache is for

A recency list of values, bounded in its number and its bytes, under the current revisions
(`RecencyCache`). It has no positions and no counters: a read moves what it returns to the front,
and a write puts its value in front of what is left when the least recent items have made room.
-/

namespace Jevt

open Library

variable {Value : Type}

/-- What is kept under a key. -/
structure CachedItem (Value : Type) where
  value : Value
  valueBytes : Nat
  expires : Int
  deriving DecidableEq, Repr

/-- The bytes of items with their keys. -/
def itemBytes (items : List (Bytes × CachedItem Value)) : Nat :=
  (items.map fun item => item.1.length + item.2.valueBytes).sum

/-- Whether an item of `retained` bytes has room next to others. -/
def CacheLimits.admits (limits : CacheLimits) (retained : Nat)
    (items : List (Bytes × CachedItem Value)) : Bool :=
  decide (items.length < limits.entries) && decide (itemBytes items + retained ≤ limits.bytes)

/-- A bounded recency list under revisions. -/
structure RecencyCache (Value : Type) where
  limits : CacheLimits
  revisions : CacheRevisions := {}
  initialized : Bool := false
  generation : Nat := 0
  list : RecencyList Bytes (CachedItem Value) := {}

namespace RecencyCache

/-- Whether a ticket is the current one. -/
def current (a : RecencyCache Value) (issued : Nat) : Bool :=
  a.initialized && decide (issued = a.generation)

/-- Other revisions, or the first: nothing is kept. -/
def advance (a : RecencyCache Value) (revisions : CacheRevisions) : RecencyCache Value :=
  if a.initialized = false ∨ revisions ≠ a.revisions then
    { a with
      revisions
      initialized := true
      generation := if a.generation = ticketMax then 1 else a.generation + 1
      list := {} }
  else a

/-- A read moves what it returns to the front and drops what has expired. -/
def get (a : RecencyCache Value) (key : Bytes) (issued : Nat) (now : Int) :
    RecencyCache Value × Option Value :=
  if a.current issued then
    match a.list.find? key with
    | none => (a, none)
    | some item =>
      if item.expires ≤ now then ({ a with list := a.list.erase key }, none)
      else ({ a with list := a.list.touch key }, some item.value)
  else (a, none)

/-- Whether a value can be stored at all. -/
def storable (limits : CacheLimits) (key : Bytes) (valueBytes : Nat) (ttl : Int) : Bool :=
  key ≠ [] && decide (0 < ttl) && decide (key.length + valueBytes ≤ limits.bytes)

/-- A write puts its value in front of what is left of the others when the least recent ones have
made room. -/
def put (a : RecencyCache Value) (key : Bytes) (issued : Nat) (value : Option Value)
    (valueBytes : Nat) (ttl now : Int) : RecencyCache Value × Bool :=
  match value with
  | none => (a, false)
  | some value =>
    if storable a.limits key valueBytes ttl && a.current issued then
      ({ a with
          list := ((a.list.erase key).trim (a.limits.admits (key.length + valueBytes))).push key
            ⟨value, valueBytes, expiry ttl now⟩ }, true)
    else (a, false)

/-- Nothing is kept, and every ticket is refused until the next `advance`. -/
def invalidate (a : RecencyCache Value) : RecencyCache Value :=
  { a with
    initialized := false
    generation := if a.generation = ticketMax then 1 else a.generation + 1
    list := {} }

/-- The state a call leaves behind. -/
def apply (a : RecencyCache Value) : CacheCall Value → RecencyCache Value
  | .advance revisions => a.advance revisions
  | .get key issued now => (a.get key issued now).1
  | .put key issued value valueBytes ttl now => (a.put key issued value valueBytes ttl now).1
  | .invalidate => a.invalidate

/-- The state after calls on a new cache. -/
def execute (limits : CacheLimits) (calls : List (CacheCall Value)) : RecencyCache Value :=
  calls.foldl apply { limits }

/-- A call behind some calls. -/
theorem execute_concat (limits : CacheLimits) (calls : List (CacheCall Value))
    (call : CacheCall Value) :
    execute limits (calls ++ [call]) = (execute limits calls).apply call := by
  rw [execute, List.foldl_append]
  rfl

/-- The limits never change. -/
theorem limits_execute (limits : CacheLimits) (calls : List (CacheCall Value)) :
    (execute limits calls).limits = limits := by
  induction calls using List.reverseRecOn with
  | nil => rfl
  | append_singleton calls call ih =>
    rw [execute_concat]
    refine Eq.trans ?_ ih
    cases call with
    | advance revisions =>
      rw [apply, advance]
      split <;> rfl
    | get key issued now =>
      rw [apply]
      fun_cases get <;> rfl
    | put key issued value valueBytes ttl now =>
      rw [apply]
      fun_cases put <;> rfl
    | invalidate => rfl

end RecencyCache

end Jevt
