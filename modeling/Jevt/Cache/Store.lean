import Mathlib.Algebra.Group.Int.Defs
import Mathlib.Data.List.AList
import Jevt.Text

/-!
# The revisioned cache

`revisioned_cache` of `include/jevt/cache.hpp`: a bounded least-recently-used cache whose entries
belong to one set of revisions. Every public function holds the mutex while it touches the state,
so calls of any number of threads take effect one after the other, and a function here takes the
whole state to the whole state. `Value` stands for the shared pointers, `none` for the null one.

The unordered map is an association list without repeated keys, and an iterator into the recency
list is the identity of a list node: nodes are numbered in the order they are allocated. Ticks of
the steady clock are integers, and what is computed with them is computed in 64 bits.
-/

namespace Jevt

/-- `cache_revisions`. -/
structure CacheRevisions where
  model : Bytes := []
  tokenizer : Bytes := []
  prompt : Bytes := []
  schema : Bytes := []
  knowledge : Bytes := []
  weights : Bytes := []
  environment : Bytes := []
  deriving DecidableEq, Repr

/-- `cache_limits`, with its default member initializers. -/
structure CacheLimits where
  entries : Nat := 1024
  bytes : Nat := 8 * 1024 * 1024
  deriving DecidableEq, Repr

/-- `cache_counters`. -/
structure CacheCounters where
  hits : Nat := 0
  misses : Nat := 0
  writes : Nat := 0
  evictions : Nat := 0
  staleReads : Nat := 0
  staleWrites : Nat := 0
  revisionInvalidations : Nat := 0
  entries : Nat := 0
  retainedBytes : Nat := 0
  deriving DecidableEq, Repr

/-- `revisioned_cache::entry`. The position is the identity of a node of the recency list. -/
structure CacheEntry (Value : Type) where
  value : Value
  bytes : Nat
  expires : Int
  position : Nat
  deriving DecidableEq, Repr

/-- The members of a `revisioned_cache`. The recency list has the most recent key first; the
number of the next list node is not a member but the state of the allocator. -/
structure RevisionedCache (Value : Type) where
  limits : CacheLimits
  revisions : CacheRevisions := {}
  initialized : Bool := false
  generation : Nat := 0
  entries : AList (fun _ : Bytes => CacheEntry Value) := ∅
  lru : List (Nat × Bytes) := []
  counters : CacheCounters := {}
  nextNode : Nat := 0

/-- `std::numeric_limits<ticket>::max()`. -/
def ticketMax : Nat := 2 ^ 64 - 1

/-- `clock::duration::max()` and `clock::time_point::max()`, in ticks of the clock. -/
def clockMax : Int := 2 ^ 63 - 1

/-- A sum or a difference of ticks in 64 bits. The language leaves open what becomes of one that
overflows; on the machine it wraps around. -/
def wrapTick (n : Int) : Int := n.bmod (2 ^ 64)

/-- The expiry `put` gives an entry. -/
def expiry (ttl now : Int) : Int :=
  if ttl = clockMax ∨ wrapTick (clockMax - now) < ttl then clockMax else wrapTick (now + ttl)

namespace RevisionedCache

variable {Value : Type}

/-- The constructor. -/
def create (Value : Type) (limits : CacheLimits) : Except StdException (RevisionedCache Value) :=
  if limits.entries = 0 ∨ limits.bytes = 0 then
    .error (.invalidArgument (lit "cache limits must be positive"))
  else .ok { limits }

/-- `clear_locked`. -/
def clearLocked (c : RevisionedCache Value) : RevisionedCache Value :=
  { c with entries := ∅, lru := [], counters := { c.counters with retainedBytes := 0 } }

/-- `advance_generation_locked`. -/
def advanceGenerationLocked (c : RevisionedCache Value) : RevisionedCache Value :=
  { c with generation := if c.generation = ticketMax then 1 else c.generation + 1 }

/-- `erase_locked`, on the key and the entry an iterator points to. -/
def eraseLocked (c : RevisionedCache Value) (key : Bytes) (found : CacheEntry Value) :
    RevisionedCache Value :=
  { c with
    counters := { c.counters with retainedBytes := sizeSub c.counters.retainedBytes found.bytes }
    lru := c.lru.filter fun node => node.1 ≠ found.position
    entries := c.entries.erase key }

/-- `advance`. -/
def advance (c : RevisionedCache Value) (revisions : CacheRevisions) :
    RevisionedCache Value × Nat :=
  if c.initialized = false ∨ revisions ≠ c.revisions then
    let counters := if c.initialized then
        { c.counters with revisionInvalidations := c.counters.revisionInvalidations + 1 }
      else c.counters
    let cleared := { c with counters }.clearLocked
    let renewed := { cleared with revisions, initialized := true }.advanceGenerationLocked
    (renewed, renewed.generation)
  else (c, c.generation)

/-- `splice` of one node to the front of the recency list. -/
def splice (lru : List (Nat × Bytes)) (position : Nat) : List (Nat × Bytes) :=
  lru.filter (fun node => node.1 = position) ++ lru.filter fun node => node.1 ≠ position

/-- `get`. -/
def get (c : RevisionedCache Value) (key : Bytes) (issued : Nat) (now : Int) :
    RevisionedCache Value × Option Value :=
  if c.initialized = false ∨ issued ≠ c.generation then
    ({ c with counters := { c.counters with staleReads := c.counters.staleReads + 1 } }, none)
  else
    let missed := { c with counters := { c.counters with misses := c.counters.misses + 1 } }
    match c.entries.lookup key with
    | none => (missed, none)
    | some found =>
      if found.expires ≤ now then (missed.eraseLocked key found, none)
      else
        ({ c with
            lru := splice c.lru found.position
            counters := { c.counters with hits := c.counters.hits + 1 } }, some found.value)

/-- The first step of a `put` that is not refused: its key gives up its previous entry. -/
def replaced (c : RevisionedCache Value) (key : Bytes) : RevisionedCache Value :=
  match c.entries.lookup key with
  | some found => c.eraseLocked key found
  | none => c

/-- The loop of `put` that evicts from the back of the recency list until `retained` more bytes
and one more entry fit. The first argument bounds the number of turns. -/
def makeRoom (retained : Nat) : Nat → RevisionedCache Value → RevisionedCache Value
  | 0, c => c
  | turns + 1, c =>
    match c.lru.getLast? with
    | none => c
    | some (_, back) =>
      if c.limits.entries ≤ c.entries.entries.length ∨
          sizeSub c.limits.bytes c.counters.retainedBytes < retained then
        match c.entries.lookup back with
        | none => makeRoom retained turns { c with lru := c.lru.dropLast }
        | some found =>
          let erased := c.eraseLocked back found
          makeRoom retained turns
            { erased with
              counters := { erased.counters with evictions := erased.counters.evictions + 1 } }
      else c

/-- The end of `put`: a new list node at the front, and the entry that points to it. `emplace`
leaves an entry alone that is already there. -/
def emplace (c : RevisionedCache Value) (key : Bytes) (value : Value) (retained : Nat)
    (expires : Int) : RevisionedCache Value :=
  { c with
    lru := (c.nextNode, key) :: c.lru
    nextNode := c.nextNode + 1
    entries :=
      if key ∈ c.entries then c.entries
      else c.entries.insert key ⟨value, retained, expires, c.nextNode⟩
    counters := { c.counters with
      retainedBytes := c.counters.retainedBytes + retained
      writes := c.counters.writes + 1 } }

/-- `put`. -/
def put (c : RevisionedCache Value) (key : Bytes) (issued : Nat) (value : Option Value)
    (valueBytes : Nat) (ttl now : Int) : RevisionedCache Value × Bool :=
  match value with
  | none => (c, false)
  | some value =>
    if key = [] ∨ ttl ≤ 0 then (c, false)
    else if c.limits.bytes < valueBytes ∨ sizeSub c.limits.bytes valueBytes < key.length then
      (c, false)
    else if c.initialized = false ∨ issued ≠ c.generation then
      ({ c with counters := { c.counters with staleWrites := c.counters.staleWrites + 1 } }, false)
    else
      let retained := key.length + valueBytes
      let roomy := (c.replaced key).makeRoom retained (c.replaced key).lru.length
      (roomy.emplace key value retained (expiry ttl now), true)

/-- `invalidate`. -/
def invalidate (c : RevisionedCache Value) : RevisionedCache Value :=
  let renewed := { c.clearLocked with initialized := false }.advanceGenerationLocked
  { renewed with
    counters := { renewed.counters with
      revisionInvalidations := renewed.counters.revisionInvalidations + 1 } }

/-- `stats`. -/
def stats (c : RevisionedCache Value) : CacheCounters :=
  { c.counters with entries := c.entries.entries.length }

end RevisionedCache

/-- A call of a client. -/
inductive CacheCall (Value : Type) where
  | advance (revisions : CacheRevisions)
  | get (key : Bytes) (issued : Nat) (now : Int)
  | put (key : Bytes) (issued : Nat) (value : Option Value) (valueBytes : Nat) (ttl now : Int)
  | invalidate
  deriving DecidableEq, Repr

/-- The state a call leaves behind. -/
def RevisionedCache.apply {Value : Type} (c : RevisionedCache Value) :
    CacheCall Value → RevisionedCache Value
  | .advance revisions => (c.advance revisions).1
  | .get key issued now => (c.get key issued now).1
  | .put key issued value valueBytes ttl now => (c.put key issued value valueBytes ttl now).1
  | .invalidate => c.invalidate

/-- The state after the calls of all clients, in the order in which they took the lock. -/
def RevisionedCache.execute {Value : Type} (c : RevisionedCache Value)
    (calls : List (CacheCall Value)) : RevisionedCache Value :=
  calls.foldl RevisionedCache.apply c

end Jevt
