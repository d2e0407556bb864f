import Jevt.Laya.Native
import Jevt.Library.Fifo
import Jevt.Library.Run

/-!
# The cache of heads

Both adapters keep heads under a key made of the kind, the question and the options
(`HeadCall.key`). The callers of the ONNX adapter share its cache: a call looks its key up in one
critical section and puts the head it has made into the cache in another, and other calls come in
between (`headStep`). The native adapter has one call at a time (`nativeStep`).

Neither cache is visible in what the calls return, and both stay within their limits
(`head_cache_transparent`). What `capacity()` reports is an argument of a step, and so is whether
the entry could be stored: where memory runs out the entries that made room are gone, and the call
ends with an exception.
-/

namespace Jevt

open Library

/-- The limits of a cache of heads. -/
structure HeadLimits where
  entries : Nat := 256
  bytes : Nat := 4 * 1024 * 1024

/-- The arguments of `prepare_head`. -/
structure HeadCall where
  kind : QuestionKind
  question : Bytes
  options : List Bytes
  deriving DecidableEq

/-- The capacities of the strings and vectors of an entry. -/
structure Capacities where
  key : Nat
  mapKey : Nat
  ids : Nat
  markers : Nat

/-- The size that is recorded for an entry, with ids of some width. -/
def Capacities.recorded (width : Nat) (capacities : Capacities) : Nat :=
  (capacities.key + capacities.mapKey + (capacities.ids + capacities.markers) * width) % sizeModulus

/-- The key of a call: its kind, and every text after its length. -/
def HeadCall.key (tag : QuestionKind → UInt8) (call : HeadCall) : Bytes :=
  tag call.kind :: framed (call.question :: call.options)

/-- `cacheable`. -/
def HeadLimits.cacheable (limits : HeadLimits) (key : Bytes) : Bool :=
  decide (limits.entries ≠ 0) && decide (key.length ≤ limits.bytes)

/-- The head that a call makes where it finds none. -/
def LayaBundle.headOf (sub : Nat → Nat → Nat) (bundle : LayaBundle) (call : HeadCall) :
    PreparedHead :=
  bundle.computeHead sub call.kind call.question call.options

/-- The head that a call of the native adapter makes where it finds none. -/
def LayaBundle.nativeHeadOf (bundle : LayaBundle) (call : HeadCall) :
    Except StdException NativeHead :=
  bundle.nativeHead call.kind call.question call.options

/-! ## The ONNX adapter -/

/-- A question kind as a `char`. -/
def QuestionKind.byte : QuestionKind → UInt8
  | .choice => 0
  | .noul => 1
  | .score => 2

/-- The cache of the ONNX adapter, with its counters. -/
structure HeadCache where
  store : Fifo Bytes PreparedHead := {}
  hits : Nat := 0
  misses : Nat := 0

/-- The first critical section of `prepare_head`: the head of a call, if it is cached. -/
def HeadCache.lookup (limits : HeadLimits) (cache : HeadCache) (call : HeadCall) :
    Option PreparedHead × HeadCache :=
  let key := call.key QuestionKind.byte
  match if limits.cacheable key then cache.store.table.lookup key else none with
  | some found => (some found, { cache with hits := cache.hits + 1 })
  | none => (none, { cache with misses := cache.misses + 1 })

/-- Byte strings are compared byte by byte. -/
local instance : LawfulBEq Bytes := inferInstance

/-- Whether the second critical section of `prepare_head` stores a head. -/
def HeadCache.stores (limits : HeadLimits) (cache : HeadCache) (call : HeadCall)
    (capacities : Capacities) : Bool :=
  let key := call.key QuestionKind.byte
  limits.cacheable key && decide (capacities.recorded 8 ≤ limits.bytes) &&
    !decide (key ∈ cache.store.table.map Prod.fst)

/-- The second critical section of `prepare_head`, for a call that has missed. -/
def HeadCache.insert (sub : Nat → Nat → Nat) (limits : HeadLimits) (cache : HeadCache)
    (call : HeadCall) (head : PreparedHead) (capacities : Capacities) (placed : Bool) : HeadCache :=
  if cache.stores limits call capacities then
    { cache with
      store := cache.store.insert sub limits.entries limits.bytes (capacities.recorded 8)
        (call.key QuestionKind.byte) head placed }
  else cache

/-- `prepare_head`, for a call that is alone. -/
def prepareHead (bundle : LayaBundle) (limits : HeadLimits) (cache : HeadCache) (call : HeadCall)
    (capacities : Capacities) : PreparedHead × HeadCache :=
  match cache.lookup limits call with
  | (some found, cache) => (found, cache)
  | (none, cache) =>
    let head := bundle.headOf sizeSub call
    (head, cache.insert sizeSub limits call head capacities true)

/-- The cache, the calls that have missed and not yet come back to it, and the calls that have
returned with their heads. -/
structure HeadCallers where
  cache : HeadCache := {}
  computing : List (HeadCall × PreparedHead) := []
  answers : List (HeadCall × PreparedHead) := []

/-- What a caller does next: a new call, or the second critical section of one that has missed. -/
inductive HeadEvent where
  | lookup (call : HeadCall)
  | insert (i : Nat) (capacities : Capacities) (placed : Bool)

/-- A step of a caller. -/
def headStep (sub : Nat → Nat → Nat) (bundle : LayaBundle) (limits : HeadLimits)
    (state : HeadCallers) : HeadEvent → Option HeadCallers
  | .lookup call =>
    match state.cache.lookup limits call with
    | (some found, cache) =>
      some { state with cache := cache, answers := state.answers ++ [(call, found)] }
    | (none, cache) =>
      some { state with
        cache := cache
        computing := state.computing ++ [(call, bundle.headOf sub call)] }
  | .insert i capacities placed =>
    match state.computing[i]? with
    | none => none
    | some (call, head) =>
      some {
        cache := state.cache.insert sub limits call head capacities placed
        computing := state.computing.eraseIdx i
        answers :=
          if state.cache.stores limits call capacities && !placed then state.answers
          else state.answers ++ [(call, head)] }

/-! ## The native adapter -/

/-- The type of a question as a `char`. -/
def QuestionKind.typeByte (kind : QuestionKind) : UInt8 :=
  UInt8.ofNat kind.qtype

/-- The cache of the native adapter, and the calls with what they have returned. -/
structure NativeCache where
  store : Fifo Bytes NativeHead := {}
  answers : List (HeadCall × Except StdException NativeHead) := []

/-- A call of the native `prepare_head`. -/
structure NativeEvent where
  call : HeadCall
  capacities : Capacities
  placed : Bool

/-- The end of the native `prepare_head`, for a call that has made its head. -/
def storeStep (sub : Nat → Nat → Nat) (limits : HeadLimits) (state : NativeCache)
    (event : NativeEvent) (head : NativeHead) : NativeCache :=
  let size := event.capacities.recorded 4
  let answers := state.answers ++ [(event.call, .ok head)]
  if size ≤ limits.bytes then
    let store := state.store.insert sub limits.entries limits.bytes size
      (event.call.key QuestionKind.typeByte) head event.placed
    if event.placed then ⟨store, answers⟩ else { state with store := store }
  else { state with answers := answers }

/-- The native `prepare_head`. -/
def nativeStep (sub : Nat → Nat → Nat) (bundle : LayaBundle) (limits : HeadLimits)
    (state : NativeCache) (event : NativeEvent) : Option NativeCache :=
  let key := event.call.key QuestionKind.typeByte
  let made := bundle.nativeHeadOf event.call
  if limits.cacheable key then
    match state.store.table.lookup key with
    | some found => some { state with answers := state.answers ++ [(event.call, .ok found)] }
    | none =>
      match made with
      | .error failure =>
        some { state with answers := state.answers ++ [(event.call, .error failure)] }
      | .ok head => some (storeStep sub limits state event head)
  else some { state with answers := state.answers ++ [(event.call, made)] }

/-! ## Keys -/

/-- A key determines its call, whatever the texts are made of. -/
theorem HeadCall.key_injective {tag : QuestionKind → UInt8} (htag : Function.Injective tag) :
    Function.Injective (HeadCall.key tag) := by
  rintro ⟨kind, question, options⟩ ⟨kind', question', options'⟩ h
  obtain ⟨hkind, htexts⟩ := List.cons.inj h
  obtain ⟨hquestion, hoptions⟩ := List.cons.inj (framed_injective htexts)
  rw [HeadCall.mk.injEq]
  exact ⟨htag hkind, hquestion, hoptions⟩

/-- The kinds are different as `char`s. -/
theorem QuestionKind.byte_injective : Function.Injective QuestionKind.byte := by
  intro kind kind' h
  cases kind <;> cases kind' <;> first | rfl | exact absurd h (by decide)

/-- The types are different as `char`s. -/
theorem QuestionKind.typeByte_injective : Function.Injective QuestionKind.typeByte := by
  intro kind kind' h
  cases kind <;> cases kind' <;> first | rfl | exact absurd h (by decide)

/-! ## Stores of heads -/

/-- A call that may be cached has a limit on the entries that is not zero. -/
theorem HeadLimits.entries_ne_zero {limits : HeadLimits} {key : Bytes}
    (h : limits.cacheable key = true) : limits.entries ≠ 0 := by
  rw [HeadLimits.cacheable, Bool.and_eq_true, decide_eq_true_eq] at h
  exact h.1

/-- One more element has the property of all elements. -/
theorem forall_mem_concat {α : Type} {p : α → Prop} {l : List α} {a : α} (h : ∀ x ∈ l, p x)
    (ha : p a) : ∀ x ∈ l ++ [a], p x := by
  rw [List.forall_mem_append]
  exact ⟨h, List.forall_mem_singleton.2 ha⟩

/-- A store within its limits has under the key of a call only what the call would make. -/
structure Remembers {H : Type} (tag : QuestionKind → UInt8) (limits : HeadLimits)
    (made : HeadCall → H → Prop) (store : Fifo Bytes H) : Prop where
  bounded : store.Bounded limits.entries limits.bytes
  meant : ∀ entry ∈ store.table, ∃ call : HeadCall, entry.1 = call.key tag ∧ made call entry.2

section Stores

variable {H : Type} {tag : QuestionKind → UInt8} {limits : HeadLimits} {made : HeadCall → H → Prop}
  {store : Fifo Bytes H} {sub : Nat → Nat → Nat} {call : HeadCall} {head : H}

/-- The empty store remembers nothing. -/
theorem remembers_empty : Remembers tag limits made {} :=
  ⟨Fifo.bounded_empty, fun _ hentry => nomatch hentry⟩

/-- A head that is found is what the call would make. -/
theorem Remembers.found (h : Remembers tag limits made store) (htag : Function.Injective tag)
    (hfound : store.table.lookup (call.key tag) = some head) : made call head := by
  obtain ⟨pre, post, htable, -⟩ := List.lookup_eq_some_iff.1 hfound
  have hentry : (call.key tag, head) ∈ store.table := htable ▸ List.mem_append_right _ (.head _)
  obtain ⟨call', hkey, hmade⟩ := h.meant _ hentry
  obtain rfl := HeadCall.key_injective htag hkey
  exact hmade

/-- A head that is not found can be put into the store. -/
theorem Remembers.insert {size : Nat} {placed : Bool} (h : Remembers tag limits made store)
    (hsub : LayaBundle.Subtracts sub) (hsize : size ≤ limits.bytes) (hentries : limits.entries ≠ 0)
    (hkey : call.key tag ∉ store.table.map Prod.fst) (hmade : made call head) :
    Remembers tag limits made
      (store.insert sub limits.entries limits.bytes size (call.key tag) head placed) := by
  refine ⟨h.bounded.insert hsub hsize (Nat.pos_of_ne_zero hentries) hkey, fun entry hentry => ?_⟩
  rcases h.bounded.mem_insert hsub hsize hentry with hentry | rfl
  · exact h.meant entry hentry
  · exact ⟨call, rfl, hmade⟩

end Stores

/-! ## Steps of the ONNX adapter -/

section Onnx

variable {bundle : LayaBundle} {limits : HeadLimits} {cache : HeadCache} {call : HeadCall}

/-- Every head in the cache is what its call would make. -/
def HeadCache.Sound (bundle : LayaBundle) (limits : HeadLimits) (cache : HeadCache) : Prop :=
  Remembers QuestionKind.byte limits (fun call head => head = bundle.headOf sizeSub call)
    cache.store

/-- The empty cache is sound. -/
theorem HeadCache.sound_empty : HeadCache.Sound bundle limits {} :=
  remembers_empty

/-- The first critical section keeps the store. -/
theorem HeadCache.store_lookup : (cache.lookup limits call).2.store = cache.store := by
  unfold HeadCache.lookup
  dsimp only
  split <;> rfl

/-- The first critical section finds what the call would make. -/
theorem HeadCache.Sound.found (h : cache.Sound bundle limits) {head : PreparedHead}
    (hfound : (cache.lookup limits call).1 = some head) : head = bundle.headOf sizeSub call := by
  unfold HeadCache.lookup at hfound
  dsimp only at hfound
  split at hfound
  · next found hlookup =>
    obtain rfl := Option.some.inj hfound
    split at hlookup
    · exact Remembers.found h QuestionKind.byte_injective hlookup
    · cases hlookup
  · cases hfound

/-- A call whose head is stored may be cached, and its head fits and is not stored yet. -/
theorem HeadCache.stores_iff {capacities : Capacities} :
    cache.stores limits call capacities = true ↔
      limits.cacheable (call.key QuestionKind.byte) = true ∧
        capacities.recorded 8 ≤ limits.bytes ∧
          call.key QuestionKind.byte ∉ cache.store.table.map Prod.fst := by
  rw [HeadCache.stores, Bool.and_eq_true, Bool.and_eq_true, decide_eq_true_eq,
    Bool.not_eq_true', decide_eq_false_iff_not, and_assoc]

/-- The second critical section keeps the cache sound. -/
theorem HeadCache.Sound.insert (h : cache.Sound bundle limits) (capacities : Capacities)
    (placed : Bool) :
    (cache.insert sizeSub limits call (bundle.headOf sizeSub call) capacities placed).Sound bundle
      limits := by
  unfold HeadCache.insert
  split
  · next hstores =>
    obtain ⟨hcacheable, hsize, hkey⟩ := HeadCache.stores_iff.1 hstores
    exact Remembers.insert h LayaBundle.subtracts_sizeSub hsize
      (HeadLimits.entries_ne_zero hcacheable) hkey rfl
  · exact h

/-- A call that is alone returns what it would make without a cache, and keeps the cache sound. -/
theorem HeadCache.Sound.prepareHead (h : cache.Sound bundle limits) (capacities : Capacities) :
    (prepareHead bundle limits cache call capacities).1 = bundle.headOf sizeSub call ∧
      (prepareHead bundle limits cache call capacities).2.Sound bundle limits := by
  have hlookup : (cache.lookup limits call).2.Sound bundle limits := by
    rw [HeadCache.Sound, HeadCache.store_lookup]
    exact h
  unfold Jevt.prepareHead
  split
  · next found cache' heq =>
    rw [heq] at hlookup
    exact ⟨h.found (congrArg Prod.fst heq), hlookup⟩
  · next cache' heq =>
    rw [heq] at hlookup
    exact ⟨rfl, hlookup.insert capacities true⟩

/-- What holds between two steps: every head, stored, on its way or returned, is what its call would
make. -/
structure HeadCallers.Sound (bundle : LayaBundle) (limits : HeadLimits) (state : HeadCallers) :
    Prop where
  cache : state.cache.Sound bundle limits
  computing : ∀ entry ∈ state.computing, entry.2 = bundle.headOf sizeSub entry.1
  answered : ∀ entry ∈ state.answers, entry.2 = bundle.headOf sizeSub entry.1

/-- Nothing has been called yet. -/
theorem HeadCallers.sound_empty : HeadCallers.Sound bundle limits {} where
  cache := HeadCache.sound_empty
  computing := fun _ hentry => nomatch hentry
  answered := fun _ hentry => nomatch hentry

variable {state state' : HeadCallers}

/-- A step keeps the cache sound. -/
theorem HeadCallers.Sound.step {event : HeadEvent} (h : state.Sound bundle limits)
    (hstep : headStep sizeSub bundle limits state event = some state') :
    state'.Sound bundle limits := by
  cases event with
  | lookup call =>
    have hlookup : (state.cache.lookup limits call).2.Sound bundle limits := by
      rw [HeadCache.Sound, HeadCache.store_lookup]
      exact h.cache
    rw [headStep] at hstep
    split at hstep
    · next found cache heq =>
      obtain rfl := Option.some.inj hstep
      rw [heq] at hlookup
      exact ⟨hlookup, h.computing,
        forall_mem_concat h.answered (h.cache.found (congrArg Prod.fst heq))⟩
    · next cache heq =>
      obtain rfl := Option.some.inj hstep
      rw [heq] at hlookup
      exact ⟨hlookup, forall_mem_concat h.computing rfl, h.answered⟩
  | insert i capacities placed =>
    rw [headStep] at hstep
    split at hstep
    · cases hstep
    · next call head hcall =>
      obtain rfl := Option.some.inj hstep
      obtain rfl : head = bundle.headOf sizeSub call :=
        h.computing _ (List.mem_of_getElem? hcall)
      refine ⟨h.cache.insert capacities placed,
        fun entry hentry => h.computing entry (List.mem_of_mem_eraseIdx hentry), ?_⟩
      dsimp only
      split
      · exact h.answered
      · exact forall_mem_concat h.answered rfl

/-- What a subtraction of a step would give below zero does not matter. -/
theorem HeadCallers.Sound.step_congr {sub : Nat → Nat → Nat} (hsub : LayaBundle.Subtracts sub)
    (h : state.Sound bundle limits) (event : HeadEvent) :
    headStep sub bundle limits state event = headStep sizeSub bundle limits state event := by
  have hhead : ∀ call, bundle.headOf sub call = bundle.headOf sizeSub call := fun call =>
    LayaBundle.computeHead_congr hsub _ _ _
  have hinsert : ∀ call head capacities placed,
      state.cache.insert sub limits call head capacities placed =
        state.cache.insert sizeSub limits call head capacities placed := by
    intro call head capacities placed
    unfold HeadCache.insert
    split
    · next hstores =>
      obtain ⟨-, hsize, -⟩ := HeadCache.stores_iff.1 hstores
      rw [h.cache.bounded.insert_congr hsub hsize,
        h.cache.bounded.insert_congr LayaBundle.subtracts_sizeSub hsize]
    · rfl
  cases event with
  | lookup call => rw [headStep, headStep, hhead]
  | insert i capacities placed => simp only [headStep, hinsert]

end Onnx

/-! ## Steps of the native adapter -/

section Native

variable {bundle : LayaBundle} {limits : HeadLimits} {state state' : NativeCache}

/-- What holds between two calls: every head, stored or returned, is what its call would make. -/
structure NativeCache.Sound (bundle : LayaBundle) (limits : HeadLimits) (state : NativeCache) :
    Prop where
  remembers : Remembers QuestionKind.typeByte limits
    (fun call head => bundle.nativeHeadOf call = .ok head) state.store
  answered : ∀ entry ∈ state.answers, entry.2 = bundle.nativeHeadOf entry.1

/-- Nothing has been called yet. -/
theorem NativeCache.sound_empty : NativeCache.Sound bundle limits {} where
  remembers := remembers_empty
  answered := fun _ hentry => nomatch hentry

/-- A key that is not found is none of the keys of a map. -/
theorem not_mem_of_lookup_eq_none {H : Type} {table : List (Bytes × H)} {key : Bytes}
    (h : table.lookup key = none) : key ∉ table.map Prod.fst := by
  intro hmem
  obtain ⟨entry, hentry, rfl⟩ := List.mem_map.1 hmem
  have hne := List.lookup_eq_none_iff.1 h entry hentry
  rw [bne_self_eq_false] at hne
  cases hne

/-- The end of a call keeps the cache sound. -/
theorem NativeCache.Sound.store {event : NativeEvent} {head : NativeHead}
    (h : state.Sound bundle limits) (hentries : limits.entries ≠ 0)
    (hkey : event.call.key QuestionKind.typeByte ∉ state.store.table.map Prod.fst)
    (hmade : bundle.nativeHeadOf event.call = .ok head) :
    (storeStep sizeSub limits state event head).Sound bundle limits := by
  unfold storeStep
  dsimp only
  split
  · next hfits =>
    have hstore := @Remembers.insert _ _ _ _ _ _ _ _ _ event.placed h.remembers
      LayaBundle.subtracts_sizeSub hfits hentries hkey hmade
    split
    · exact ⟨hstore, forall_mem_concat h.answered hmade.symm⟩
    · exact ⟨hstore, h.answered⟩
  · exact ⟨h.remembers, forall_mem_concat h.answered hmade.symm⟩

/-- A call keeps the cache sound. -/
theorem NativeCache.Sound.step {event : NativeEvent} (h : state.Sound bundle limits)
    (hstep : nativeStep sizeSub bundle limits state event = some state') :
    state'.Sound bundle limits := by
  unfold nativeStep at hstep
  dsimp only at hstep
  split at hstep
  · next hcacheable =>
    split at hstep
    · next found hfound =>
      obtain rfl := Option.some.inj hstep
      exact ⟨h.remembers, forall_mem_concat h.answered
        (h.remembers.found QuestionKind.typeByte_injective hfound).symm⟩
    · next hmissed =>
      split at hstep
      · next failure hfailure =>
        obtain rfl := Option.some.inj hstep
        exact ⟨h.remembers, forall_mem_concat h.answered hfailure.symm⟩
      · next head hmade =>
        obtain rfl := Option.some.inj hstep
        exact h.store (HeadLimits.entries_ne_zero hcacheable) (not_mem_of_lookup_eq_none hmissed)
          hmade
  · obtain rfl := Option.some.inj hstep
    exact ⟨h.remembers, forall_mem_concat h.answered rfl⟩

/-- What a subtraction of a call would give below zero does not matter. -/
theorem NativeCache.Sound.step_congr {sub : Nat → Nat → Nat} (hsub : LayaBundle.Subtracts sub)
    (h : state.Sound bundle limits) (event : NativeEvent) :
    nativeStep sub bundle limits state event = nativeStep sizeSub bundle limits state event := by
  have hstore : ∀ head, storeStep sub limits state event head =
      storeStep sizeSub limits state event head := by
    intro head
    unfold storeStep
    dsimp only
    split
    · next hfits =>
      rw [h.remembers.bounded.insert_congr hsub hfits,
        h.remembers.bounded.insert_congr LayaBundle.subtracts_sizeSub hfits]
    · rfl
  unfold nativeStep
  simp only [hstore]

end Native

/-! ## The main result -/

/-- The limits of a cache that is switched off. -/
def HeadLimits.disabled (limits : HeadLimits) : HeadLimits :=
  { limits with entries := 0 }

/-- What the cache of the ONNX adapter keeps, at every moment between two critical sections. -/
structure HeadCallers.Transparent (bundle : LayaBundle) (limits : HeadLimits)
    (state : HeadCallers) : Prop where
  /-- The queue and the map agree and are within the limits. -/
  bounded : state.cache.store.Bounded limits.entries limits.bytes
  /-- A call that has returned would have returned the same head without a cache. -/
  transparent : ∀ entry ∈ state.answers, ∀ capacities,
    (prepareHead bundle limits.disabled {} entry.1 capacities).1 = entry.2
  /-- No subtraction of the next step wraps around: what it would give does not matter. -/
  exact : ∀ sub, LayaBundle.Subtracts sub → ∀ event,
    headStep sub bundle limits state event = headStep sizeSub bundle limits state event

/-- What the cache of the native adapter keeps, at every moment between two calls. -/
structure NativeCache.Transparent (bundle : LayaBundle) (limits : HeadLimits)
    (state : NativeCache) : Prop where
  /-- The queue and the map agree and are within the limits. -/
  bounded : state.store.Bounded limits.entries limits.bytes
  /-- A call that has returned would have returned the same without a cache. -/
  transparent : ∀ entry ∈ state.answers, ∀ capacities placed,
    (nativeStep sizeSub bundle limits.disabled {} ⟨entry.1, capacities, placed⟩).map
      NativeCache.answers = some [entry]
  /-- No subtraction of the next call wraps around: what it would give does not matter. -/
  exact : ∀ sub, LayaBundle.Subtracts sub → ∀ event,
    nativeStep sub bundle limits state event = nativeStep sizeSub bundle limits state event

/-- **The caches of heads are transparent and bounded.** Keys determine calls; whatever the limits
are, whatever texts are asked for and however the critical sections of the callers follow each
other, a call returns the head it would return without a cache, and the queue, the map and the
number of bytes stay in step and within the limits. -/
theorem head_cache_transparent (bundle : LayaBundle) (limits : HeadLimits) :
    (Function.Injective (HeadCall.key QuestionKind.byte) ∧
      ∀ state, Reachable (headStep sizeSub bundle limits) {} state →
        state.Transparent bundle limits) ∧
    Function.Injective (HeadCall.key QuestionKind.typeByte) ∧
      ∀ state, Reachable (nativeStep sizeSub bundle limits) {} state →
        state.Transparent bundle limits := by
  refine ⟨⟨HeadCall.key_injective QuestionKind.byte_injective, ?_⟩,
    HeadCall.key_injective QuestionKind.typeByte_injective, ?_⟩
  · intro state hreachable
    have hsound : state.Sound bundle limits :=
      hreachable.invariant HeadCallers.sound_empty fun _ _ _ h hstep => h.step hstep
    refine ⟨hsound.cache.bounded, fun entry hentry capacities => ?_,
      fun sub hsub => hsound.step_congr hsub⟩
    rw [hsound.answered entry hentry]
    exact (HeadCache.sound_empty.prepareHead capacities).1
  · intro state hreachable
    have hsound : state.Sound bundle limits :=
      hreachable.invariant NativeCache.sound_empty fun _ _ _ h hstep => h.step hstep
    refine ⟨hsound.remembers.bounded, fun entry hentry _ _ => ?_,
      fun sub hsub => hsound.step_congr hsub⟩
    obtain ⟨call, made⟩ := entry
    obtain rfl : made = bundle.nativeHeadOf call := hsound.answered _ hentry
    rfl

end Jevt
