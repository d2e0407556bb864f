import Mathlib.Algebra.GroupWithZero.Nat
import Mathlib.Data.List.Nodup
import Mathlib.Data.List.Perm.Basic

/-!
# Bounded first-in-first-out stores

A map whose keys also stand in a queue, in the order in which they came and with the size that was
recorded for each, and the sum of these sizes (`Fifo`). An entry is put into the store after the
oldest entries have made room for it (`evict`, `insert`).

The store stays within its limits (`Bounded.insert`): the queue and the map have the same keys once
each. Sizes are subtracted by a function `sub`, of which only the values without a borrow matter
(`insert_congr`).
-/

namespace Jevt.Library

/-- A map, the queue of its keys with their sizes, the oldest first, and the sum of the sizes. -/
structure Fifo (κ ν : Type*) where
  table : List (κ × ν) := []
  order : List (κ × Nat) := []
  bytes : Nat := 0

namespace Fifo

variable {κ ν : Type*} {sub : Nat → Nat → Nat} {entries limit size : Nat}

/-! ## Linked stores -/

/-- The queue and the map have the same keys once each, and the sizes are summed up. -/
structure Linked (store : Fifo κ ν) : Prop where
  keys : (store.order.map Prod.fst).Perm (store.table.map Prod.fst)
  nodup : (store.order.map Prod.fst).Nodup
  sum : store.bytes = (store.order.map Prod.snd).sum

/-- The empty store is linked. -/
theorem linked_empty : Linked ({} : Fifo κ ν) where
  keys := .nil
  nodup := .nil
  sum := rfl

/-- The queue is as long as the map. -/
theorem Linked.length_eq {store : Fifo κ ν} (h : Linked store) :
    store.order.length = store.table.length := by
  have hlength := h.keys.length_eq
  rwa [List.length_map, List.length_map] at hlength

/-- The size of the oldest entry is part of the sum. -/
theorem Linked.recorded_le {table : List (κ × ν)} {key : κ} {recorded bytes : Nat}
    {rest : List (κ × Nat)} (h : Linked ⟨table, (key, recorded) :: rest, bytes⟩) :
    recorded ≤ bytes := by
  have hsum : bytes = (((key, recorded) :: rest).map Prod.snd).sum := h.sum
  rw [hsum, List.map_cons, List.sum_cons]
  exact Nat.le_add_right _ _

/-- A linked store within its limits. -/
structure Bounded (entries limit : Nat) (store : Fifo κ ν) : Prop extends Linked store where
  count : store.table.length ≤ entries
  small : store.bytes ≤ limit

/-- The empty store is within its limits. -/
theorem bounded_empty : Bounded entries limit ({} : Fifo κ ν) where
  toLinked := linked_empty
  count := Nat.zero_le _
  small := Nat.zero_le _

/-! ## Operations -/

section Operations

variable [DecidableEq κ]

/-- Whether there is no room for an entry of a size. -/
def full (sub : Nat → Nat → Nat) (entries limit size : Nat) (table : List (κ × ν)) (bytes : Nat) :
    Bool :=
  decide (entries ≤ table.length) || decide (sub limit size < bytes)

/-- The loop that removes the oldest entries until there is room for one of a size. -/
def evictFrom (sub : Nat → Nat → Nat) (entries limit size : Nat) :
    List (κ × Nat) → List (κ × ν) → Nat → Fifo κ ν
  | [], table, bytes => ⟨table, [], bytes⟩
  | (key, recorded) :: rest, table, bytes =>
    if full sub entries limit size table bytes then
      evictFrom sub entries limit size rest (table.filter fun entry => entry.1 ≠ key)
        (sub bytes recorded)
    else ⟨table, (key, recorded) :: rest, bytes⟩

/-- Makes room for an entry of a size. -/
def evict (sub : Nat → Nat → Nat) (entries limit size : Nat) (store : Fifo κ ν) : Fifo κ ν :=
  evictFrom sub entries limit size store.order store.table store.bytes

/-- Puts an entry into a map that has none with its key. -/
def emplace (key : κ) (value : ν) (table : List (κ × ν)) : List (κ × ν) :=
  if key ∈ table.map Prod.fst then table else (key, value) :: table

/-- Puts an entry with its size into the store; where it is not placed, there is room for it
nevertheless. -/
def insert (sub : Nat → Nat → Nat) (entries limit size : Nat) (key : κ) (value : ν) (placed : Bool)
    (store : Fifo κ ν) : Fifo κ ν :=
  let store := store.evict sub entries limit size
  if placed then
    ⟨emplace key value store.table, store.order ++ [(key, size)], store.bytes + size⟩
  else store

/-! ## One turn of the loop -/

/-- Removing a key from the map is removing it from the keys. -/
theorem map_fst_filter (table : List (κ × ν)) (key : κ) :
    (table.filter fun entry => entry.1 ≠ key).map Prod.fst =
      (table.map Prod.fst).filter fun k => k ≠ key := by
  rw [List.filter_map]
  rfl

/-- The oldest entry can be removed. -/
theorem Linked.tail {table : List (κ × ν)} {key : κ} {recorded bytes : Nat}
    {rest : List (κ × Nat)} (h : Linked ⟨table, (key, recorded) :: rest, bytes⟩) :
    Linked ⟨table.filter fun entry => entry.1 ≠ key, rest, bytes - recorded⟩ := by
  have hnodup : (key :: rest.map Prod.fst).Nodup := h.nodup
  have hkeys : (key :: rest.map Prod.fst).Perm (table.map Prod.fst) := h.keys
  obtain ⟨hkey, hrest⟩ := List.nodup_cons.1 hnodup
  refine ⟨?_, hrest, ?_⟩
  · have hfilter := hkeys.filter fun k => decide (k ≠ key)
    rw [List.filter_cons_of_neg (by simp)] at hfilter
    have hself : (rest.map Prod.fst).filter (fun k => decide (k ≠ key)) = rest.map Prod.fst :=
      List.filter_eq_self.2 fun k hk => decide_eq_true fun heq => hkey (heq ▸ hk)
    rw [hself, ← map_fst_filter] at hfilter
    exact hfilter
  · have hsum : bytes = (((key, recorded) :: rest).map Prod.snd).sum := h.sum
    dsimp only
    rw [hsum, List.map_cons, List.sum_cons, Nat.add_sub_cancel_left]

/-! ## The loop -/

/-- What the loop leaves of a linked store is linked, is a part of it, and has room for the entry
unless it is empty. -/
structure Evicted (entries limit size : Nat) (store left : Fifo κ ν) : Prop where
  linked : Linked left
  table : left.table.Sublist store.table
  bytes : left.bytes ≤ store.bytes
  room : left.order = [] ∨ (left.table.length < entries ∧ left.bytes ≤ limit - size)

/-- The loop makes room. -/
theorem evicted_evictFrom (hsub : ∀ a b, b ≤ a → sub a b = a - b) (hsize : size ≤ limit)
    {order : List (κ × Nat)} {table : List (κ × ν)} {bytes : Nat}
    (h : Linked ⟨table, order, bytes⟩) :
    Evicted entries limit size ⟨table, order, bytes⟩
      (evictFrom sub entries limit size order table bytes) := by
  induction order generalizing table bytes with
  | nil => exact ⟨h, .refl _, Nat.le_refl _, .inl rfl⟩
  | cons first rest ih =>
    obtain ⟨key, recorded⟩ := first
    rw [evictFrom]
    split
    · rw [hsub _ _ h.recorded_le]
      obtain ⟨hlinked, htable, hbytes, hroom⟩ := ih h.tail
      exact ⟨hlinked, htable.trans List.filter_sublist, Nat.le_trans hbytes (Nat.sub_le _ _), hroom⟩
    · next hroom =>
      rw [full, hsub _ _ hsize, Bool.or_eq_true, decide_eq_true_eq, decide_eq_true_eq, not_or,
        Nat.not_le, Nat.not_lt] at hroom
      exact ⟨h, .refl _, Nat.le_refl _, .inr hroom⟩

/-- No turn of the loop goes below zero. -/
theorem evictFrom_congr (hsub : ∀ a b, b ≤ a → sub a b = a - b) (hsize : size ≤ limit)
    {order : List (κ × Nat)} {table : List (κ × ν)} {bytes : Nat}
    (h : Linked ⟨table, order, bytes⟩) :
    evictFrom sub entries limit size order table bytes =
      evictFrom (· - ·) entries limit size order table bytes := by
  induction order generalizing table bytes with
  | nil => rfl
  | cons first rest ih =>
    obtain ⟨key, recorded⟩ := first
    rw [evictFrom, evictFrom, full, full, hsub _ _ hsize, hsub _ _ h.recorded_le, ih h.tail]

/-! ## Stores within their limits -/

/-- Making room keeps a store within its limits. -/
theorem Bounded.evict {store : Fifo κ ν} (hsub : ∀ a b, b ≤ a → sub a b = a - b)
    (hsize : size ≤ limit) (h : Bounded entries limit store) :
    Evicted entries limit size store (store.evict sub entries limit size) :=
  evicted_evictFrom hsub hsize h.toLinked

/-- **An entry that fits keeps a store within its limits.** -/
theorem Bounded.insert {store : Fifo κ ν} {key : κ} {value : ν} {placed : Bool}
    (hsub : ∀ a b, b ≤ a → sub a b = a - b) (hsize : size ≤ limit) (hentries : 0 < entries)
    (hkey : key ∉ store.table.map Prod.fst) (h : Bounded entries limit store) :
    Bounded entries limit (store.insert sub entries limit size key value placed) := by
  obtain ⟨hlinked, htable, hbytes, hroom⟩ := h.evict hsub hsize
  have hsmall := Nat.le_trans hbytes h.small
  have hcount := Nat.le_trans htable.length_le h.count
  have hfresh : key ∉ (store.evict sub entries limit size).table.map Prod.fst := fun hmem =>
    hkey ((htable.map Prod.fst).subset hmem)
  unfold Fifo.insert
  generalize store.evict sub entries limit size = left at *
  split
  · have hplaced : emplace key value left.table = (key, value) :: left.table := if_neg hfresh
    dsimp only
    rw [hplaced]
    have hspace : left.table.length < entries ∧ left.bytes + size ≤ limit := by
      rcases hroom with hnil | ⟨hcount, hspace⟩
      · have hlength := hlinked.length_eq
        have hsum := hlinked.sum
        rw [hnil] at hlength hsum
        rw [← hlength, hsum]
        refine ⟨hentries, ?_⟩
        rw [List.map_nil, List.sum_nil, Nat.zero_add]
        exact hsize
      · exact ⟨hcount, by omega⟩
    refine ⟨⟨?_, ?_, ?_⟩, hspace.1, hspace.2⟩
    · dsimp only
      rw [List.map_append]
      exact List.perm_append_comm.trans (hlinked.keys.cons key)
    · dsimp only
      rw [List.map_append]
      refine List.nodup_append.2 ⟨hlinked.nodup, List.nodup_singleton key, ?_⟩
      rintro k hk _ hmem rfl
      obtain rfl : k = key := List.mem_singleton.1 hmem
      exact hfresh (hlinked.keys.mem_iff.1 hk)
    · dsimp only
      rw [List.map_append, List.sum_append, hlinked.sum]
      rfl
  · exact ⟨hlinked, hcount, hsmall⟩

/-- Every entry of the store is an earlier one or the one that was put into it. -/
theorem Bounded.mem_insert {store : Fifo κ ν} {key : κ} {value : ν} {placed : Bool}
    (hsub : ∀ a b, b ≤ a → sub a b = a - b) (hsize : size ≤ limit)
    (h : Bounded entries limit store) {entry : κ × ν}
    (hentry : entry ∈ (store.insert sub entries limit size key value placed).table) :
    entry ∈ store.table ∨ entry = (key, value) := by
  have htable := (h.evict hsub hsize).table
  unfold Fifo.insert at hentry
  generalize store.evict sub entries limit size = left at *
  split at hentry
  · dsimp only [emplace] at hentry
    split at hentry
    · exact .inl (htable.subset hentry)
    · rcases List.mem_cons.1 hentry with hentry | hentry
      · exact .inr hentry
      · exact .inl (htable.subset hentry)
  · exact .inl (htable.subset hentry)

/-- What a subtraction would give below zero does not matter. -/
theorem Bounded.insert_congr {store : Fifo κ ν} {key : κ} {value : ν} {placed : Bool}
    (hsub : ∀ a b, b ≤ a → sub a b = a - b) (hsize : size ≤ limit)
    (h : Bounded entries limit store) :
    store.insert sub entries limit size key value placed =
      store.insert (· - ·) entries limit size key value placed := by
  unfold Fifo.insert Fifo.evict
  rw [evictFrom_congr hsub hsize h.toLinked]

end Operations

end Fifo

end Jevt.Library
