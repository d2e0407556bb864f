import Mathlib.Algebra.Order.BigOperators.Group.List
import Mathlib.Algebra.Order.Group.Nat
import Jevt.Cache.Expiry
import Jevt.Cache.Nodes

/-!
# The cache refines a recency list

The state of `revisioned_cache` stands for a state of the abstract cache when its nodes hold the
items of the abstract list, in the same order and within the limits (`Represents`). Every call
keeps this, and reads and writes answer as the abstract ones do.

The eviction loop tracks a prefix of the nodes after any number of turns, so that no subtraction of
byte counts wraps around at any point of it (`Represents.subtractable`).
-/

namespace Jevt.RevisionedCache

open Library

variable {Value : Type} {c : RevisionedCache Value} {ns : List (CacheNode Value)}

/-! ## The refinement -/

/-- The code's state stands for an abstract one. -/
structure Represents (c : RevisionedCache Value) (a : RecencyCache Value) : Prop where
  limits : c.limits = a.limits
  revisions : c.revisions = a.revisions
  initialized : c.initialized = a.initialized
  generation : c.generation = a.generation
  nodes : ∃ ns, Tracks c ns ∧ a.list.items = ns.map CacheNode.kept
  positive : 0 < c.limits.entries
  entries_le : a.list.items.length ≤ c.limits.entries
  bytes_le : itemBytes a.list.items ≤ c.limits.bytes

variable {a : RecencyCache Value}

/-- The bytes of the items of nodes. -/
theorem itemBytes_kept (ns : List (CacheNode Value)) :
    itemBytes (ns.map CacheNode.kept) = (ns.map CacheNode.bytes).sum := by
  rw [itemBytes, List.map_map]
  rfl

/-- The abstract lookup finds the item of a node. -/
theorem find?_of_items (hitems : a.list.items = ns.map CacheNode.kept) (key : Bytes) :
    a.list.find? key = (ns.find? fun n => n.key = key).map CacheNode.item := by
  rw [RecencyList.find?, hitems, List.find?_map, Option.map_map]
  rfl

/-- The items without a key are those of the nodes without it. -/
theorem items_filter (hitems : a.list.items = ns.map CacheNode.kept) (key : Bytes) :
    a.list.items.filter (fun item => item.1 ≠ key) =
      (ns.filter fun n => n.key ≠ key).map CacheNode.kept := by
  rw [hitems, List.filter_map]
  rfl

/-- A state whose list has been emptied. -/
theorem Represents.cleared {c' : RevisionedCache Value} {a' : RecencyCache Value}
    (hlimits : c'.limits = a'.limits) (hrevisions : c'.revisions = a'.revisions)
    (hinitialized : c'.initialized = a'.initialized) (hgeneration : c'.generation = a'.generation)
    (hpositive : 0 < c'.limits.entries) (hentries : c'.entries = ∅) (hlru : c'.lru = [])
    (hretained : c'.counters.retainedBytes = 0) (hlist : a'.list = {}) : Represents c' a' := by
  refine ⟨hlimits, hrevisions, hinitialized, hgeneration, ⟨[], ?_, hlist ▸ rfl⟩, hpositive, ?_, ?_⟩
  · exact ⟨List.nodup_nil, List.nodup_nil, by simp, hlru, by simp [hentries], hretained⟩
  · rw [hlist]
    exact Nat.zero_le _
  · rw [hlist]
    exact Nat.zero_le _

/-- `c'` has the limits and the tickets of `c`. -/
structure SameTickets (c c' : RevisionedCache Value) : Prop where
  limits : c'.limits = c.limits
  revisions : c'.revisions = c.revisions
  initialized : c'.initialized = c.initialized
  generation : c'.generation = c.generation

/-- A cache that shrinks keeps its tickets. -/
theorem Shrinks.sameTickets {c' : RevisionedCache Value} (h : Shrinks c c')
    (hlimits : c'.limits = c.limits) : SameTickets c c' :=
  ⟨hlimits, h.revisions, h.initialized, h.generation⟩

/-- A state with other nodes of the same tickets. -/
theorem Represents.renew {c' : RevisionedCache Value} {list : RecencyList Bytes (CachedItem Value)}
    {ns' : List (CacheNode Value)} (h : Represents c a) (hsame : SameTickets c c')
    (htracks : Tracks c' ns')
    (hitems : list.items = ns'.map CacheNode.kept) (hentries : ns'.length ≤ c.limits.entries)
    (hbytes : (ns'.map CacheNode.bytes).sum ≤ c.limits.bytes) :
    Represents c' { a with list } where
  limits := hsame.limits.trans h.limits
  revisions := hsame.revisions.trans h.revisions
  initialized := hsame.initialized.trans h.initialized
  generation := hsame.generation.trans h.generation
  nodes := ⟨ns', htracks, hitems⟩
  positive := hsame.limits ▸ h.positive
  entries_le := by
    rw [hsame.limits, hitems, List.length_map]
    exact hentries
  bytes_le := by
    rw [hsame.limits, hitems, itemBytes_kept]
    exact hbytes

/-- Some of the nodes are within the limits. -/
theorem Represents.le_of_subperm (h : Represents c a)
    (hitems : a.list.items = ns.map CacheNode.kept) {ns' : List (CacheNode Value)}
    (hsub : ns'.Subperm ns) :
    ns'.length ≤ c.limits.entries ∧ (ns'.map CacheNode.bytes).sum ≤ c.limits.bytes := by
  obtain ⟨l, hperm, hsublist⟩ := hsub
  have hentries := h.entries_le
  have hbytes := h.bytes_le
  rw [hitems, List.length_map] at hentries
  rw [hitems, itemBytes_kept] at hbytes
  refine ⟨hperm.length_eq ▸ hsublist.length_le.trans hentries, ?_⟩
  rw [← (hperm.map CacheNode.bytes).sum_nat]
  exact ((hsublist.map _).sum_le_sum (by simp)).trans hbytes

/-- A ticket is current in the code's state as in the abstract one. -/
theorem Represents.current (h : Represents c a) (issued : Nat) :
    (c.initialized = false ∨ issued ≠ c.generation) ↔ a.current issued = false := by
  rw [RecencyCache.current, h.initialized, h.generation, Bool.and_eq_false_iff,
    decide_eq_false_iff_not]

/-- `advance`. -/
theorem Represents.advance (h : Represents c a) (revisions : CacheRevisions) :
    Represents (c.advance revisions).1 (a.advance revisions) := by
  unfold RevisionedCache.advance RecencyCache.advance
  rw [h.initialized, h.revisions]
  split
  · refine .cleared h.limits rfl rfl ?_ h.positive rfl rfl rfl rfl
    change (if c.generation = ticketMax then 1 else c.generation + 1) = _
    rw [h.generation]
  · exact h

/-- `invalidate`. -/
theorem Represents.invalidate (h : Represents c a) : Represents c.invalidate a.invalidate := by
  refine .cleared h.limits h.revisions rfl ?_ h.positive rfl rfl rfl rfl
  change (if c.generation = ticketMax then 1 else c.generation + 1) = _
  rw [h.generation]
  rfl

/-- `get`. -/
theorem Represents.get (h : Represents c a) (key : Bytes) (issued : Nat) (now : Int) :
    Represents (c.get key issued now).1 (a.get key issued now).1 ∧
      (c.get key issued now).2 = (a.get key issued now).2 := by
  obtain ⟨ns, htracks, hitems⟩ := h.nodes
  have hshrinks := (get_spec c key issued now).1
  have hcurrent := h.current issued
  obtain ⟨hentries, hbytes⟩ := h.le_of_subperm hitems (List.Subperm.refl ns)
  unfold RevisionedCache.get at hshrinks ⊢
  unfold RecencyCache.get
  split
  · next hstale =>
    rw [if_neg (Bool.eq_false_iff.1 (hcurrent.1 hstale))]
    exact ⟨h.renew ⟨rfl, rfl, rfl, rfl⟩ (htracks.of_eq rfl rfl rfl rfl) hitems hentries
      hbytes, rfl⟩
  · next hfresh =>
    rw [if_pos (Bool.eq_true_of_not_eq_false (hfresh ∘ hcurrent.2)), find?_of_items hitems]
    rw [if_neg hfresh] at hshrinks
    cases hfound : c.entries.lookup key with
    | none =>
      have hnone : (ns.find? fun n => n.key = key) = none := by
        simpa [htracks.entries] using hfound
      rw [hnone]
      exact ⟨h.renew ⟨rfl, rfl, rfl, rfl⟩ (htracks.of_eq rfl rfl rfl rfl) hitems hentries
        hbytes, rfl⟩
    | some found =>
      obtain ⟨n, hn, rfl, rfl⟩ := htracks.of_lookup hfound
      have hfind : a.list.find? n.key = some n.item := by
        rw [find?_of_items hitems, find?_eq_of_key htracks.nodup hn]
        rfl
      rw [hfound] at hshrinks
      rw [find?_eq_of_key htracks.nodup hn]
      dsimp only [Option.map_some] at hshrinks ⊢
      by_cases hexpired : n.item.expires ≤ now
      · obtain ⟨hentries, hbytes⟩ := h.le_of_subperm hitems
          (List.filter_sublist (p := fun m => m.key ≠ n.key) (l := ns)).subperm
        rw [if_pos (show n.entry.expires ≤ now from hexpired), if_pos hexpired]
        rw [if_pos (show n.entry.expires ≤ now from hexpired)] at hshrinks
        refine ⟨h.renew (hshrinks.sameTickets rfl) ?_ (items_filter hitems _) hentries hbytes, rfl⟩
        exact (htracks.eraseLocked hn).of_eq rfl rfl rfl rfl
      · obtain ⟨hentries, hbytes⟩ := h.le_of_subperm hitems
          (perm_cons_filter htracks.nodup hn).symm.subperm
        rw [if_neg (show ¬n.entry.expires ≤ now from hexpired), if_neg hexpired]
        refine ⟨h.renew ⟨rfl, rfl, rfl, rfl⟩ (htracks.splice hn rfl rfl rfl rfl) ?_ hentries
          hbytes, rfl⟩
        rw [RecencyList.touch_of_find? hfind, RecencyList.items_push, items_filter hitems]
        rfl

/-- The two checks of `put` on its arguments. -/
theorem storable_eq_false {key : Bytes} {valueBytes : Nat} {ttl : Int} {limits : CacheLimits} :
    RecencyCache.storable limits key valueBytes ttl = false ↔
      (key = [] ∨ ttl ≤ 0) ∨
        (limits.bytes < valueBytes ∨ sizeSub limits.bytes valueBytes < key.length) := by
  have hsize : key.length + valueBytes ≤ limits.bytes ↔
      ¬(limits.bytes < valueBytes ∨ sizeSub limits.bytes valueBytes < key.length) := by
    by_cases hle : valueBytes ≤ limits.bytes
    · rw [sizeSub_of_le hle]
      omega
    · omega
  simp only [RecencyCache.storable, Bool.and_eq_false_iff, decide_eq_false_iff_not, hsize, not_not,
    not_lt]

/-- The nodes a `put` leaves under other keys. -/
theorem Represents.trimmed (h : Represents c a) (htracks : Tracks c ns)
    (hitems : a.list.items = ns.map CacheNode.kept) (key : Bytes) {retained : Nat}
    (hretained : retained ≤ c.limits.bytes) :
    let p := trim (admitsNodes c.limits retained) (ns.filter fun n => n.key ≠ key)
    Tracks ((c.replaced key).makeRoom retained (c.replaced key).lru.length) p ∧
      ((c.replaced key).makeRoom retained (c.replaced key).lru.length).limits = c.limits ∧
      key ∉ p.map CacheNode.key ∧ p.length < c.limits.entries ∧
      (p.map CacheNode.bytes).sum + retained ≤ c.limits.bytes := by
  intro p
  obtain ⟨hreplaced, hlimits⟩ := htracks.replaced key
  obtain ⟨-, hbytes⟩ := h.le_of_subperm hitems
    (List.filter_sublist (p := fun n => n.key ≠ key) (l := ns)).subperm
  have hroom : (c.replaced key).counters.retainedBytes ≤ (c.replaced key).limits.bytes := by
    rw [hreplaced.retained, hlimits]
    exact hbytes
  obtain ⟨p', -, hroomy, hroomyLimits, htrim⟩ :=
    @Tracks.makeRoom _ _ _ retained (c.replaced key).lru.length hreplaced hroom
  have hp : p' = p := by
    rw [htrim (by rw [hreplaced.lru, List.length_map]), hlimits]
  have hadmits : admitsNodes c.limits retained p = true := by
    refine fits_trim ?_ _
    simp [admitsNodes, CacheLimits.admits, itemBytes, h.positive, hretained]
  rw [admitsNodes, CacheLimits.admits, itemBytes_kept, List.length_map, Bool.and_eq_true,
    decide_eq_true_eq, decide_eq_true_eq] at hadmits
  refine ⟨hp ▸ hroomy, hroomyLimits.trans hlimits, fun hmem => ?_, hadmits.1, hadmits.2⟩
  obtain ⟨n, hn, heq⟩ := List.mem_map.1 hmem
  have hkept := (List.mem_filter.1 ((prefix_trim _ _).subset hn)).2
  exact absurd heq (by simpa using hkept)

/-- The items after a write are those of the nodes that are left and of the new one. -/
theorem items_written (hitems : a.list.items = ns.map CacheNode.kept) {key : Bytes}
    {limits : CacheLimits} {retained : Nat}
    (hkey : key ∉ (trim (admitsNodes limits retained) (ns.filter fun n => n.key ≠ key)).map
      CacheNode.key) (position : Nat) (item : CachedItem Value) :
    (((a.list.erase key).trim (limits.admits retained)).push key item).items =
      (⟨position, key, item⟩ :: trim (admitsNodes limits retained)
        (ns.filter fun n => n.key ≠ key)).map CacheNode.kept := by
  rw [RecencyList.items_push, RecencyList.items_trim, RecencyList.items_erase,
    items_filter hitems, trim_map, List.map_cons]
  refine congrArg _ ?_
  rw [List.filter_map, List.filter_eq_self.2]
  · rfl
  · intro n hn
    exact decide_eq_true fun heq => hkey (List.mem_map.2 ⟨n, hn, heq⟩)

/-- `put`. -/
theorem Represents.put (h : Represents c a) (key : Bytes) (issued : Nat) (value : Option Value)
    (valueBytes : Nat) (ttl now : Int) :
    Represents (c.put key issued value valueBytes ttl now).1
        (a.put key issued value valueBytes ttl now).1 ∧
      (c.put key issued value valueBytes ttl now).2 =
        (a.put key issued value valueBytes ttl now).2 := by
  obtain ⟨ns, htracks, hitems⟩ := h.nodes
  have hcurrent := h.current issued
  have hstorable := @storable_eq_false key valueBytes ttl c.limits
  rw [h.limits] at hstorable
  unfold RevisionedCache.put RecencyCache.put
  cases value with
  | none => exact ⟨h, rfl⟩
  | some value =>
    dsimp only
    split
    · next harguments =>
      rw [hstorable.2 (.inl harguments), Bool.false_and, if_neg Bool.false_ne_true]
      exact ⟨h, rfl⟩
    · next harguments =>
      split
      · next hsize =>
        rw [hstorable.2 (.inr (h.limits ▸ hsize)), Bool.false_and, if_neg Bool.false_ne_true]
        exact ⟨h, rfl⟩
      · next hsize =>
        split
        · next hstale =>
          obtain ⟨hentries, hbytes⟩ := h.le_of_subperm hitems (List.Subperm.refl ns)
          rw [hcurrent.1 hstale, Bool.and_false, if_neg Bool.false_ne_true]
          exact ⟨h.renew ⟨rfl, rfl, rfl, rfl⟩ (htracks.of_eq rfl rfl rfl rfl) hitems
            hentries hbytes, rfl⟩
        · next hfresh =>
          have harg : RecencyCache.storable a.limits key valueBytes ttl = true := by
            refine Bool.eq_true_of_not_eq_false fun hnot => ?_
            exact (hstorable.1 hnot).elim harguments (h.limits ▸ hsize)
          have hretained : key.length + valueBytes ≤ c.limits.bytes := by
            simp only [RecencyCache.storable, Bool.and_eq_true, decide_eq_true_eq] at harg
            exact h.limits ▸ harg.2
          obtain ⟨hroomy, hlimits, hkey, hentries, hbytes⟩ := h.trimmed htracks hitems key hretained
          have hshrinks := (shrinks_replaced c key).1.trans
            (shrinks_makeRoom (key.length + valueBytes) (c.replaced key).lru.length _)
          rw [harg, Bool.eq_true_of_not_eq_false (hfresh ∘ hcurrent.2), Bool.true_and, if_pos rfl]
          refine ⟨h.renew ?_ (hroomy.emplace hkey value valueBytes (expiry ttl now))
            (h.limits ▸ items_written hitems hkey _ _) hentries ?_, rfl⟩
          · exact ⟨hlimits, hshrinks.revisions, hshrinks.initialized, hshrinks.generation⟩
          · rw [List.map_cons, List.sum_cons, Nat.add_comm]
            exact hbytes

/-- Every call keeps the refinement. -/
theorem Represents.apply (h : Represents c a) (call : CacheCall Value) :
    Represents (c.apply call) (a.apply call) := by
  cases call with
  | advance revisions => exact h.advance revisions
  | get key issued now => exact (h.get key issued now).1
  | put key issued value valueBytes ttl now => exact (h.put key issued value valueBytes ttl now).1
  | invalidate => exact h.invalidate

/-- A new cache stands for an empty list. -/
theorem represents_create {limits : CacheLimits} (hcreate : create Value limits = .ok c) :
    Represents c { limits } := by
  unfold create at hcreate
  split at hcreate
  · cases hcreate
  · next hlimits =>
    cases hcreate
    exact .cleared rfl rfl rfl rfl (Nat.pos_of_ne_zero (not_or.1 hlimits).1) rfl rfl rfl rfl

/-- After every run the cache stands for what the abstract one has become. -/
theorem represents_execute {limits : CacheLimits} {c₀ : RevisionedCache Value}
    (hcreate : create Value limits = .ok c₀) (calls : List (CacheCall Value)) :
    Represents (c₀.execute calls) (RecencyCache.execute limits calls) := by
  induction calls using List.reverseRecOn with
  | nil => exact represents_create hcreate
  | append_singleton calls call ih =>
    rw [execute_append, execute_cons, execute_nil, RecencyCache.execute_concat]
    exact ih.apply call

/-! ## Byte counts and read counts -/

/-- No subtraction of byte counts wraps around: what is retained is within the limit, and what an
entry retains within what is retained. -/
def Subtractable (c : RevisionedCache Value) : Prop :=
  c.counters.retainedBytes ≤ c.limits.bytes ∧
    ∀ key found, c.entries.lookup key = some found → found.bytes ≤ c.counters.retainedBytes

/-- What the nodes say about subtractions. -/
theorem Tracks.subtractable (h : Tracks c ns) (hroom : c.counters.retainedBytes ≤ c.limits.bytes) :
    c.Subtractable := by
  refine ⟨hroom, fun key found hfound => ?_⟩
  obtain ⟨n, hn, rfl, rfl⟩ := h.of_lookup hfound
  rw [h.retained_eq hn]
  exact Nat.le_add_right _ _

/-- The bytes of some nodes are within the limit. -/
theorem Represents.retained_le (h : Represents c a) (hitems : a.list.items = ns.map CacheNode.kept)
    {c' : RevisionedCache Value} {ns' : List (CacheNode Value)} (htracks : Tracks c' ns')
    (hsub : ns'.Sublist ns) (hlimits : c'.limits = c.limits) :
    c'.counters.retainedBytes ≤ c'.limits.bytes := by
  rw [htracks.retained, hlimits]
  exact (h.le_of_subperm hitems hsub.subperm).2

/-- The state of the cache and every state its eviction loop passes through. -/
theorem Represents.subtractable (h : Represents c a) :
    c.Subtractable ∧
      ∀ key retained turns, ((c.replaced key).makeRoom retained turns).Subtractable := by
  obtain ⟨ns, htracks, hitems⟩ := h.nodes
  refine ⟨htracks.subtractable (h.retained_le hitems htracks (List.Sublist.refl ns) rfl),
    fun key retained turns => ?_⟩
  obtain ⟨hreplaced, hlimits⟩ := htracks.replaced key
  have hroom := h.retained_le hitems hreplaced List.filter_sublist hlimits
  obtain ⟨p, hfront, hroomy, hroomyLimits, -⟩ := hreplaced.makeRoom hroom
  exact hroomy.subtractable (h.retained_le hitems hroomy
    (hfront.sublist.trans List.filter_sublist) (hroomyLimits.trans hlimits))

/-- The reads a cache has counted. -/
def countedReads (c : RevisionedCache Value) : Nat :=
  c.counters.hits + c.counters.misses + c.counters.staleReads

/-- The eviction loop counts no reads. -/
theorem countedReads_makeRoom (retained turns : Nat) (c : RevisionedCache Value) :
    (c.makeRoom retained turns).countedReads = c.countedReads := by
  fun_induction makeRoom retained turns c with
  | case1 => rfl
  | case2 => rfl
  | case3 turns c position back hlast hcondition hnone ih => exact ih
  | case4 turns c position back hlast hcondition found hfound erased ih => exact ih
  | case5 => rfl

/-- The first step of `put` counts no reads. -/
theorem countedReads_replaced (c : RevisionedCache Value) (key : Bytes) :
    (c.replaced key).countedReads = c.countedReads := by
  unfold RevisionedCache.replaced
  cases c.entries.lookup key with
  | none => rfl
  | some found => rfl

/-- A read is counted once. -/
theorem countedReads_get (c : RevisionedCache Value) (key : Bytes) (issued : Nat) (now : Int) :
    (c.get key issued now).1.countedReads = c.countedReads + 1 := by
  unfold RevisionedCache.get
  split
  · rfl
  · cases c.entries.lookup key with
    | none => exact (Nat.add_right_comm _ _ _).symm ▸ rfl
    | some found =>
      dsimp only
      split
      · change c.counters.hits + (c.counters.misses + 1) + c.counters.staleReads = _
        rw [countedReads]
        omega
      · change c.counters.hits + 1 + c.counters.misses + c.counters.staleReads = _
        rw [countedReads]
        omega

/-- A write is not a read. -/
theorem countedReads_put (c : RevisionedCache Value) (key : Bytes) (issued : Nat)
    (value : Option Value) (valueBytes : Nat) (ttl now : Int) :
    (c.put key issued value valueBytes ttl now).1.countedReads = c.countedReads := by
  fun_cases RevisionedCache.put c key issued value valueBytes ttl now with
  | case1 => rfl
  | case2 => rfl
  | case3 => rfl
  | case4 => rfl
  | case5 value harguments hsize hfresh retained roomy =>
    change roomy.countedReads = _
    rw [countedReads_makeRoom, countedReads_replaced]

/-- A new generation counts no reads. -/
theorem countedReads_advance (c : RevisionedCache Value) (revisions : CacheRevisions) :
    (c.advance revisions).1.countedReads = c.countedReads := by
  unfold RevisionedCache.advance
  split
  · cases hinitialized : c.initialized <;> rfl
  · rfl

/-- The counters of hits, misses and stale reads count the reads of a run. -/
theorem countedReads_execute {limits : CacheLimits} {c₀ : RevisionedCache Value}
    (hcreate : create Value limits = .ok c₀) (calls : List (CacheCall Value)) :
    (c₀.execute calls).countedReads = calls.countP (· matches .get ..) := by
  induction calls using List.reverseRecOn with
  | nil =>
    unfold create at hcreate
    split at hcreate
    · cases hcreate
    · cases hcreate
      rfl
  | append_singleton calls call ih =>
    rw [execute_append, execute_cons, execute_nil, List.countP_append, ← ih]
    cases call with
    | advance revisions => exact countedReads_advance _ revisions
    | get key issued now => exact countedReads_get _ key issued now
    | put key issued value valueBytes ttl now => exact countedReads_put _ key issued _ _ _ _
    | invalidate => rfl

/-! ## The main result -/

/-- What an accepted write does to a recency list: the item goes in front of the longest prefix of
the items under other keys that leaves room for it. -/
def Written (limits : CacheLimits) (before after : RecencyList Bytes (CachedItem Value))
    (key : Bytes) (item : CachedItem Value) : Prop :=
  ∃ kept evicted, (before.erase key).items = kept ++ evicted ∧ after.items = (key, item) :: kept ∧
    limits.admits (key.length + item.valueBytes) kept = true ∧
    ∀ p, p <+: (before.erase key).items →
      limits.admits (key.length + item.valueBytes) p = true → p.length ≤ kept.length

/-- An accepted write of the abstract cache. -/
theorem written_of_put (hpositive : 0 < a.limits.entries) {key : Bytes} {issued : Nat}
    {value : Option Value} {valueBytes : Nat} {ttl now : Int}
    (h : (a.put key issued value valueBytes ttl now).2 = true) :
    ∃ v, value = some v ∧ Written a.limits a.list
      (a.put key issued value valueBytes ttl now).1.list key ⟨v, valueBytes, expiry ttl now⟩ := by
  unfold RecencyCache.put at h ⊢
  cases value with
  | none => cases h
  | some v =>
    dsimp only at h ⊢
    split at h
    · next hput =>
      have hsize : key.length + valueBytes ≤ a.limits.bytes := by
        simp only [RecencyCache.storable, Bool.and_eq_true, decide_eq_true_eq] at hput
        exact hput.1.2
      have hnil : a.limits.admits (key.length + valueBytes) ([] : List (Bytes × CachedItem Value)) =
          true := by
        simp [CacheLimits.admits, itemBytes, hpositive, hsize]
      have hfront := prefix_trim (a.limits.admits (key.length + valueBytes))
        (a.list.erase key).items
      obtain ⟨evicted, hevicted⟩ := hfront
      rw [if_pos hput]
      refine ⟨v, rfl, _, evicted, hevicted.symm, ?_, fits_trim hnil _,
        fun p hp hfits => length_le_trim hp hfits⟩
      rw [RecencyList.items_push, RecencyList.items_trim, List.filter_eq_self.2]
      intro item hitem
      exact (List.mem_filter.1 ((prefix_trim _ _).subset hitem)).2
    · cases h

/-- **The cache is a bounded recency list.** Whatever calls are made: the map, the recency list and
the byte counter stand for the list the abstract cache keeps, which is within the limits, and reads
and writes answer as it does. An accepted write removes, besides the previous entry of its key, the
shortest suffix of the list that has to go; a refused one and a stale read change counters only. The
expiry it stores is the sum of the tick and the ttl, at most the last tick; without a ttl or before
the epoch it is the last tick. No byte count wraps around, also while entries are evicted, and the
reads are all counted. -/
theorem refines_recency_list {limits : CacheLimits} {c₀ : RevisionedCache Value}
    (hcreate : create Value limits = .ok c₀) (calls : List (CacheCall Value)) :
    Represents (c₀.execute calls) (RecencyCache.execute limits calls) ∧
    (∀ key issued now, ((c₀.execute calls).get key issued now).2 =
        ((RecencyCache.execute limits calls).get key issued now).2 ∧
      ((RecencyCache.execute limits calls).current issued = false →
        { ((c₀.execute calls).get key issued now).1 with
          counters := (c₀.execute calls).counters } = c₀.execute calls)) ∧
    (∀ key issued value valueBytes ttl now,
      ((c₀.execute calls).put key issued value valueBytes ttl now).2 =
        ((RecencyCache.execute limits calls).put key issued value valueBytes ttl now).2 ∧
      (((c₀.execute calls).put key issued value valueBytes ttl now).2 = true →
        ∃ v, value = some v ∧ Written limits (RecencyCache.execute limits calls).list
          (RecencyCache.execute limits (calls ++ [.put key issued value valueBytes ttl now])).list
          key ⟨v, valueBytes, expiry ttl now⟩) ∧
      (((c₀.execute calls).put key issued value valueBytes ttl now).2 = false →
        { ((c₀.execute calls).put key issued value valueBytes ttl now).1 with
          counters := (c₀.execute calls).counters } = c₀.execute calls)) ∧
    (∀ ttl now, IsTick ttl → IsTick now → 0 < ttl → expiry ttl now =
      if ttl = clockMax ∨ now < 0 then clockMax else min clockMax (now + ttl)) ∧
    ((c₀.execute calls).Subtractable ∧ ∀ key retained turns,
      (((c₀.execute calls).replaced key).makeRoom retained turns).Subtractable) ∧
    (c₀.execute calls).countedReads = calls.countP (· matches .get ..) := by
  have h := represents_execute hcreate calls
  refine ⟨h, fun key issued now => ⟨(h.get key issued now).2, fun hstale => ?_⟩,
    fun key issued value valueBytes ttl now =>
      ⟨(h.put key issued value valueBytes ttl now).2, fun haccepted => ?_, fun hrefused => ?_⟩,
    fun ttl now httl hnow hpositive => expiry_eq hnow httl hpositive,
    h.subtractable, countedReads_execute hcreate calls⟩
  · rw [RevisionedCache.get, if_pos ((h.current issued).2 hstale)]
  · rw [(h.put key issued value valueBytes ttl now).2] at haccepted
    have hwritten := written_of_put (h.limits ▸ h.positive) haccepted
    rw [RecencyCache.limits_execute] at hwritten
    rw [RecencyCache.execute_concat]
    exact hwritten
  · rcases put_cases (c₀.execute calls) key issued value valueBytes ttl now with
      ⟨-, hsame⟩ | ⟨-, v, roomy, -, -, -, hput⟩
    · exact hsame
    · rw [hput] at hrefused
      cases hrefused

/-- Two entries fit; the third evicts the one that was not read. -/
def threeWrites : List (CacheCall Nat) :=
  [.advance {}, .put (lit "a") 1 (some 1) 10 clockMax 0, .put (lit "b") 1 (some 2) 10 clockMax 0,
    .get (lit "a") 1 5, .put (lit "c") 1 (some 3) 10 clockMax 0]

/-- The third write evicts the entry that was not read, in both. An entry written before the epoch
has no expiry. -/
theorem refines_recency_list_threeWrites :
    let cache : RevisionedCache Nat := ⟨{ entries := 2, bytes := 30 }, {}, false, 0, ∅, [], {}, 0⟩
    Represents (cache.execute threeWrites)
        (RecencyCache.execute { entries := 2, bytes := 30 } threeWrites) ∧
      (cache.execute threeWrites).lru.map Prod.snd = [lit "c", lit "a"] ∧
      Written { entries := 2, bytes := 30 }
        (RecencyCache.execute { entries := 2, bytes := 30 } (threeWrites.take 4)).list
        (RecencyCache.execute { entries := 2, bytes := 30 } threeWrites).list
        (lit "c") ⟨3, 10, clockMax⟩ ∧
      expiry 10 5 = 15 ∧ expiry 10 (-5) = clockMax := by
  intro cache
  have hcreate : create Nat { entries := 2, bytes := 30 } = .ok cache := rfl
  obtain ⟨hrepresents, -⟩ := refines_recency_list hcreate threeWrites
  obtain ⟨-, -, hput, hexpiry, -⟩ := refines_recency_list hcreate (threeWrites.take 4)
  obtain ⟨v, hv, hwritten⟩ := (hput (lit "c") 1 (some 3) 10 clockMax 0).2.1 (by decide)
  obtain rfl := Option.some.inj hv
  exact ⟨hrepresents, by decide, hwritten,
    hexpiry 10 5 (by decide) (by decide) (by decide),
    hexpiry 10 (-5) (by decide) (by decide) (by decide)⟩

end Jevt.RevisionedCache
