import Jevt.Cache.Fencing
import Jevt.Cache.Recency

/-!
# The nodes of the cache

The map, the recency list of positions and the byte counter of `revisioned_cache` say the same as
one list of nodes (`Tracks`), and its operations act on the nodes: `erase_locked` drops one,
`splice` moves one to the front, and the end of `put` adds one.

The eviction loop leaves the longest prefix of the nodes that leaves room, and when it is stopped
earlier still a prefix (`Tracks.makeRoom`).
-/

namespace Jevt

open Library

variable {Value : Type}

/-- An entry of the map together with its key and its node of the recency list. -/
structure CacheNode (Value : Type) where
  position : Nat
  key : Bytes
  item : CachedItem Value

namespace CacheNode

/-- The bytes that are counted for an entry. -/
def bytes (n : CacheNode Value) : Nat := n.key.length + n.item.valueBytes

/-- The entry. -/
def entry (n : CacheNode Value) : CacheEntry Value :=
  ⟨n.item.value, n.bytes, n.item.expires, n.position⟩

/-- The key and the item. -/
def kept (n : CacheNode Value) : Bytes × CachedItem Value := (n.key, n.item)

end CacheNode

namespace RevisionedCache

variable {c : RevisionedCache Value} {ns : List (CacheNode Value)}

/-- The map, the recency list and the byte counter all say what the nodes say. -/
structure Tracks (c : RevisionedCache Value) (ns : List (CacheNode Value)) : Prop where
  nodup : (ns.map CacheNode.key).Nodup
  positions : (ns.map CacheNode.position).Nodup
  fresh : ∀ n ∈ ns, n.position < c.nextNode
  lru : c.lru = ns.map fun n => (n.position, n.key)
  entries : ∀ key, c.entries.lookup key =
    (ns.find? fun n => n.key = key).map CacheNode.entry
  retained : c.counters.retainedBytes = (ns.map CacheNode.bytes).sum

/-- The counted bytes of a node and of those under other keys. -/
theorem Tracks.retained_eq (h : Tracks c ns) {n : CacheNode Value} (hn : n ∈ ns) :
    c.counters.retainedBytes =
      n.bytes + ((ns.filter fun m => m.key ≠ n.key).map CacheNode.bytes).sum := by
  rw [h.retained, ((perm_cons_filter h.nodup hn).map CacheNode.bytes).sum_nat, List.map_cons,
    List.sum_cons]

/-- An entry of the map is that of a node. -/
theorem Tracks.of_lookup (h : Tracks c ns) {key : Bytes} {found : CacheEntry Value}
    (hfound : c.entries.lookup key = some found) :
    ∃ n ∈ ns, n.key = key ∧ n.entry = found := by
  rw [h.entries, Option.map_eq_some_iff] at hfound
  obtain ⟨n, hn, heq⟩ := hfound
  exact ⟨n, List.mem_of_find?_eq_some hn, by simpa using List.find?_some hn, heq⟩

/-- A node is the entry of its key. -/
theorem Tracks.lookup (h : Tracks c ns) {n : CacheNode Value} (hn : n ∈ ns) :
    c.entries.lookup n.key = some n.entry := by
  rw [h.entries, find?_eq_of_key h.nodup hn, Option.map_some]

/-- A key has an entry if it has a node. -/
theorem Tracks.mem_iff (h : Tracks c ns) {key : Bytes} :
    key ∈ c.entries ↔ key ∈ ns.map CacheNode.key := by
  rw [← AList.lookup_isSome, h.entries, Option.isSome_map, List.find?_isSome, List.mem_map]
  simp

/-- The map has the keys of the nodes. -/
theorem Tracks.keys_perm (h : Tracks c ns) : c.entries.keys.Perm (ns.map CacheNode.key) :=
  (List.perm_ext_iff_of_nodup c.entries.keys_nodup h.nodup).2 fun _ =>
    AList.mem_keys.symm.trans h.mem_iff

/-- There are as many entries as nodes. -/
theorem Tracks.length (h : Tracks c ns) : c.entries.entries.length = ns.length := by
  have hlength := h.keys_perm.length_eq
  rw [AList.keys, List.keys, List.length_map, List.length_map] at hlength
  exact hlength

/-- Nodes with the same key are at the same position. -/
theorem Tracks.position_iff (h : Tracks c ns) {m n : CacheNode Value} (hm : m ∈ ns) (hn : n ∈ ns) :
    m.position = n.position ↔ m.key = n.key :=
  ⟨fun heq => congrArg _ (eq_of_key_eq h.positions hm hn heq),
    fun heq => congrArg _ (eq_of_key_eq h.nodup hm hn heq)⟩

/-- Dropping a node by its position is dropping it by its key. -/
theorem Tracks.filter_position (h : Tracks c ns) {n : CacheNode Value} (hn : n ∈ ns) :
    c.lru.filter (fun node => node.1 ≠ n.position) =
      (ns.filter fun m => m.key ≠ n.key).map fun m => (m.position, m.key) := by
  rw [h.lru, List.filter_map]
  refine congrArg _ (List.filter_congr fun m hm => ?_)
  simp [h.position_iff hm hn]

/-! ## The operations on nodes -/

/-- The nodes that are left in the list when some are dropped. -/
theorem Tracks.sublist {ns' : List (CacheNode Value)} (h : Tracks c ns) (hsub : ns'.Sublist ns) :
    (ns'.map CacheNode.key).Nodup ∧ (ns'.map CacheNode.position).Nodup ∧
      ∀ n ∈ ns', n.position < c.nextNode :=
  ⟨h.nodup.sublist (hsub.map _), h.positions.sublist (hsub.map _),
    fun n hn => h.fresh n (hsub.subset hn)⟩

/-- `erase_locked` drops a node. -/
theorem Tracks.eraseLocked (h : Tracks c ns) {n : CacheNode Value} (hn : n ∈ ns) :
    Tracks (c.eraseLocked n.key n.entry) (ns.filter fun m => m.key ≠ n.key) := by
  obtain ⟨hnodup, hpositions, hfresh⟩ := h.sublist List.filter_sublist
  refine ⟨hnodup, hpositions, hfresh, h.filter_position hn, fun key => ?_, ?_⟩
  · change (c.entries.erase n.key).lookup key = _
    by_cases hkey : key = n.key
    · rw [hkey, AList.lookup_erase, List.find?_filter]
      simp
    · rw [AList.lookup_erase_ne hkey, h.entries, List.find?_filter]
      congr 2
      funext m
      by_cases hm : m.key = key <;> simp [hm, hkey]
  · change sizeSub c.counters.retainedBytes n.bytes = _
    have hretained := h.retained_eq hn
    rw [sizeSub_of_le (by omega)]
    omega

/-- What the nodes say does not depend on the other members. -/
theorem Tracks.of_eq {c' : RevisionedCache Value} (h : Tracks c ns) (hlru : c'.lru = c.lru)
    (hentries : c'.entries = c.entries) (hnode : c'.nextNode = c.nextNode)
    (hretained : c'.counters.retainedBytes = c.counters.retainedBytes) : Tracks c' ns :=
  ⟨h.nodup, h.positions, hnode ▸ h.fresh, hlru.trans h.lru, hentries ▸ h.entries,
    hretained.trans h.retained⟩

/-- `splice` moves a node to the front. -/
theorem Tracks.splice {c' : RevisionedCache Value} (h : Tracks c ns) {n : CacheNode Value}
    (hn : n ∈ ns) (hlru : c'.lru = splice c.lru n.position) (hentries : c'.entries = c.entries)
    (hnode : c'.nextNode = c.nextNode)
    (hretained : c'.counters.retainedBytes = c.counters.retainedBytes) :
    Tracks c' (n :: ns.filter fun m => m.key ≠ n.key) := by
  have hperm := perm_cons_filter h.nodup hn
  refine ⟨(hperm.map _).nodup_iff.1 h.nodup, (hperm.map _).nodup_iff.1 h.positions, ?_, ?_, ?_, ?_⟩
  · intro m hm
    rw [hnode]
    exact h.fresh m (hperm.mem_iff.2 hm)
  · have hfront : c.lru.filter (fun node => node.1 = n.position) = [(n.position, n.key)] := by
      rw [h.lru, List.filter_map]
      exact congrArg (List.map _) (filter_key_eq h.positions hn)
    rw [hlru, RevisionedCache.splice, hfront, h.filter_position hn]
    rfl
  · intro key
    rw [hentries, h.entries, find?_perm h.nodup hperm]
  · rw [hretained, h.retained, (hperm.map _).sum_nat]

/-- Whether a node of `retained` bytes has room next to others. -/
def admitsNodes (limits : CacheLimits) (retained : Nat) (ns : List (CacheNode Value)) : Bool :=
  limits.admits retained (ns.map CacheNode.kept)

/-- The condition of the eviction loop. -/
theorem Tracks.full_iff (h : Tracks c ns) (hroom : c.counters.retainedBytes ≤ c.limits.bytes)
    (retained : Nat) :
    (c.limits.entries ≤ c.entries.entries.length ∨
      sizeSub c.limits.bytes c.counters.retainedBytes < retained) ↔
    admitsNodes c.limits retained ns = false := by
  have hbytes : itemBytes (ns.map CacheNode.kept) = c.counters.retainedBytes := by
    rw [h.retained, itemBytes, List.map_map]
    rfl
  rw [admitsNodes, CacheLimits.admits, hbytes, List.length_map, h.length, sizeSub_of_le hroom]
  simp only [Bool.and_eq_false_iff, decide_eq_false_iff_not]
  omega

/-- The eviction loop leaves a prefix of the nodes, and if it has enough turns the longest one that
leaves room. -/
theorem Tracks.makeRoom {retained turns : Nat} (h : Tracks c ns)
    (hroom : c.counters.retainedBytes ≤ c.limits.bytes) :
    ∃ p, p <+: ns ∧ Tracks (c.makeRoom retained turns) p ∧
      (c.makeRoom retained turns).limits = c.limits ∧
      (ns.length ≤ turns → p = trim (admitsNodes c.limits retained) ns) := by
  induction turns generalizing c ns with
  | zero =>
    refine ⟨ns, List.prefix_refl _, h, rfl, fun hlength => ?_⟩
    rw [List.length_eq_zero_iff.1 (Nat.le_zero.1 hlength), trim_nil]
  | succ turns ih =>
    rcases List.eq_nil_or_concat ns with rfl | ⟨init, n, rfl⟩
    · have hlast : c.lru.getLast? = none := by rw [h.lru]; rfl
      refine ⟨[], List.prefix_refl _, ?_⟩
      rw [RevisionedCache.makeRoom, hlast]
      exact ⟨h, rfl, fun _ => (trim_nil _).symm⟩
    · rw [List.concat_eq_append] at h ⊢
      have hn : n ∈ init ++ [n] := by simp
      have hlast : c.lru.getLast? = some (n.position, n.key) := by rw [h.lru]; simp
      have hinit : (init ++ [n]).filter (fun m => m.key ≠ n.key) = init :=
        filter_ne_concat h.nodup
      have hfull := h.full_iff hroom retained
      rw [RevisionedCache.makeRoom, hlast]
      dsimp only
      split
      · next hcondition =>
        rw [h.lookup hn]
        have hretained := h.retained_eq hn
        have herased := h.eraseLocked hn
        rw [hinit] at herased hretained
        obtain ⟨p, hfront, htracks, hlimits, htrim⟩ := ih (c := { c.eraseLocked n.key n.entry with
          counters := { (c.eraseLocked n.key n.entry).counters with
            evictions := (c.eraseLocked n.key n.entry).counters.evictions + 1 } })
          (herased.of_eq rfl rfl rfl rfl) (by
            change (c.eraseLocked n.key n.entry).counters.retainedBytes ≤ c.limits.bytes
            rw [herased.retained]
            omega)
        refine ⟨p, hfront.trans (List.prefix_append _ _), htracks, hlimits, fun hturns => ?_⟩
        rw [htrim (by simpa using hturns), trim_concat_of_not (hfull.1 hcondition)]
        rfl
      · next hcondition =>
        refine ⟨_, List.prefix_refl _, h, rfl, fun _ => (trim_of_fits ?_).symm⟩
        exact Bool.eq_true_of_not_eq_false fun hnot => hcondition (hfull.2 hnot)

/-- The end of `put` adds a node in front. -/
theorem Tracks.emplace (h : Tracks c ns) {key : Bytes} (hkey : key ∉ ns.map CacheNode.key)
    (value : Value) (valueBytes : Nat) (expires : Int) :
    Tracks (c.emplace key value (key.length + valueBytes) expires)
      (⟨c.nextNode, key, ⟨value, valueBytes, expires⟩⟩ :: ns) := by
  have hfree : key ∉ c.entries := fun hmem => hkey (h.mem_iff.1 hmem)
  refine ⟨List.nodup_cons.2 ⟨hkey, h.nodup⟩, List.nodup_cons.2 ⟨fun hmem => ?_, h.positions⟩,
    ?_, ?_, ?_, ?_⟩
  · obtain ⟨n, hn, heq⟩ := List.mem_map.1 hmem
    exact absurd heq (h.fresh n hn).ne
  · intro n hn
    rcases List.mem_cons.1 hn with rfl | hn
    · exact Nat.lt_succ_self _
    · exact (h.fresh n hn).trans (Nat.lt_succ_self _)
  · exact congrArg _ h.lru
  · intro key'
    change (if key ∈ c.entries then c.entries else _).lookup key' = _
    rw [if_neg hfree]
    by_cases hsame : key = key'
    · subst hsame
      rw [AList.lookup_insert, List.find?_cons_of_pos (by simp)]
      rfl
    · rw [AList.lookup_insert_ne (Ne.symm hsame), h.entries,
        List.find?_cons_of_neg (by simpa using hsame)]
  · change c.counters.retainedBytes + _ = _
    rw [h.retained, List.map_cons, List.sum_cons, Nat.add_comm]
    rfl

/-- The first step of `put` drops the node of its key. -/
theorem Tracks.replaced (h : Tracks c ns) (key : Bytes) :
    Tracks (c.replaced key) (ns.filter fun n => n.key ≠ key) ∧
      (c.replaced key).limits = c.limits := by
  unfold RevisionedCache.replaced
  cases hfound : c.entries.lookup key with
  | some found =>
    obtain ⟨n, hn, rfl, rfl⟩ := h.of_lookup hfound
    exact ⟨h.eraseLocked hn, rfl⟩
  | none =>
    have hself : ns.filter (fun n => n.key ≠ key) = ns := by
      refine List.filter_eq_self.2 fun n hn => decide_eq_true fun heq => ?_
      exact AList.lookup_eq_none.1 hfound (h.mem_iff.2 (heq ▸ List.mem_map_of_mem hn))
    exact ⟨hself.symm ▸ h, rfl⟩

end RevisionedCache

end Jevt
