import Mathlib.Algebra.BigOperators.Group.List.Basic
import Mathlib.Algebra.GroupWithZero.Nat
import Jevt.Library.Keyed
import Jevt.Library.Ordered

/-!
# Ordered maps

A map that carries the order of its keys (`OrderedMap`), with the assignment to a key and its
removal. Assigning is the same as removing the key and adding an entry (`entries_assign_perm`), so
that the sum of the values after an assignment follows from what is left without the key
(`sum_assign`). A map is what is found in it (`ext_find`), so that entries with distinct keys make
the same map in whatever order they are put in (`insertAll_perm`).
-/

namespace Jevt.Library

/-- What is found under a key in a list with a first entry. -/
theorem lookup_cons_eq_ite {κ α : Type*} [BEq κ] [LawfulBEq κ] [DecidableEq κ] (k : κ)
    (entry : κ × α) (m : List (κ × α)) :
    (entry :: m).lookup k = if k = entry.1 then some entry.2 else m.lookup k := by
  rw [List.lookup_cons]
  by_cases hk : k = entry.1
  · simp [hk]
  · simp [hk, beq_false_of_ne hk]

section
variable {κ α : Type*} [LT κ] [DecidableLT κ] [BEq κ] [LawfulBEq κ]

/-- The value of a key after an assignment. -/
theorem lookup_insertKey [DecidableEq κ] (k k' : κ) (v : α) (m : List (κ × α)) :
    (insertKey k v m).lookup k' = if k' = k then some v else m.lookup k' := by
  induction m with
  | nil => simp [insertKey, lookup_cons_eq_ite]
  | cons entry m ih =>
    rw [insertKey]
    split
    · rw [lookup_cons_eq_ite]
    · split
      · next hk =>
        obtain rfl := eq_of_beq hk
        by_cases hk' : k' = entry.1 <;> simp [lookup_cons_eq_ite, hk']
      · next hk =>
        have hne : entry.1 ≠ k := fun heq => hk (beq_of_eq heq.symm)
        rw [lookup_cons_eq_ite, lookup_cons_eq_ite, ih]
        by_cases hk' : k' = entry.1
        · simp [hk', hne]
        · simp [hk']

/-- The entries of the other keys after an assignment. -/
theorem filter_insertKey [DecidableEq κ] (k : κ) (v : α) (m : List (κ × α)) :
    (insertKey k v m).filter (fun entry => entry.1 ≠ k) = m.filter fun entry => entry.1 ≠ k := by
  induction m with
  | nil => simp [insertKey]
  | cons entry m ih =>
    rw [insertKey]
    split
    · simp
    · split
      · next hk => simp [eq_of_beq hk]
      · simp only [List.filter_cons, ih]

end

/-- A map whose entries are in the order of their keys. -/
structure OrderedMap (κ α : Type*) [LT κ] where
  entries : List (κ × α)
  ordered : (entries.map Prod.fst).Pairwise (· < ·)
  deriving DecidableEq

namespace OrderedMap

variable {κ α : Type*} [LT κ]

/-- The map without entries. -/
def empty : OrderedMap κ α :=
  ⟨[], .nil⟩

/-- The keys of a map, in order. -/
def keys (m : OrderedMap κ α) : List κ :=
  m.entries.map Prod.fst

/-- The number of entries. -/
def size (m : OrderedMap κ α) : Nat :=
  m.entries.length

/-- The number of keys. -/
@[simp] theorem length_keys (m : OrderedMap κ α) : m.keys.length = m.size :=
  List.length_map _

/-- The map without entries has none. -/
@[simp] theorem entries_empty : (empty : OrderedMap κ α).entries = [] := rfl

/-- The keys are distinct. -/
theorem nodup_keys [Std.Irrefl (α := κ) (· < ·)] (m : OrderedMap κ α) : m.keys.Nodup :=
  m.ordered.imp fun {a b} (hlt : a < b) (heq : a = b) => Std.Irrefl.irrefl b (heq ▸ hlt)

section
variable [BEq κ]

/-- The value of a key. -/
def find (k : κ) (m : OrderedMap κ α) : Option α :=
  m.entries.lookup k

/-- Whether a key is there. -/
def contains (k : κ) (m : OrderedMap κ α) : Bool :=
  (m.find k).isSome

/-- Nothing is found in the map without entries. -/
@[simp] theorem find_empty (k : κ) : (empty : OrderedMap κ α).find k = none := rfl

/-- What is found under a key is an entry. -/
theorem mem_of_find [LawfulBEq κ] {m : OrderedMap κ α} {k : κ} {v : α} (h : m.find k = some v) :
    (k, v) ∈ m.entries :=
  mem_of_lookup h

/-- A key that nothing is found under is not there. -/
theorem find_eq_none_iff [LawfulBEq κ] {m : OrderedMap κ α} {k : κ} :
    m.find k = none ↔ k ∉ m.keys := by
  simp only [find, keys, List.lookup_eq_none_iff, List.mem_map, bne_iff_ne]
  constructor
  · rintro h ⟨entry, hentry, rfl⟩
    exact h entry hentry rfl
  · intro h entry hentry heq
    exact h ⟨entry, hentry, heq.symm⟩

/-- A key is there or not. -/
@[simp] theorem contains_iff [LawfulBEq κ] {m : OrderedMap κ α} {k : κ} :
    m.contains k = true ↔ k ∈ m.keys := by
  rw [contains, Option.isSome_iff_ne_none, Ne, find_eq_none_iff, not_not]

end

section
variable [DecidableEq κ]

/-- Removes a key. -/
def erase (k : κ) (m : OrderedMap κ α) : OrderedMap κ α :=
  ⟨m.entries.filter fun entry => entry.1 ≠ k, m.ordered.sublist (List.filter_sublist.map _)⟩

/-- A key that is not there can be removed. -/
theorem erase_of_notMem {k : κ} {m : OrderedMap κ α} (h : k ∉ m.keys) : m.erase k = m := by
  have hself : m.entries.filter (fun entry => entry.1 ≠ k) = m.entries :=
    List.filter_eq_self.2 fun entry hentry =>
      decide_eq_true fun heq => h (heq ▸ List.mem_map_of_mem hentry)
  simp only [erase, hself]

variable [BEq κ] [LawfulBEq κ]

/-- The value of a key after a removal. -/
theorem find_erase (k k' : κ) (m : OrderedMap κ α) :
    (m.erase k).find k' = if k' = k then none else m.find k' := by
  unfold find erase
  dsimp only
  induction m.entries with
  | nil => simp
  | cons entry entries ih =>
    by_cases hentry : entry.1 = k
    · rw [List.filter_cons_of_neg (by simpa using hentry), ih, lookup_cons_eq_ite]
      by_cases hk' : k' = k <;> simp [hk', hentry]
    · rw [List.filter_cons_of_pos (by simpa using hentry), lookup_cons_eq_ite, lookup_cons_eq_ite,
        ih]
      by_cases hk' : k' = entry.1 <;> simp [hk', hentry]

/-- An entry and those of the other keys are the whole map. -/
theorem entries_perm_erase [Std.Irrefl (α := κ) (· < ·)] {m : OrderedMap κ α} {k : κ} {v : α}
    (h : m.find k = some v) : m.entries.Perm ((k, v) :: (m.erase k).entries) :=
  perm_cons_filter (k := Prod.fst) m.nodup_keys (mem_of_find h)

end

section
variable [DecidableEq κ] [BEq κ] [LawfulBEq κ] [DecidableLT κ] [Std.Trichotomous (α := κ) (· < ·)]
  [IsTrans κ (· < ·)]

/-- Assigns to a key. -/
def assign (k : κ) (v : α) (m : OrderedMap κ α) : OrderedMap κ α :=
  ⟨insertKey k v m.entries, pairwise_insertKey m.ordered⟩

/-- The value of a key after an assignment. -/
theorem find_assign (k k' : κ) (v : α) (m : OrderedMap κ α) :
    (m.assign k v).find k' = if k' = k then some v else m.find k' :=
  lookup_insertKey k k' v m.entries

variable [Std.Irrefl (α := κ) (· < ·)]

/-- Assigning to a key is removing it and adding an entry. -/
theorem entries_assign_perm (k : κ) (v : α) (m : OrderedMap κ α) :
    (m.assign k v).entries.Perm ((k, v) :: (m.erase k).entries) := by
  have hfound : (m.assign k v).find k = some v := by rw [find_assign, if_pos rfl]
  have herase : ((m.assign k v).erase k).entries = (m.erase k).entries :=
    filter_insertKey k v m.entries
  have hperm := entries_perm_erase hfound
  rwa [herase] at hperm

/-- The sum of the values after an assignment. -/
theorem sum_assign (k : κ) (n : Nat) (m : OrderedMap κ Nat) :
    ((m.assign k n).entries.map Prod.snd).sum + (m.find k).getD 0 =
      n + (m.entries.map Prod.snd).sum := by
  have hnew := ((m.entries_assign_perm k n).map Prod.snd).sum_eq
  rw [List.map_cons, List.sum_cons] at hnew
  cases hfound : m.find k with
  | none =>
    rw [erase_of_notMem (find_eq_none_iff.1 hfound)] at hnew
    rw [hnew, Option.getD_none, Nat.add_zero]
  | some old =>
    have hold := ((entries_perm_erase hfound).map Prod.snd).sum_eq
    rw [List.map_cons, List.sum_cons] at hold
    rw [Option.getD_some]
    omega

end

section
variable [BEq κ] [LawfulBEq κ] [Std.Irrefl (α := κ) (· < ·)]

/-- What is found is what the entries are. -/
theorem mem_entries_iff {m : OrderedMap κ α} {k : κ} {v : α} :
    (k, v) ∈ m.entries ↔ m.find k = some v :=
  ⟨fun h => lookup_of_mem m.nodup_keys h, mem_of_find⟩

variable [IsTrans κ (· < ·)]

/-- Maps are equal when they have the same value for every key. -/
theorem ext_find {m m' : OrderedMap κ α} (h : ∀ k, m.find k = m'.find k) : m = m' := by
  have hmem : ∀ entry, entry ∈ m.entries ↔ entry ∈ m'.entries := fun entry => by
    rw [mem_entries_iff, mem_entries_iff, h]
  have hperm : m.entries.Perm m'.entries :=
    (List.perm_ext_iff_of_nodup (.of_map _ m.nodup_keys) (.of_map _ m'.nodup_keys)).2 hmem
  -- no two keys are each in front of the other
  have hanti : ∀ a b : κ × α, a.1 < b.1 → b.1 < a.1 → a = b := fun a b hab hba =>
    absurd (IsTrans.trans _ _ _ hab hba) (Std.Irrefl.irrefl a.1)
  have hentries : m.entries = m'.entries :=
    hperm.eq_of_pairwise (fun a b _ _ => hanti a b) (List.pairwise_map.1 m.ordered)
      (List.pairwise_map.1 m'.ordered)
  cases m
  cases m'
  simp_all

end

section
variable [BEq κ] [LawfulBEq κ] [DecidableLT κ] [Std.Trichotomous (α := κ) (· < ·)]
  [IsTrans κ (· < ·)]

/-- Puts an entry in, unless its key is there. -/
def insert (entry : κ × α) (m : OrderedMap κ α) : OrderedMap κ α :=
  if m.contains entry.1 then m else m.assign entry.1 entry.2

/-- The map of entries that are put in one after the other. -/
def insertAll (entries : List (κ × α)) : OrderedMap κ α :=
  entries.foldl (fun m entry => m.insert entry) empty

variable [DecidableEq κ]

/-- The value of a key after an insertion. -/
theorem find_insert (entry : κ × α) (m : OrderedMap κ α) (k : κ) :
    (m.insert entry).find k = (m.find k).or (if k = entry.1 then some entry.2 else none) := by
  unfold insert
  cases hcontains : m.contains entry.1 with
  | true =>
    by_cases hk : k = entry.1
    · obtain ⟨v, hv⟩ := Option.isSome_iff_exists.1 hcontains
      rw [if_pos rfl, hk, hv, Option.some_or]
    · rw [if_pos rfl, if_neg hk, Option.or_none]
  | false =>
    have hnone : m.find entry.1 = none := by simpa [contains] using hcontains
    rw [if_neg (by simp), find_assign]
    by_cases hk : k = entry.1
    · rw [if_pos hk, if_pos hk, hk, hnone, Option.none_or]
    · rw [if_neg hk, if_neg hk, Option.or_none]

/-- The first of the entries with a key is found under it. -/
theorem find_insertAll (entries : List (κ × α)) (k : κ) :
    (insertAll entries).find k = entries.lookup k := by
  have hrun : ∀ m : OrderedMap κ α,
      (entries.foldl (fun m entry => m.insert entry) m).find k =
        (m.find k).or (entries.lookup k) := by
    induction entries with
    | nil => simp
    | cons entry entries ih =>
      intro m
      rw [List.foldl_cons, ih, find_insert, lookup_cons_eq_ite, Option.or_assoc]
      by_cases hk : k = entry.1 <;> simp [hk]
  rw [insertAll, hrun, find_empty, Option.none_or]

/-- The order of insertions does not matter when the keys are distinct. -/
theorem insertAll_perm [Std.Irrefl (α := κ) (· < ·)] {entries entries' : List (κ × α)}
    (hkeys : (entries.map Prod.fst).Nodup) (h : entries.Perm entries') :
    insertAll entries = insertAll entries' := by
  have hkeys' := (h.map Prod.fst).nodup_iff.1 hkeys
  have hlookup : ∀ (l : List (κ × α)) (k : κ) (v : α), (l.map Prod.fst).Nodup →
      (l.lookup k = some v ↔ (k, v) ∈ l) := fun l k v hl =>
    ⟨mem_of_lookup, lookup_of_mem hl⟩
  refine ext_find fun k => Option.ext fun v => ?_
  rw [find_insertAll, find_insertAll, hlookup _ _ _ hkeys, hlookup _ _ _ hkeys', h.mem_iff]

end

end OrderedMap

end Jevt.Library
