import Mathlib.Data.List.Nodup

/-!
# Maps as lists in the order of their keys

A map whose entries are kept in the order of their keys is a list of pairs. `insertKey` assigns to a
key, and `ofEntries` assigns entries one after the other. As long as the keys are distinct the map
holds exactly the entries (`ofEntries_perm`), so that looking a key up finds its entry
(`lookup_ofEntries`).
-/

namespace Jevt.Library

variable {κ α : Type*} [BEq κ] [LawfulBEq κ]

/-- The value of an entry is found under its key. -/
theorem lookup_of_mem {m : List (κ × α)} (h : (m.map Prod.fst).Nodup) {k : κ} {v : α}
    (hmem : (k, v) ∈ m) : m.lookup k = some v := by
  induction m with
  | nil => cases hmem
  | cons entry m ih =>
    obtain ⟨hentry, hm⟩ := List.nodup_cons.1 (List.map_cons (f := Prod.fst) ▸ h)
    rw [List.lookup_cons]
    rcases List.mem_cons.1 hmem with rfl | hmem
    · rw [beq_self_eq_true]
    · have hne : k ≠ entry.1 := fun hk => hentry (hk ▸ List.mem_map_of_mem (f := Prod.fst) hmem)
      rw [beq_false_of_ne hne]
      exact ih hm hmem

/-- What is found under a key is an entry. -/
theorem mem_of_lookup {m : List (κ × α)} {k : κ} {v : α} (h : m.lookup k = some v) :
    (k, v) ∈ m := by
  induction m with
  | nil => cases h
  | cons entry m ih =>
    rw [List.lookup_cons] at h
    cases hk : k == entry.1 with
    | true =>
      rw [hk] at h
      obtain rfl := Option.some.inj h
      rw [eq_of_beq hk]
      exact List.mem_cons_self
    | false =>
      rw [hk] at h
      exact List.mem_cons_of_mem _ (ih h)

variable [LT κ] [DecidableLT κ]

/-- Assigning to a key replaces its value, or puts the key in its place. -/
def insertKey (k : κ) (v : α) : List (κ × α) → List (κ × α)
  | [] => [(k, v)]
  | entry :: rest =>
    if k < entry.1 then (k, v) :: entry :: rest
    else if k == entry.1 then (k, v) :: rest
    else entry :: insertKey k v rest

/-- The map of entries that are assigned one after the other. -/
def ofEntries (entries : List (κ × α)) : List (κ × α) :=
  entries.foldl (fun m entry => insertKey entry.1 entry.2 m) []

/-- Assigning to a new key adds an entry. -/
theorem insertKey_perm {k : κ} (v : α) {m : List (κ × α)} (hnew : k ∉ m.map Prod.fst) :
    (insertKey k v m).Perm ((k, v) :: m) := by
  induction m with
  | nil => exact .refl _
  | cons entry m ih =>
    rw [List.map_cons, List.mem_cons, not_or] at hnew
    rw [insertKey, if_neg (fun hk => hnew.1 (eq_of_beq hk))]
    split
    · exact .refl _
    · exact ((ih hnew.2).cons entry).trans (.swap _ _ _)

/-- The keys after an assignment. -/
theorem mem_keys_insertKey {k k' : κ} {v : α} {m : List (κ × α)} :
    k' ∈ (insertKey k v m).map Prod.fst ↔ k' = k ∨ k' ∈ m.map Prod.fst := by
  induction m with
  | nil => simp [insertKey]
  | cons entry m ih =>
    rw [insertKey]
    split
    · simp
    · split
      · next hk => simp [eq_of_beq hk]
      · rw [List.map_cons, List.mem_cons, ih, List.map_cons, List.mem_cons]
        tauto

/-- An assignment keeps the order. -/
theorem pairwise_insertKey [Std.Trichotomous (α := κ) (· < ·)]
    [Trans (α := κ) (· < ·) (· < ·) (· < ·)] {k : κ} {v : α} {m : List (κ × α)}
    (h : (m.map Prod.fst).Pairwise (· < ·)) :
    ((insertKey k v m).map Prod.fst).Pairwise (· < ·) := by
  induction m with
  | nil => simp [insertKey]
  | cons entry m ih =>
    obtain ⟨hentry, hm⟩ := List.pairwise_cons.1 (List.map_cons (f := Prod.fst) ▸ h)
    rw [insertKey]
    split
    · next hlt =>
      rw [List.map_cons, List.pairwise_cons]
      refine ⟨fun k' hk' => ?_, h⟩
      rw [List.map_cons, List.mem_cons] at hk'
      rcases hk' with rfl | hk'
      · exact hlt
      · exact Trans.trans hlt (hentry k' hk')
    · next hge =>
      split
      · next hk =>
        rw [List.map_cons, eq_of_beq hk]
        exact h
      · next hne =>
        have hgt : entry.1 < k := by
          rcases Std.lt_trichotomy k entry.1 with hlt | heq | hgt
          · exact absurd hlt hge
          · exact absurd (beq_of_eq heq) hne
          · exact hgt
        rw [List.map_cons, List.pairwise_cons]
        refine ⟨fun k' hk' => ?_, ih hm⟩
        rcases mem_keys_insertKey.1 hk' with rfl | hk'
        · exact hgt
        · exact hentry k' hk'

/-- Assigning distinct new keys adds their entries. -/
theorem foldl_insertKey_perm {entries m : List (κ × α)}
    (h : (entries.map Prod.fst).Nodup) (hnew : ∀ k ∈ entries.map Prod.fst, k ∉ m.map Prod.fst) :
    (entries.foldl (fun m entry => insertKey entry.1 entry.2 m) m).Perm (entries ++ m) := by
  induction entries generalizing m with
  | nil => exact .refl _
  | cons entry entries ih =>
    obtain ⟨hentry, hentries⟩ := List.nodup_cons.1 (List.map_cons (f := Prod.fst) ▸ h)
    obtain ⟨hfirst, hrest⟩ := List.forall_mem_cons.1 (List.map_cons (f := Prod.fst) ▸ hnew)
    rw [List.foldl_cons]
    refine (ih hentries fun k hk hmem => ?_).trans ?_
    · rcases mem_keys_insertKey.1 hmem with rfl | hmem
      · exact hentry hk
      · exact hrest k hk hmem
    · exact ((insertKey_perm entry.2 hfirst).append_left entries).trans List.perm_middle

/-- The map of entries with distinct keys holds exactly these entries. -/
theorem ofEntries_perm {entries : List (κ × α)} (h : (entries.map Prod.fst).Nodup) :
    (ofEntries entries).Perm entries := by
  simpa [ofEntries] using foldl_insertKey_perm (m := []) h (by simp)

/-- An entry is found in the map of entries with distinct keys. -/
theorem lookup_ofEntries {entries : List (κ × α)} (h : (entries.map Prod.fst).Nodup) {k : κ} {v : α}
    (hmem : (k, v) ∈ entries) : (ofEntries entries).lookup k = some v := by
  have hperm := ofEntries_perm h
  exact lookup_of_mem ((hperm.map Prod.fst).nodup_iff.2 h) (hperm.mem_iff.2 hmem)

/-- A map is in the order of its keys. -/
theorem pairwise_ofEntries [Std.Trichotomous (α := κ) (· < ·)]
    [Trans (α := κ) (· < ·) (· < ·) (· < ·)] (entries : List (κ × α)) :
    ((ofEntries entries).map Prod.fst).Pairwise (· < ·) := by
  have hfold : ∀ m : List (κ × α), (m.map Prod.fst).Pairwise (· < ·) →
      ((entries.foldl (fun m entry => insertKey entry.1 entry.2 m) m).map Prod.fst).Pairwise
        (· < ·) := by
    induction entries with
    | nil => exact fun _ h => h
    | cons entry entries ih => exact fun m h => ih _ (pairwise_insertKey h)
  exact hfold [] .nil

end Jevt.Library
