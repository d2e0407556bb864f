import Jevt.Library.Keyed
import Jevt.Library.Run
import Jevt.Knowledge.Key

/-!
# The invariant of the knowledge graph

A graph holds four containers that must agree: the stored facts, the keys of the superseded
versions, the set of the events it has accepted and the order they were accepted in.
`StoreConsistent` relates the first two, `WindowConsistent` the last two, and
`KnowledgeGraph.Consistent` is both. Every operation keeps it (`Consistent.apply`), whether it
succeeds, refuses or throws, so every reachable graph has it (`IsReachable.consistent`).

`ingest_record` reaches its final state in three moves, and the invariant is followed along them:
marking the other versions of the proposition (`StoreConsistent.mark`), making room
(`StoreConsistent.evict`), and storing the version, either in place
(`StoreConsistent.reactivate`) or at the end (`StoreConsistent.append`).
-/

namespace Jevt

open Library

/-- The stored facts agree with the superseded marks. Facts are valid, within capacity, and no
two are the same version; every mark is the key of a stored fact; an unmarked fact is the only
one of its proposition and the youngest; non-session facts belong to the current run. -/
structure StoreConsistent (limits : KnowledgeLimits) (currentRun : Bytes)
    (facts : List KnowledgeFact) (superseded : Finset Bytes) : Prop where
  capacity : facts.length ≤ limits.facts
  valid : ∀ f ∈ facts, ValidFact limits f
  keys : (facts.map KnowledgeFact.key).Nodup
  marks : ∀ k ∈ superseded, ∃ f ∈ facts, f.key = k
  active : ∀ f ∈ facts, ∀ h ∈ facts, h.identityKey = f.identityKey →
    f.key ∉ superseded → h.key ∉ superseded → h = f
  latest : ∀ f ∈ facts, ∀ h ∈ facts, h.identityKey = f.identityKey →
    f.key ∉ superseded → h.tick ≤ f.tick
  run : ∀ f ∈ facts, f.scope ≠ .session → f.runId = currentRun

/-- The window lists the accepted events without repetition, within its limit. -/
structure WindowConsistent (limit : Nat) (eventOrder : List Bytes) (seenEvents : Finset Bytes) :
    Prop where
  nodup : eventOrder.Nodup
  size : eventOrder.length ≤ limit
  seen : ∀ e, e ∈ seenEvents ↔ e ∈ eventOrder

/-- The invariant of a graph. The limits are those the constructor accepts. -/
structure KnowledgeGraph.Consistent (g : KnowledgeGraph) : Prop where
  positive : 0 < g.limits.facts ∧ 0 < g.limits.deduplicationIds ∧ 0 < g.limits.fieldBytes
  store : StoreConsistent g.limits g.currentRun g.facts g.superseded
  window : WindowConsistent g.limits.deduplicationIds g.eventOrder g.seenEvents

/-! ## The scan for the version -/

section
variable {fact f : KnowledgeFact} (n : Nat) (marks : Finset Bytes) (found : Option Nat)

/-- A fact of another proposition is passed over. -/
theorem scanVersion_of_other (h : f.identityKey ≠ fact.identityKey) :
    KnowledgeGraph.scanVersion fact (marks, found) (f, n) = (marks, found) :=
  if_pos h

/-- The version the new fact repeats is remembered by its position. -/
theorem scanVersion_of_match (h : f.identityKey = fact.identityKey) (hkey : f.key = fact.key) :
    KnowledgeGraph.scanVersion fact (marks, found) (f, n) = (marks, some n) := by
  rw [KnowledgeGraph.scanVersion, if_neg (not_not.2 h), if_pos hkey]

/-- Any other version of the proposition is marked superseded. -/
theorem scanVersion_of_conflict (h : f.identityKey = fact.identityKey)
    (hkey : f.key ≠ fact.key) :
    KnowledgeGraph.scanVersion fact (marks, found) (f, n) = (insert f.key marks, found) := by
  rw [KnowledgeGraph.scanVersion, if_neg (not_not.2 h), if_neg hkey]

end

/-- The marks after the scan are the old ones and the keys of the other versions of the
proposition. -/
theorem mem_scan_fst (fact : KnowledgeFact) (k : Bytes) :
    ∀ (facts : List KnowledgeFact) (n : Nat) (marks : Finset Bytes) (found : Option Nat),
      k ∈ ((facts.zipIdx n).foldl (KnowledgeGraph.scanVersion fact) (marks, found)).1 ↔
        k ∈ marks ∨ ∃ f ∈ facts, f.identityKey = fact.identityKey ∧ f.key ≠ fact.key ∧ f.key = k
  | [], _, _, _ => by simp
  | f :: facts, n, marks, found => by
      rw [List.zipIdx_cons, List.foldl_cons, List.exists_mem_cons_iff]
      by_cases hid : f.identityKey = fact.identityKey
      · by_cases hkey : f.key = fact.key
        · rw [scanVersion_of_match n marks found hid hkey, mem_scan_fst fact k facts]
          simp only [hkey, ne_eq, not_true_eq_false, false_and, and_false, false_or]
        · rw [scanVersion_of_conflict n marks found hid hkey, mem_scan_fst fact k facts,
            Finset.mem_insert, eq_comm]
          simp only [hid, hkey, ne_eq, not_false_eq_true, true_and, or_assoc, or_left_comm]
      · rw [scanVersion_of_other n marks found hid, mem_scan_fst fact k facts]
        simp only [hid, false_and, false_or]

/-- The position the scan returns is the one of a stored fact with the key of `fact`, or the one
it started from. -/
theorem scan_snd_some (fact : KnowledgeFact) (i : Nat) :
    ∀ (facts : List KnowledgeFact) (n : Nat) (marks : Finset Bytes) (found : Option Nat),
      ((facts.zipIdx n).foldl (KnowledgeGraph.scanVersion fact) (marks, found)).2 = some i →
        found = some i ∨ ∃ f, n ≤ i ∧ facts[i - n]? = some f ∧ f.key = fact.key
  | [], _, _, _, h => .inl (by simpa using h)
  | f :: facts, n, marks, found, h => by
      have later : ∀ (marks' : Finset Bytes) (found' : Option Nat),
          ((facts.zipIdx (n + 1)).foldl (KnowledgeGraph.scanVersion fact) (marks', found')).2 =
            some i → found' = some i ∨
              ∃ f', n ≤ i ∧ (f :: facts)[i - n]? = some f' ∧ f'.key = fact.key := by
        intro marks' found' h'
        rcases scan_snd_some fact i facts (n + 1) marks' found' h' with h' | ⟨f', hn, hf', hkey⟩
        · exact .inl h'
        · refine .inr ⟨f', by omega, ?_, hkey⟩
          rw [show i - n = (i - (n + 1)) + 1 by omega, List.getElem?_cons_succ]
          exact hf'
      rw [List.zipIdx_cons, List.foldl_cons] at h
      by_cases hid : f.identityKey = fact.identityKey
      · by_cases hkey : f.key = fact.key
        · rw [scanVersion_of_match n marks found hid hkey] at h
          rcases later _ _ h with hi | hlater
          · obtain rfl : n = i := Option.some.inj hi
            exact .inr ⟨f, Nat.le_refl _, by simp, hkey⟩
          · exact .inr hlater
        · rw [scanVersion_of_conflict n marks found hid hkey] at h
          exact later _ _ h
      · rw [scanVersion_of_other n marks found hid] at h
        exact later _ _ h

/-- A scan that returns no position has passed no version with the key of `fact`. -/
theorem scan_snd_none (fact : KnowledgeFact) :
    ∀ (facts : List KnowledgeFact) (n : Nat) (marks : Finset Bytes) (found : Option Nat),
      ((facts.zipIdx n).foldl (KnowledgeGraph.scanVersion fact) (marks, found)).2 = none →
        found = none ∧ ∀ f ∈ facts, f.identityKey = fact.identityKey → f.key ≠ fact.key
  | [], _, _, _, h => ⟨by simpa using h, by simp⟩
  | f :: facts, n, marks, found, h => by
      rw [List.zipIdx_cons, List.foldl_cons] at h
      rw [List.forall_mem_cons]
      by_cases hid : f.identityKey = fact.identityKey
      · by_cases hkey : f.key = fact.key
        · rw [scanVersion_of_match n marks found hid hkey] at h
          exact absurd (scan_snd_none fact facts _ _ _ h).1 (by simp)
        · rw [scanVersion_of_conflict n marks found hid hkey] at h
          obtain ⟨hfound, hrest⟩ := scan_snd_none fact facts _ _ _ h
          exact ⟨hfound, fun _ => hkey, hrest⟩
      · rw [scanVersion_of_other n marks found hid] at h
        obtain ⟨hfound, hrest⟩ := scan_snd_none fact facts _ _ _ h
        exact ⟨hfound, fun hid' => absurd hid' hid, hrest⟩

/-! ## The in-place update -/

section
variable {limits : KnowledgeLimits} (previous fact : KnowledgeFact)

@[simp] theorem refresh_identityKey :
    (KnowledgeGraph.refresh previous fact).identityKey = previous.identityKey := by
  unfold KnowledgeGraph.refresh; split <;> rfl

@[simp] theorem refresh_key : (KnowledgeGraph.refresh previous fact).key = previous.key := by
  unfold KnowledgeGraph.refresh; split <;> rfl

@[simp] theorem refresh_scope : (KnowledgeGraph.refresh previous fact).scope = previous.scope := by
  unfold KnowledgeGraph.refresh; split <;> rfl

@[simp] theorem refresh_runId : (KnowledgeGraph.refresh previous fact).runId = previous.runId := by
  unfold KnowledgeGraph.refresh; split <;> rfl

@[simp] theorem refresh_subject :
    (KnowledgeGraph.refresh previous fact).subject = previous.subject := by
  unfold KnowledgeGraph.refresh; split <;> rfl

@[simp] theorem refresh_relation :
    (KnowledgeGraph.refresh previous fact).relation = previous.relation := by
  unfold KnowledgeGraph.refresh; split <;> rfl

@[simp] theorem refresh_object :
    (KnowledgeGraph.refresh previous fact).object = previous.object := by
  unfold KnowledgeGraph.refresh; split <;> rfl

@[simp] theorem refresh_tick : (KnowledgeGraph.refresh previous fact).tick = fact.tick := by
  unfold KnowledgeGraph.refresh; split <;> rfl

@[simp] theorem refresh_expiresAt :
    (KnowledgeGraph.refresh previous fact).expiresAt = fact.expiresAt := by
  unfold KnowledgeGraph.refresh; split <;> rfl

/-- A stored fact after `fact` has updated the version it says again. -/
def reassert (fact f : KnowledgeFact) : KnowledgeFact :=
  if f.key = fact.key then KnowledgeGraph.refresh f fact else f

@[simp] theorem reassert_identityKey :
    (reassert fact previous).identityKey = previous.identityKey := by
  unfold reassert; split <;> simp

@[simp] theorem reassert_key : (reassert fact previous).key = previous.key := by
  unfold reassert; split <;> simp

@[simp] theorem reassert_scope : (reassert fact previous).scope = previous.scope := by
  unfold reassert; split <;> simp

@[simp] theorem reassert_runId : (reassert fact previous).runId = previous.runId := by
  unfold reassert; split <;> simp

variable {previous fact}

theorem reassert_of_key (h : previous.key = fact.key) :
    reassert fact previous = KnowledgeGraph.refresh previous fact :=
  if_pos h

theorem reassert_of_ne (h : previous.key ≠ fact.key) : reassert fact previous = previous :=
  if_neg h

/-- The update of a valid version from a valid fact is valid: every field of it is a field of one
of the two. -/
theorem ValidFact.refresh (hp : ValidFact limits previous) (hf : ValidFact limits fact) :
    ValidFact limits (KnowledgeGraph.refresh previous fact) := by
  have hpriority : max previous.priority fact.priority ≤ 1000 := max_le hp.priority hf.priority
  have hpf := hp.fields
  have hff := hf.fields
  simp only [List.mem_cons, List.not_mem_nil, or_false, forall_eq_or_imp, forall_eq] at hpf hff
  unfold KnowledgeGraph.refresh
  split
  · refine ⟨hp.scope, hf.evidence, ?_, hp.attributes, hpriority⟩
    simp only [List.mem_cons, List.not_mem_nil, or_false, forall_eq_or_imp, forall_eq]
    exact ⟨hpf.1, hpf.2.1, hpf.2.2.1, hpf.2.2.2.1, hff.2.2.2.2.1, hff.2.2.2.2.2.1,
      hpf.2.2.2.2.2.2⟩
  · exact ⟨hp.scope, hp.evidence, hp.fields, hp.attributes, hpriority⟩

theorem ValidFact.reassert (hp : ValidFact limits previous) (hf : ValidFact limits fact) :
    ValidFact limits (reassert fact previous) := by
  unfold Jevt.reassert
  split
  · exact hp.refresh hf
  · exact hp

end

/-! ## The moves of `ingest_record` on the store -/

section
variable {limits : KnowledgeLimits} {currentRun : Bytes} {facts : List KnowledgeFact}
  {superseded : Finset Bytes} {fact : KnowledgeFact}

/-- Marking more stored versions keeps the invariant. -/
theorem StoreConsistent.mark (h : StoreConsistent limits currentRun facts superseded)
    {marks : Finset Bytes} (hsub : superseded ⊆ marks)
    (hmarks : ∀ k ∈ marks, k ∉ superseded → ∃ f ∈ facts, f.key = k) :
    StoreConsistent limits currentRun facts marks where
  capacity := h.capacity
  valid := h.valid
  keys := h.keys
  marks k hk := by
    by_cases hk' : k ∈ superseded
    · exact h.marks k hk'
    · exact hmarks k hk hk'
  active f hf f' hf' hid hact hact' :=
    h.active f hf f' hf' hid (fun hk => hact (hsub hk)) (fun hk => hact' (hsub hk))
  latest f hf f' hf' hid hact := h.latest f hf f' hf' hid fun hk => hact (hsub hk)
  run := h.run

/-- Removing a stored fact together with its mark keeps the invariant. -/
theorem StoreConsistent.evict (h : StoreConsistent limits currentRun facts superseded) {i : Nat}
    {gone : KnowledgeFact} (hi : facts[i]? = some gone) :
    StoreConsistent limits currentRun (facts.eraseIdx i) (superseded.erase gone.key) := by
  have hmem : ∀ f, f ∈ facts.eraseIdx i ↔ f ∈ facts ∧ f.key ≠ gone.key := fun f =>
    mem_eraseIdx_iff h.keys hi
  have hunmarked : ∀ f ∈ facts.eraseIdx i, f.key ∉ superseded.erase gone.key →
      f.key ∉ superseded := fun f hf hk hk' =>
    hk (Finset.mem_erase.2 ⟨((hmem f).1 hf).2, hk'⟩)
  refine ⟨?capacity, ?valid, ?keys, ?marks, ?active, ?latest, ?run⟩
  case capacity => exact (List.length_eraseIdx_le facts i).trans h.capacity
  case valid => exact fun f hf => h.valid f ((hmem f).1 hf).1
  case keys => exact h.keys.sublist ((List.eraseIdx_sublist facts i).map _)
  case marks =>
    intro k hk
    obtain ⟨hne, hk⟩ := Finset.mem_erase.1 hk
    obtain ⟨f, hf, rfl⟩ := h.marks k hk
    exact ⟨f, (hmem f).2 ⟨hf, hne⟩, rfl⟩
  case active =>
    intro f hf f' hf' hid hact hact'
    exact h.active f ((hmem f).1 hf).1 f' ((hmem f').1 hf').1 hid (hunmarked f hf hact)
      (hunmarked f' hf' hact')
  case latest =>
    intro f hf f' hf' hid hact
    exact h.latest f ((hmem f).1 hf).1 f' ((hmem f').1 hf').1 hid (hunmarked f hf hact)
  case run => exact fun f hf => h.run f ((hmem f).1 hf).1

/-- Storing a new version keeps the invariant, when there is room for it and every stored version
of its proposition is marked and not younger. -/
theorem StoreConsistent.append (h : StoreConsistent limits currentRun facts superseded)
    (hroom : facts.length < limits.facts) (hvalid : ValidFact limits fact)
    (hmarked : ∀ f ∈ facts, f.identityKey = fact.identityKey →
      f.key ≠ fact.key ∧ f.key ∈ superseded ∧ f.tick ≤ fact.tick)
    (hrun : fact.scope ≠ .session → fact.runId = currentRun) :
    StoreConsistent limits currentRun (facts ++ [fact]) superseded := by
  have hfresh : ∀ f ∈ facts, f.key ≠ fact.key := fun f hf hkey =>
    (hmarked f hf ((h.valid f hf).identityKey_eq_of_key_eq hvalid hkey)).1 hkey
  have hcases : ∀ f ∈ facts ++ [fact], f ∈ facts ∨ f = fact := by
    intro f hf
    rcases List.mem_append.1 hf with hf | hf
    · exact .inl hf
    · exact .inr (List.mem_singleton.1 hf)
  refine ⟨?capacity, ?valid, ?keys, ?marks, ?active, ?latest, ?run⟩
  case capacity =>
    rw [List.length_append, List.length_singleton]
    exact hroom
  case valid =>
    intro f hf
    rcases hcases f hf with hf | rfl
    · exact h.valid f hf
    · exact hvalid
  case keys =>
    rw [List.map_append, List.nodup_append]
    refine ⟨h.keys, by simp, ?_⟩
    intro k hk k' hk' heq
    obtain ⟨f, hf, rfl⟩ := List.mem_map.1 hk
    obtain rfl := List.mem_singleton.1 hk'
    exact hfresh f hf heq
  case marks =>
    intro k hk
    obtain ⟨f, hf, rfl⟩ := h.marks k hk
    exact ⟨f, List.mem_append_left _ hf, rfl⟩
  case active =>
    intro f hf f' hf' hid hact hact'
    rcases hcases f hf with hin | rfl <;> rcases hcases f' hf' with hin' | rfl
    · exact h.active f hin f' hin' hid hact hact'
    · exact absurd (hmarked f hin hid.symm).2.1 hact
    · exact absurd (hmarked f' hin' hid).2.1 hact'
    · rfl
  case latest =>
    intro f hf f' hf' hid hact
    rcases hcases f hf with hin | rfl <;> rcases hcases f' hf' with hin' | rfl
    · exact h.latest f hin f' hin' hid hact
    · exact absurd (hmarked f hin hid.symm).2.1 hact
    · exact (hmarked f' hin' hid).2.2
    · exact Nat.le_refl _
  case run =>
    intro f hf hscope
    rcases hcases f hf with hf | rfl
    · exact h.run f hf hscope
    · exact hrun hscope

/-- Updating the stored version with the key of `fact` keeps the invariant, when every other
version of its proposition is marked and no version is younger. -/
theorem StoreConsistent.reactivate (h : StoreConsistent limits currentRun facts superseded)
    {i : Nat} {previous : KnowledgeFact} (hi : facts[i]? = some previous)
    (hkey : previous.key = fact.key) (hvalid : ValidFact limits fact)
    (hmarked : ∀ f ∈ facts, f.identityKey = fact.identityKey →
      (f.key ≠ fact.key → f.key ∈ superseded) ∧ f.tick ≤ fact.tick) :
    StoreConsistent limits currentRun (facts.modify i (KnowledgeGraph.refresh · fact))
      (superseded.erase fact.key) := by
  have hmap : facts.modify i (KnowledgeGraph.refresh · fact) = facts.map (reassert fact) := by
    rw [modify_eq_map h.keys hi, hkey]
    rfl
  have hid : ∀ f ∈ facts, f.key = fact.key → f.identityKey = fact.identityKey := fun f hf heq =>
    (h.valid f hf).identityKey_eq_of_key_eq hvalid heq
  -- An unmarked version of the proposition of `fact` is the one that was updated.
  have hactive : ∀ f ∈ facts, f.identityKey = fact.identityKey →
      f.key ∉ superseded.erase fact.key → f.key = fact.key := by
    intro f hf hf' hact
    by_contra hne
    exact hact (Finset.mem_erase.2 ⟨hne, (hmarked f hf hf').1 hne⟩)
  have hother : ∀ f ∈ facts, f.identityKey ≠ fact.identityKey →
      f.key ∉ superseded.erase fact.key → f.key ∉ superseded := fun f hf hf' hact hk =>
    hact (Finset.mem_erase.2 ⟨fun heq => hf' (hid f hf heq), hk⟩)
  rw [hmap]
  refine ⟨?capacity, ?valid, ?keys, ?marks, ?active, ?latest, ?run⟩
  case capacity =>
    rw [List.length_map]
    exact h.capacity
  case valid =>
    rw [List.forall_mem_map]
    intro f hf
    exact (h.valid f hf).reassert hvalid
  case keys =>
    have hkeys : (facts.map (reassert fact)).map KnowledgeFact.key =
        facts.map KnowledgeFact.key := by
      rw [List.map_map]
      exact List.map_congr_left fun f _ => reassert_key f fact
    rw [hkeys]
    exact h.keys
  case marks =>
    intro k hk
    obtain ⟨f, hf, rfl⟩ := h.marks k (Finset.mem_of_mem_erase hk)
    exact ⟨reassert fact f, List.mem_map_of_mem hf, reassert_key f fact⟩
  case active =>
    simp only [List.forall_mem_map, reassert_key, reassert_identityKey]
    intro f hf f' hf' hidf hact hact'
    suffices f' = f by rw [this]
    by_cases hf₀ : f.identityKey = fact.identityKey
    · exact eq_of_key_eq h.keys hf' hf ((hactive f' hf' (hidf.trans hf₀) hact').trans
        (hactive f hf hf₀ hact).symm)
    · exact h.active f hf f' hf' hidf (hother f hf hf₀ hact)
        (hother f' hf' (fun heq => hf₀ (hidf.symm.trans heq)) hact')
  case latest =>
    simp only [List.forall_mem_map, reassert_key, reassert_identityKey]
    intro f hf f' hf' hidf hact
    by_cases hf₀ : f.identityKey = fact.identityKey
    · rw [reassert_of_key (hactive f hf hf₀ hact), refresh_tick]
      by_cases hf₁ : f'.key = fact.key
      · rw [reassert_of_key hf₁, refresh_tick]
      · rw [reassert_of_ne hf₁]
        exact (hmarked f' hf' (hidf.trans hf₀)).2
    · rw [reassert_of_ne fun heq => hf₀ (hid f hf heq),
        reassert_of_ne fun heq => hf₀ (hidf.symm.trans (hid f' hf' heq))]
      exact h.latest f hf f' hf' hidf (hother f hf hf₀ hact)
  case run =>
    simp only [List.forall_mem_map, reassert_scope, reassert_runId]
    exact h.run

/-- Keeping some of the stored facts, and erasing the marks of the others, keeps the invariant.
The kept non-session facts may be bound to another run than before. -/
theorem StoreConsistent.filter (h : StoreConsistent limits currentRun facts superseded)
    (p : KnowledgeFact → Bool) {run : Bytes}
    (hrun : ∀ f ∈ facts, p f = true → f.scope ≠ .session → f.runId = run) :
    StoreConsistent limits run (facts.filter p)
      ((facts.filter fun f => !p f).foldl (fun marks f => marks.erase f.key) superseded) := by
  set marks := (facts.filter fun f => !p f).foldl (fun marks f => marks.erase f.key) superseded
    with hmarks
  have hmem : ∀ k, k ∈ marks ↔ k ∈ superseded ∧ ∀ f ∈ facts, p f = false → f.key ≠ k := by
    intro k
    rw [hmarks, mem_foldl_erase]
    simp only [List.mem_filter, Bool.not_eq_true', and_imp]
  have hunmarked : ∀ f ∈ facts.filter p, f.key ∉ marks → f.key ∉ superseded := by
    intro f hf hk hk'
    obtain ⟨hf, hpf⟩ := List.mem_filter.1 hf
    refine hk ((hmem _).2 ⟨hk', fun f' hf' hpf' heq => ?_⟩)
    obtain rfl := eq_of_key_eq h.keys hf' hf heq
    rw [hpf] at hpf'
    cases hpf'
  have hsub : ∀ f ∈ facts.filter p, f ∈ facts := fun f hf => (List.mem_filter.1 hf).1
  refine ⟨?capacity, ?valid, ?keys, ?marks, ?active, ?latest, ?run⟩
  case capacity => exact (List.length_filter_le p facts).trans h.capacity
  case valid => exact fun f hf => h.valid f (hsub f hf)
  case keys => exact h.keys.sublist (List.filter_sublist.map _)
  case marks =>
    intro k hk
    obtain ⟨hk, hkept⟩ := (hmem k).1 hk
    obtain ⟨f, hf, rfl⟩ := h.marks k hk
    refine ⟨f, List.mem_filter.2 ⟨hf, ?_⟩, rfl⟩
    by_contra hp
    exact hkept f hf (Bool.eq_false_iff.2 hp) rfl
  case active =>
    intro f hf f' hf' hid hact hact'
    exact h.active f (hsub f hf) f' (hsub f' hf') hid (hunmarked f hf hact)
      (hunmarked f' hf' hact')
  case latest =>
    intro f hf f' hf' hid hact
    exact h.latest f (hsub f hf) f' (hsub f' hf') hid (hunmarked f hf hact)
  case run =>
    intro f hf
    exact hrun f (hsub f hf) (List.mem_filter.1 hf).2

/-- Storing facts of propositions that are not stored yet keeps the invariant. -/
theorem StoreConsistent.appendAll {superseded : Finset Bytes} :
    ∀ {facts news : List KnowledgeFact}, StoreConsistent limits currentRun facts superseded →
      facts.length + news.length ≤ limits.facts → (∀ f ∈ news, ValidFact limits f) →
      (news.map KnowledgeFact.identityKey).Nodup →
      (∀ f ∈ facts, ∀ f' ∈ news, f.identityKey ≠ f'.identityKey) →
      (∀ f ∈ news, f.scope ≠ .session → f.runId = currentRun) →
      StoreConsistent limits currentRun (facts ++ news) superseded
  | facts, [], h, _, _, _, _, _ => by rwa [List.append_nil]
  | facts, f :: news, h, hcap, hvalid, hnodup, hdisj, hrun => by
      obtain ⟨hf, hnodup⟩ := List.nodup_cons.1 (List.map_cons (f := KnowledgeFact.identityKey) ▸
        hnodup)
      rw [List.length_cons] at hcap
      have hstep : StoreConsistent limits currentRun (facts ++ [f]) superseded :=
        h.append (by omega) (hvalid f List.mem_cons_self)
          (fun f' hf' hid => absurd hid (hdisj f' hf' f List.mem_cons_self))
          (hrun f List.mem_cons_self)
      have hrest : StoreConsistent limits currentRun ((facts ++ [f]) ++ news) superseded :=
        StoreConsistent.appendAll hstep
        (by rw [List.length_append, List.length_singleton]; omega)
        (fun f' hf' => hvalid f' (List.mem_cons_of_mem _ hf')) hnodup
        (fun f₁ hf₁ f' hf' => by
          rcases List.mem_append.1 hf₁ with hf₁ | hf₁
          · exact hdisj f₁ hf₁ f' (List.mem_cons_of_mem _ hf')
          · obtain rfl := List.mem_singleton.1 hf₁
            exact fun heq => hf (heq ▸ List.mem_map_of_mem hf'))
        (fun f' hf' => hrun f' (List.mem_cons_of_mem _ hf'))
      rwa [List.append_assoc] at hrest

end

/-! ## The event window -/

/-- Cutting the window back drops its oldest events. -/
theorem trimEvents_fst (limit : Nat) : ∀ (order : List Bytes) (seen : Finset Bytes),
    (KnowledgeGraph.trimEvents limit order seen).1 = order.drop (order.length - limit)
  | [], _ => by simp [KnowledgeGraph.trimEvents]
  | front :: rest, seen => by
      unfold KnowledgeGraph.trimEvents
      split
      · next hlong =>
        rw [trimEvents_fst limit rest]
        rw [List.length_cons] at hlong ⊢
        rw [show rest.length + 1 - limit = (rest.length - limit) + 1 by omega,
          List.drop_succ_cons]
      · next hshort => rw [show (front :: rest).length - limit = 0 by omega, List.drop_zero]

/-- Cutting the window back forgets exactly the events it drops. -/
theorem mem_trimEvents_snd (limit : Nat) (e : Bytes) :
    ∀ (order : List Bytes) (seen : Finset Bytes), order.Nodup → (∀ x, x ∈ seen ↔ x ∈ order) →
      (e ∈ (KnowledgeGraph.trimEvents limit order seen).2 ↔
        e ∈ (KnowledgeGraph.trimEvents limit order seen).1)
  | [], _, _, hseen => hseen e
  | front :: rest, seen, hnodup, hseen => by
      obtain ⟨hfront, hrest⟩ := List.nodup_cons.1 hnodup
      unfold KnowledgeGraph.trimEvents
      split
      · refine mem_trimEvents_snd limit e rest _ hrest fun x => ?_
        rw [Finset.mem_erase, hseen, List.mem_cons]
        constructor
        · rintro ⟨hne, rfl | hx⟩
          · exact absurd rfl hne
          · exact hx
        · intro hx
          exact ⟨fun heq => hfront (heq ▸ hx), .inr hx⟩
      · exact hseen e

/-- Recording an event that is not in the window keeps the window consistent. -/
theorem WindowConsistent.record {limit : Nat} {eventOrder : List Bytes}
    {seenEvents : Finset Bytes} (h : WindowConsistent limit eventOrder seenEvents) {event : Bytes}
    (hnew : event ∉ seenEvents) :
    WindowConsistent limit
      (KnowledgeGraph.trimEvents limit (eventOrder ++ [event]) (insert event seenEvents)).1
      (KnowledgeGraph.trimEvents limit (eventOrder ++ [event]) (insert event seenEvents)).2 := by
  have hnodup : (eventOrder ++ [event]).Nodup := by
    rw [List.nodup_append]
    refine ⟨h.nodup, by simp, fun a ha b hb hab => ?_⟩
    obtain rfl := List.mem_singleton.1 hb
    exact hnew ((h.seen b).2 (hab ▸ ha))
  have hseen : ∀ x, x ∈ insert event seenEvents ↔ x ∈ eventOrder ++ [event] := by
    intro x
    rw [Finset.mem_insert, h.seen, List.mem_append, List.mem_singleton, or_comm]
  refine ⟨?_, ?_, fun e => mem_trimEvents_snd limit e _ _ hnodup hseen⟩
  · rw [trimEvents_fst]
    exact hnodup.sublist (List.drop_sublist _ _)
  · rw [trimEvents_fst, List.length_drop]
    omega

/-! ## What each operation does -/

section
variable {g : KnowledgeGraph} {fact : KnowledgeFact}

/-- The facts `ingest_record` accepts in the state `g`. -/
structure KnowledgeGraph.Acceptable (g : KnowledgeGraph) (fact : KnowledgeFact) : Prop where
  valid : ValidFact g.limits fact
  begun : fact.scope = .session ∨ g.currentRun ≠ []
  run : fact.scope ≠ .session → fact.runId = g.currentRun
  expiry : fact.scope = .observation → KnowledgeGraph.observationExpires fact = true
  fresh : ∀ f ∈ g.facts, f.identityKey = fact.identityKey → f.tick ≤ fact.tick
  event : KnowledgeGraph.eventKey fact ∉ g.seenEvents

/-- A fact is stale when a stored version of its proposition is younger. -/
theorem KnowledgeGraph.staleTick_eq_false :
    g.staleTick fact = false ↔
      ∀ f ∈ g.facts, f.identityKey = fact.identityKey → f.tick ≤ fact.tick := by
  simp [KnowledgeGraph.staleTick]

/-- The checks of `ingest_record` pass exactly on the acceptable facts. -/
theorem KnowledgeGraph.refusal_eq_none : g.refusal fact = none ↔ g.Acceptable fact := by
  unfold KnowledgeGraph.refusal
  constructor
  · intro h
    split at h
    · cases h
    · next hvalidate =>
      obtain ⟨hvalid, hbegun⟩ := KnowledgeLimits.validate_eq_none.1 hvalidate
      split at h
      · cases h
      · next hrun =>
        split at h
        · cases h
        · next hexpiry =>
          split at h
          · cases h
          · next hstale =>
            split at h
            · cases h
            · next hevent =>
              refine ⟨hvalid, hbegun, fun hs => ?_, fun ho => ?_, ?_, hevent⟩
              · by_contra hne
                exact hrun ⟨hs, hne⟩
              · by_contra hne
                exact hexpiry ⟨ho, Bool.eq_false_iff.2 hne⟩
              · exact KnowledgeGraph.staleTick_eq_false.1 (Bool.eq_false_iff.2 hstale)
  · intro h
    rw [KnowledgeLimits.validate_eq_none.2 ⟨h.valid, h.begun⟩]
    dsimp only
    rw [if_neg (fun hrun => hrun.2 (h.run hrun.1)),
      if_neg (fun hexpiry => by simp [h.expiry hexpiry.1] at hexpiry),
      KnowledgeGraph.staleTick_eq_false.2 h.fresh, if_neg (by simp), if_neg h.event]

/-- A refused fact changes nothing. -/
theorem KnowledgeGraph.ingestRecord_of_refusal {reason : Bytes}
    (h : g.refusal fact = some reason) :
    g.ingestRecord fact = (g, ⟨false, reason, g.generation⟩) := by
  rw [KnowledgeGraph.ingestRecord, h]

/-- An acceptable fact is recorded and stored. -/
theorem KnowledgeGraph.ingestRecord_of_acceptable (h : g.Acceptable fact) :
    g.ingestRecord fact = (g.recordEvent fact).storeVersion fact := by
  rw [KnowledgeGraph.ingestRecord, KnowledgeGraph.refusal_eq_none.2 h]

/-- The marks after the scan. -/
theorem KnowledgeGraph.mem_scanVersions_fst {k : Bytes} :
    k ∈ (g.scanVersions fact).1 ↔ k ∈ g.superseded ∨
      ∃ f ∈ g.facts, f.identityKey = fact.identityKey ∧ f.key ≠ fact.key ∧ f.key = k :=
  mem_scan_fst fact k g.facts 0 g.superseded none

/-- **What storing a version does.** Either a stored version has the key of the new fact and is
made active again in place, or none has it and the new version is stored at the end, after making
room at capacity. The other versions of the proposition are marked in both cases. -/
theorem KnowledgeGraph.storeVersion_cases (g : KnowledgeGraph) (fact : KnowledgeFact) :
    (∃ i previous, g.facts[i]? = some previous ∧ previous.key = fact.key ∧
      (g.storeVersion fact).1 =
        { g with superseded := (g.scanVersions fact).1 }.reactivate i fact) ∨
    ((∀ f ∈ g.facts, f.identityKey = fact.identityKey → f.key ≠ fact.key) ∧
      (g.storeVersion fact).1 =
        { g with superseded := (g.scanVersions fact).1 }.makeRoom.append fact) := by
  unfold KnowledgeGraph.storeVersion
  dsimp only
  cases hfound : (g.scanVersions fact).2 with
  | some i =>
    rcases scan_snd_some fact i g.facts 0 g.superseded none hfound with h | ⟨f, -, hf, hkey⟩
    · cases h
    · exact .inl ⟨i, f, by simpa using hf, hkey, rfl⟩
  | none => exact .inr ⟨(scan_snd_none fact g.facts 0 g.superseded none hfound).2, rfl⟩

end

end Jevt
