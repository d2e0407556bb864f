import Jevt.Knowledge.Reachable

/-!
# What an ingest leaves alone

A refused fact changes nothing. An accepted one changes its own version, the marks of the other
versions of its proposition, and at capacity it costs one stored fact (`Absorbs`,
`ingest_preserves`). The marks of all propositions share one set, and an eviction erases a mark;
that no mark of another proposition is touched rests on the keys of stored facts being distinct.
-/

namespace Jevt

open Library

namespace KnowledgeGraph

variable {g : KnowledgeGraph} {fact : KnowledgeFact}

/-- What is left of the stored facts: all of them, or all but one, which makes room for a new
version at capacity. It is a session fact only if every stored fact is one. -/
inductive Keeps (g : KnowledgeGraph) (fact : KnowledgeFact) : List KnowledgeFact → Prop
  | all : Keeps g fact g.facts
  | evict {i : Nat} {gone : KnowledgeFact} (hgone : g.facts[i]? = some gone)
      (hnew : ∀ f ∈ g.facts, f.key ≠ fact.key) (hfull : g.facts.length = g.limits.facts)
      (hscope : gone.scope = .session → ∀ f ∈ g.facts, f.scope = .session) :
    Keeps g fact (g.facts.eraseIdx i)

/-- What an accepted fact does to a graph: the facts that are left of the other propositions stay as
they are and in their order, as do the other versions of its own; the marks of the other
propositions stay; and the version is stored and active, with the tick and the expiry of the
fact. -/
structure Absorbs (g : KnowledgeGraph) (fact : KnowledgeFact) (g' : KnowledgeGraph) : Prop where
  facts : ∃ kept, Keeps g fact kept ∧
    (g'.facts.filter fun f => f.identityKey ≠ fact.identityKey) =
      (kept.filter fun f => f.identityKey ≠ fact.identityKey) ∧
    (g'.facts.filter fun f => f.key ≠ fact.key) = (kept.filter fun f => f.key ≠ fact.key)
  marks : ∀ f ∈ g'.facts, f.identityKey ≠ fact.identityKey →
    (f.key ∈ g'.superseded ↔ f.key ∈ g.superseded)
  stored : ∃ f ∈ g'.facts, f.key = fact.key ∧ f.tick = fact.tick ∧ f.expiresAt = fact.expiresAt ∧
    f.key ∉ g'.superseded

/-- The event window and the evidence of the fact do not matter for `Absorbs`. -/
theorem Absorbs.congr {g₁ g' : KnowledgeGraph} {fact₁ : KnowledgeFact}
    (hgraph : g₁.limits = g.limits ∧ g₁.facts = g.facts ∧ g₁.superseded = g.superseded)
    (hfact : fact₁ = { fact with evidence := fact₁.evidence }) (h : Absorbs g₁ fact₁ g') :
    Absorbs g fact g' := by
  obtain ⟨hlimits, hfacts, hsuperseded⟩ := hgraph
  obtain ⟨⟨kept, hkeeps, hkept⟩, hmarks, hstored⟩ := h
  rw [hsuperseded] at hmarks
  rw [hfact] at hkeeps hkept hmarks hstored
  refine ⟨⟨kept, ?_, hkept⟩, hmarks, hstored⟩
  cases hkeeps with
  | all => exact hfacts ▸ .all
  | evict hgone hnew hfull hscope =>
    rw [hfacts] at hgone hnew hfull hscope ⊢
    rw [hlimits] at hfull
    exact .evict hgone hnew hfull hscope

/-- Changing an element that does not count to one that does not count. -/
theorem filter_modify {α : Type*} {p : α → Bool} {f : α → α} {a : α} (ha : p a = false)
    (hfa : p (f a) = false) : ∀ {l : List α} {i : Nat}, l[i]? = some a →
      (l.modify i f).filter p = l.filter p
  | [], _, h => by simp at h
  | b :: l, 0, h => by
      obtain rfl : b = a := by simpa using h
      rw [List.modify_zero_cons, List.filter_cons, List.filter_cons, ha, hfa]
      rfl
  | b :: l, i + 1, h => by
      have hl : l[i]? = some a := by simpa using h
      rw [List.modify_succ_cons, List.filter_cons, List.filter_cons, filter_modify ha hfa hl]

/-- The fact that makes room is a session fact only if every stored fact is one. -/
theorem scope_of_removable {facts : List KnowledgeFact} {gone : KnowledgeFact}
    (hgone : facts[removable facts]? = some gone) (hscope : gone.scope = .session) :
    ∀ f ∈ facts, f.scope = .session := by
  unfold removable at hgone
  cases hfind : facts.findIdx? fun value => value.scope ≠ .session with
  | none => simpa using List.findIdx?_eq_none_iff.1 hfind
  | some i =>
    obtain ⟨hi, hfirst, -⟩ := List.findIdx?_eq_some_iff_getElem.1 hfind
    rw [hfind, Option.getD_some, List.getElem?_eq_getElem hi, Option.some.injEq] at hgone
    rw [hgone] at hfirst
    simp [hscope] at hfirst

/-- The scan for the version does not mark a fact of another proposition. -/
theorem Consistent.mem_scanVersions_iff (h : g.Consistent) {f : KnowledgeFact} (hf : f ∈ g.facts)
    (hid : f.identityKey ≠ fact.identityKey) :
    f.key ∈ (g.scanVersions fact).1 ↔ f.key ∈ g.superseded := by
  rw [mem_scanVersions_fst, or_iff_left]
  rintro ⟨f', hf', hid', -, hkey⟩
  obtain rfl := eq_of_key_eq h.store.keys hf' hf hkey
  exact hid hid'

/-- Storing a version that is there. -/
theorem Consistent.absorbs_reactivate (h : g.Consistent) (hvalid : ValidFact g.limits fact)
    {i : Nat} {previous : KnowledgeFact} (hi : g.facts[i]? = some previous)
    (hkey : previous.key = fact.key) :
    Absorbs g fact ({ g with superseded := (g.scanVersions fact).1 }.reactivate i fact) := by
  have hprevious := h.store.valid previous (List.mem_of_getElem? hi)
  have hid := hprevious.identityKey_eq_of_key_eq hvalid hkey
  have hmap : g.facts.modify i (refresh · fact) =
      g.facts.map fun f => if f.key = previous.key then refresh f fact else f :=
    modify_eq_map h.store.keys hi (refresh · fact)
  refine ⟨⟨g.facts, .all, ?_, ?_⟩, ?_, ?_⟩
  · exact filter_modify (by simp [hid]) (by simp [hid]) hi
  · exact filter_modify (by simp [hkey]) (by simp [hkey]) hi
  · intro f hf hother
    have hf' : f ∈ g.facts.modify i (refresh · fact) := hf
    rw [hmap] at hf'
    obtain ⟨f', hmem, rfl⟩ := List.mem_map.1 hf'
    have hne : f'.key ≠ previous.key := by
      intro heq
      rw [if_pos heq, refresh_identityKey] at hother
      have hvalid' := h.store.valid f' hmem
      exact hother (hvalid'.identityKey_eq_of_key_eq hvalid (heq.trans hkey))
    rw [if_neg hne] at hother ⊢
    show f'.key ∈ (g.scanVersions fact).1.erase fact.key ↔ _
    rw [Finset.mem_erase, h.mem_scanVersions_iff hmem hother, and_iff_right (hkey ▸ hne)]
  · refine ⟨refresh previous fact, ?_, by simp [hkey], by simp, by simp, ?_⟩
    · show refresh previous fact ∈ g.facts.modify i (refresh · fact)
      rw [hmap]
      exact List.mem_map.2 ⟨previous, List.mem_of_getElem? hi, if_pos rfl⟩
    · show (refresh previous fact).key ∉ (g.scanVersions fact).1.erase fact.key
      simp [hkey]

/-- Storing a new version. -/
theorem Consistent.absorbs_append (h : g.Consistent)
    (hnew : ∀ f ∈ g.facts, f.key ≠ fact.key) :
    Absorbs g fact ({ g with superseded := (g.scanVersions fact).1 }.makeRoom.append fact) := by
  have hscan : fact.key ∉ (g.scanVersions fact).1 := by
    rw [mem_scanVersions_fst]
    rintro (hmark | ⟨f, -, -, hne, heq⟩)
    · obtain ⟨f, hf, hkey⟩ := h.store.marks _ hmark
      exact hnew f hf hkey
    · exact hne heq
  have hfilter : ∀ (kept : List KnowledgeFact) (p : KnowledgeFact → Bool), p fact = false →
      (kept ++ [fact]).filter p = kept.filter p := by
    intro kept p hp
    simp [hp]
  rcases makeRoom_cases (g := { g with superseded := (g.scanVersions fact).1 }) h.positive.1
    h.store.capacity with ⟨-, heq⟩ | ⟨gone, hfull, hgone, heq⟩
  · rw [heq]
    refine ⟨⟨g.facts, .all, hfilter _ _ (by simp), hfilter _ _ (by simp)⟩, ?_,
      fact, by simp [append], rfl, rfl, rfl, hscan⟩
    intro f hf hother
    rcases List.mem_append.1 hf with hf | hf
    · exact h.mem_scanVersions_iff hf hother
    · exact absurd (congrArg KnowledgeFact.identityKey (List.mem_singleton.1 hf)) hother
  · rw [heq]
    have hgone' : g.facts[removable g.facts]? = some gone := hgone
    refine ⟨⟨g.facts.eraseIdx (removable g.facts),
      .evict hgone' hnew hfull (scope_of_removable hgone'), hfilter _ _ (by simp),
      hfilter _ _ (by simp)⟩, ?_, fact, by simp [append], rfl, rfl, rfl, ?_⟩
    · intro f hf hother
      rcases List.mem_append.1 hf with hf | hf
      · obtain ⟨hmem, hne⟩ := (mem_eraseIdx_iff h.store.keys hgone').1 hf
        show f.key ∈ (g.scanVersions fact).1.erase gone.key ↔ _
        rw [Finset.mem_erase, h.mem_scanVersions_iff hmem hother, and_iff_right hne]
      · exact absurd (congrArg KnowledgeFact.identityKey (List.mem_singleton.1 hf)) hother
    · exact fun hmem => hscan (Finset.mem_of_mem_erase hmem)

/-- What accepting a fact does. -/
theorem Consistent.absorbs_ingestRecord (h : g.Consistent) (hacc : g.Acceptable fact) :
    Absorbs g fact (g.ingestRecord fact).1 := by
  have hrecord : (g.recordEvent fact).Consistent :=
    ⟨h.positive, h.store, h.window.record hacc.event⟩
  rw [ingestRecord_of_acceptable hacc]
  suffices hstore : Absorbs (g.recordEvent fact) fact ((g.recordEvent fact).storeVersion fact).1 by
    have hgraph : (g.recordEvent fact).limits = g.limits ∧
        (g.recordEvent fact).facts = g.facts ∧ (g.recordEvent fact).superseded = g.superseded :=
      ⟨rfl, rfl, rfl⟩
    have hfact : fact = { fact with evidence := fact.evidence } := rfl
    exact Absorbs.congr hgraph hfact hstore
  rcases storeVersion_cases (g.recordEvent fact) fact with
    ⟨i, previous, hi, hkey, heq⟩ | ⟨hnone, heq⟩
  · rw [heq]
    exact hrecord.absorbs_reactivate hacc.valid hi hkey
  · rw [heq]
    refine hrecord.absorbs_append fun f hf hkey => hnone f hf ?_ hkey
    exact (h.store.valid f hf).identityKey_eq_of_key_eq hacc.valid hkey

/-- **Ingesting one fact never damages others.** In every reachable graph and through every entry
point, a refused fact changes nothing, and an accepted one does what `Absorbs` says: of the facts of
other propositions all but one at most stay, with their fields, order and marks; the one that goes
makes room for a new version at capacity, and is a session fact only if every stored fact is; and
the version is stored and active. -/
theorem ingest_preserves {limits : KnowledgeLimits} (h : IsReachable limits g) (path : IngestPath)
    (fact : KnowledgeFact) :
    ((path.result g fact).accepted = false → g.apply (path.op fact) = g) ∧
    ((path.result g fact).accepted = true → Absorbs g fact (g.apply (path.op fact))) := by
  refine ⟨apply_op_of_not_accepted, fun haccepted => ?_⟩
  obtain ⟨hpermitted, hacc⟩ := IngestPath.accepted_iff.1 haccepted
  rw [apply_op hpermitted]
  have hevidence : path.record fact = { fact with evidence := (path.record fact).evidence } := by
    cases path <;> rfl
  exact Absorbs.congr ⟨rfl, rfl, rfl⟩ hevidence (h.consistent.1.absorbs_ingestRecord hacc)

/-- A graph with room for one fact, which holds one of another proposition. -/
def crowded : KnowledgeGraph :=
  [KnowledgeOp.beginRun (lit "run-1") true,
    .ingestRamObservation (motionFact (lit "0.8 px/frame") (lit "event-a1") 1)].foldl apply
    { limits := { facts := 1 } }

/-- At capacity one a new proposition replaces the stored fact. -/
theorem ingest_preserves_crowded :
    Absorbs crowded { motionFact (lit "up") (lit "event-b") 2 with id := lit "player" }
      (crowded.apply (.ingestRamObservation
        { motionFact (lit "up") (lit "event-b") 2 with id := lit "player" })) := by
  have hreach : IsReachable { facts := 1 } crowded :=
    ⟨{ limits := { facts := 1 } }, rfl, _, run_foldl _ _⟩
  exact (ingest_preserves hreach .ingestRamObservation _).2 (by decide +kernel)

end KnowledgeGraph

end Jevt
