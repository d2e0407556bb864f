import Jevt.Knowledge.Reachable

/-!
# Session persistence

`session_snapshot` of one graph can be restored into any other graph that has begun a run and has
room for it, and is then what the other graph reports (`restore_sessionSnapshot`). What makes the
restore succeed is the invariant: the active facts of a graph are valid and belong to distinct
propositions (`Consistent.restorable_sessionSnapshot`).
-/

namespace Jevt.KnowledgeGraph

open Library

variable {g h : KnowledgeGraph}

/-- The records of a snapshot are the active session facts. -/
theorem mem_sessionSnapshot {f : KnowledgeFact} :
    f ∈ g.sessionSnapshot ↔ f ∈ g.facts ∧ f.scope = .session ∧ f.key ∉ g.superseded := by
  simp [sessionSnapshot]

/-- The active session facts of a consistent graph belong to distinct propositions. -/
theorem Consistent.sessionSnapshot_nodup (hg : g.Consistent) :
    (g.sessionSnapshot.map KnowledgeFact.identityKey).Nodup := by
  have hnodup : g.sessionSnapshot.Nodup := (hg.store.keys.of_map).sublist List.filter_sublist
  refine hnodup.map_on fun f hf f' hf' heq => ?_
  obtain ⟨hf, -, hact⟩ := mem_sessionSnapshot.1 hf
  obtain ⟨hf', -, hact'⟩ := mem_sessionSnapshot.1 hf'
  exact (hg.store.active f hf f' hf' heq.symm hact hact').symm

/-- The snapshot of a consistent graph is acceptable wherever a run has begun and there is room
for it. -/
theorem Consistent.restorable_sessionSnapshot (hg : g.Consistent) (hlimits : h.limits = g.limits)
    (hrun : h.currentRun ≠ [])
    (hroom : h.facts.countP (fun fact => fact.scope ≠ .session) ≤
      g.limits.facts - g.sessionSnapshot.length) :
    h.Restorable g.sessionSnapshot := by
  have hlen : g.sessionSnapshot.length ≤ g.limits.facts :=
    (List.length_filter_le _ g.facts).trans hg.store.capacity
  refine ⟨hrun, ?_, fun f hf => ?_, hg.sessionSnapshot_nodup⟩
  · rw [hlimits]
    omega
  · obtain ⟨hf, hscope, -⟩ := mem_sessionSnapshot.1 hf
    exact ⟨hscope, hlimits ▸ hg.store.valid f hf⟩

/-- Restoring erases the marks of the session facts and of no other stored fact. -/
theorem Consistent.mem_restored_superseded (hh : h.Consistent) (snapshot : List KnowledgeFact)
    {f : KnowledgeFact} (hf : ValidFact h.limits f) :
    f.key ∈ (h.restored snapshot).superseded ↔ f.key ∈ h.superseded ∧ f.scope ≠ .session := by
  rw [KnowledgeGraph.restored, mem_foldl_erase]
  constructor
  · rintro ⟨hk, hkept⟩
    refine ⟨hk, fun hscope => ?_⟩
    obtain ⟨f', hf', hkey⟩ := hh.store.marks _ hk
    have hscope' := (hh.store.valid f' hf').scope_eq_of_key_eq hf hkey
    exact hkept f' (List.mem_filter.2 ⟨hf', by simp [hscope', hscope]⟩) hkey
  · rintro ⟨hk, hscope⟩
    refine ⟨hk, fun f' hf' hkey => ?_⟩
    obtain ⟨hf', hsession⟩ := List.mem_filter.1 hf'
    have hscope' := (hh.store.valid f' hf').scope_eq_of_key_eq hf hkey
    rw [hscope'] at hsession
    exact hscope (by simpa using hsession)

/-- A restored graph reports the snapshot it was given. -/
theorem Consistent.restored_sessionSnapshot (hh : h.Consistent) {snapshot : List KnowledgeFact}
    (hs : h.Restorable snapshot) : (h.restored snapshot).sessionSnapshot = snapshot := by
  have hrest : (h.facts.filter fun fact => decide (fact.scope ≠ .session)).filter (fun fact =>
      fact.scope = .session && decide (fact.key ∉ (h.restored snapshot).superseded)) = [] := by
    rw [List.filter_eq_nil_iff]
    intro f hf hcond
    obtain ⟨-, hscope⟩ := List.mem_filter.1 hf
    simp only [Bool.and_eq_true, decide_eq_true_eq] at hcond hscope
    exact hscope hcond.1
  have hall : snapshot.filter (fun fact =>
      fact.scope = .session && decide (fact.key ∉ (h.restored snapshot).superseded)) =
        snapshot := by
    rw [List.filter_eq_self]
    intro f hf
    obtain ⟨hscope, hvalid⟩ := hs.records f hf
    simp [hh.mem_restored_superseded snapshot hvalid, hscope]
  have hsplit : (h.restored snapshot).sessionSnapshot =
      (h.facts.filter fun fact => decide (fact.scope ≠ .session)).filter (fun fact =>
        fact.scope = .session && decide (fact.key ∉ (h.restored snapshot).superseded)) ++
      snapshot.filter (fun fact =>
        fact.scope = .session && decide (fact.key ∉ (h.restored snapshot).superseded)) := by
    rw [← List.filter_append]
    rfl
  rw [hsplit, hrest, hall, List.nil_append]

/-- A restored graph holds the facts that are not session facts as before. -/
theorem restored_filter {snapshot : List KnowledgeFact} (hs : h.Restorable snapshot) :
    (h.restored snapshot).facts.filter (fun fact => fact.scope ≠ .session) =
      h.facts.filter fun fact => fact.scope ≠ .session := by
  have hnone : snapshot.filter (fun fact => decide (fact.scope ≠ .session)) = [] := by
    rw [List.filter_eq_nil_iff]
    intro f hf
    simp [(hs.records f hf).1]
  rw [restored, List.filter_append, List.filter_filter, hnone, List.append_nil]
  simp only [Bool.and_self]

/-- **Session round trip and atomic restore.** The snapshot of a reachable graph is its active
session facts in storage order. It is accepted by every reachable graph with the same limits, a
current run and room for it, which then reports the same records in the same order and has its run
and observation facts, with their marks, as before. A restore that throws leaves the graph as it
was, whatever it was given. -/
theorem restore_sessionSnapshot {limits : KnowledgeLimits} (hg : IsReachable limits g)
    (hh : IsReachable limits h) (hrun : h.currentRun ≠ [])
    (hroom : h.facts.countP (fun fact => fact.scope ≠ .session) ≤
      limits.facts - g.sessionSnapshot.length) :
    g.sessionSnapshot.Sublist g.facts ∧
    (∀ f, f ∈ g.sessionSnapshot ↔ f ∈ g.facts ∧ f.scope = .session ∧ f.key ∉ g.superseded) ∧
    (h.restoreSessionSnapshot g.sessionSnapshot).2 = .ok () ∧
    (h.restoreSessionSnapshot g.sessionSnapshot).1.sessionSnapshot = g.sessionSnapshot ∧
    (h.restoreSessionSnapshot g.sessionSnapshot).1.facts.filter
      (fun fact => fact.scope ≠ .session) = h.facts.filter (fun fact => fact.scope ≠ .session) ∧
    (∀ f ∈ h.facts, f.scope ≠ .session →
      (f.key ∈ (h.restoreSessionSnapshot g.sessionSnapshot).1.superseded ↔
        f.key ∈ h.superseded)) ∧
    ∀ (k : KnowledgeGraph) (snapshot : List KnowledgeFact) (failure : StdException),
      (k.restoreSessionSnapshot snapshot).2 = .error failure →
        (k.restoreSessionSnapshot snapshot).1 = k := by
  obtain ⟨hgc, rfl⟩ := hg.consistent
  obtain ⟨hhc, hlimits⟩ := hh.consistent
  have hs := hgc.restorable_sessionSnapshot hlimits hrun hroom
  have heq : h.restoreSessionSnapshot g.sessionSnapshot =
      (h.restored g.sessionSnapshot, .ok ()) := by
    rcases restoreSessionSnapshot_cases h g.sessionSnapshot with ⟨-, heq⟩ | ⟨hnot, -⟩
    · exact heq
    · exact absurd hs hnot
  rw [heq]
  refine ⟨List.filter_sublist, fun f => mem_sessionSnapshot, rfl, hhc.restored_sessionSnapshot hs,
    restored_filter hs, fun f hf hscope => ?_, ?_⟩
  · rw [hhc.mem_restored_superseded _ (hhc.store.valid f hf)]
    exact and_iff_left hscope
  · intro k snapshot failure hfail
    rcases restoreSessionSnapshot_cases k snapshot with ⟨-, heq⟩ | ⟨-, failure', heq⟩
    · rw [heq] at hfail
      cases hfail
    · rw [heq]

/-- A graph of another run, with one run fact. -/
def otherRun : List KnowledgeOp :=
  [.beginRun (lit "run-2") true,
    .ingest { motionFact (lit "waiting") (lit "event-c") 7 with
      runId := lit "run-2", scope := .run }]

/-- The fact that is active again is restored into that graph, beside its run fact. -/
theorem restore_sessionSnapshot_reactivation :
    let g := reactivation.foldl apply { limits := {} }
    let h := otherRun.foldl apply { limits := {} }
    let restored := h.restoreSessionSnapshot g.sessionSnapshot
    g.sessionSnapshot.map KnowledgeFact.object = [lit "0.8 px/frame"] ∧
      (∀ f, f ∈ g.sessionSnapshot ↔ f ∈ g.facts ∧ f.scope = .session ∧ f.key ∉ g.superseded) ∧
      restored.2 = .ok () ∧ restored.1.sessionSnapshot = g.sessionSnapshot ∧
      restored.1.facts.filter (fun fact => fact.scope ≠ .session) =
        h.facts.filter (fun fact => fact.scope ≠ .session) ∧
      ∀ f ∈ h.facts, f.scope ≠ .session →
        (f.key ∈ restored.1.superseded ↔ f.key ∈ h.superseded) := by
  have hg : IsReachable {} (reactivation.foldl apply { limits := {} }) :=
    ⟨{ limits := {} }, rfl, reactivation, run_foldl _ _⟩
  have hh : IsReachable {} (otherRun.foldl apply { limits := {} }) :=
    ⟨{ limits := {} }, rfl, otherRun, run_foldl _ _⟩
  obtain ⟨-, hmem, hok, hsame, hfacts, hmarks, -⟩ :=
    restore_sessionSnapshot hg hh (by decide) (by decide)
  exact ⟨by decide, hmem, hok, hsame, hfacts, hmarks⟩

end Jevt.KnowledgeGraph
