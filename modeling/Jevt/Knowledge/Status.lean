import Jevt.Knowledge.Lineage

/-!
# The status of a version

`knowledge_graph::status` of `include/jevt/knowledge.hpp`: a version that is marked is superseded,
and any other has the label of its evidence. The evidence is the stored one where the graph stores
the version, and the caller's own where it does not: nothing is known then, whether the version was
never ingested, was evicted or was dropped by `begin_run`. So two callers who ask for one version
get the same answer as long as it is stored, or as they bring evidence with the same label
(`status_reports_store`).
-/

namespace Jevt

open Library

/-- The label of evidence. -/
def KnowledgeEvidence.label : KnowledgeEvidence → Bytes
  | .modelHypothesis => lit "hypothesis"
  | .verifiedOutcome => lit "confirmed"
  | .ramObservation | .unnamed _ => lit "observed"

/-- Two facts that name one version. -/
structure SameVersion (f f' : KnowledgeFact) : Prop where
  runId : f.runId = f'.runId
  scope : f.scope = f'.scope
  id : f.id = f'.id
  subject : f.subject = f'.subject
  relation : f.relation = f'.relation
  object : f.object = f'.object

/-- Facts of one version have one key. -/
theorem SameVersion.key_eq {f f' : KnowledgeFact} (h : SameVersion f f') : f.key = f'.key := by
  simp only [KnowledgeFact.key, h.runId, h.scope, h.id, h.subject, h.relation, h.object]

/-- A fact whose key can be taken apart: its scope has a name, and no field has the separator. -/
structure Legible (f : KnowledgeFact) : Prop where
  scope : f.scope = .observation ∨ f.scope = .run ∨ f.scope = .session
  fields : ∀ field ∈ f.keyFields, unitSeparator ∉ field

/-- Valid facts are legible. -/
theorem ValidFact.legible {limits : KnowledgeLimits} {f : KnowledgeFact} (h : ValidFact limits f) :
    Legible f :=
  ⟨h.scope, h.separator_notMem⟩

/-- Legible facts with one key are of one version. -/
theorem Legible.sameVersion {f f' : KnowledgeFact} (h : Legible f) (h' : Legible f')
    (hkey : f.key = f'.key) : SameVersion f f' := by
  rw [KnowledgeFact.key_eq, KnowledgeFact.key_eq] at hkey
  have hfields := intercalate_inj h.fields h'.fields rfl hkey
  simp only [KnowledgeFact.keyFields, List.cons.injEq, and_true] at hfields
  obtain ⟨hrun, hname, hid, hsubject, hrelation, hobject⟩ := hfields
  exact ⟨hrun, KnowledgeScope.name_inj h.scope h'.scope hname, hid, hsubject, hrelation, hobject⟩

namespace KnowledgeGraph

/-- `status`. -/
def status (g : KnowledgeGraph) (fact : KnowledgeFact) : Bytes :=
  if fact.key ∈ g.superseded then lit "superseded"
  else
    let evidence := match g.facts.find? fun value => value.key = fact.key with
      | none => fact.evidence
      | some stored => stored.evidence
    if evidence = .modelHypothesis then lit "hypothesis"
    else if evidence = .verifiedOutcome then lit "confirmed"
    else lit "observed"

variable {g : KnowledgeGraph} {limits : KnowledgeLimits} {f f' stored : KnowledgeFact}

/-- The last three branches are the labels of evidence. -/
theorem label_eq (evidence : KnowledgeEvidence) :
    (if evidence = .modelHypothesis then lit "hypothesis"
      else if evidence = .verifiedOutcome then lit "confirmed" else lit "observed") =
      evidence.label := by
  cases evidence <;> rfl

/-- The status of a stored version: superseded if it is marked, and otherwise the label of the
stored evidence. -/
theorem Consistent.status_of_stored (h : g.Consistent) (hstored : stored ∈ g.facts)
    (hkey : stored.key = f.key) :
    g.status f = if f.key ∈ g.superseded then lit "superseded" else stored.evidence.label := by
  have hfind := find?_eq_of_key h.store.keys hstored
  rw [hkey] at hfind
  simp only [status, hfind, label_eq]

/-- The status of a version that is not stored is the label of the caller's evidence. -/
theorem Consistent.status_of_not_stored (h : g.Consistent) (hnone : ¬g.Stores f.key) :
    g.status f = f.evidence.label := by
  have hunmarked : f.key ∉ g.superseded := fun hmark => hnone (h.store.marks _ hmark)
  have hfind : g.facts.find? (fun value => value.key = f.key) = none :=
    List.find?_eq_none.2 fun stored hstored hkey => hnone ⟨stored, hstored, of_decide_eq_true hkey⟩
  simp only [status, if_neg hunmarked, hfind, label_eq]

/-- Two facts of one version have one status exactly if the version is stored or their evidence has
one label. -/
theorem Consistent.status_eq_iff (h : g.Consistent) (hversion : SameVersion f f') :
    g.status f = g.status f' ↔ g.Stores f.key ∨ f.evidence.label = f'.evidence.label := by
  by_cases hstores : g.Stores f.key
  · obtain ⟨stored, hstored, hkey⟩ := hstores
    rw [h.status_of_stored hstored hkey, h.status_of_stored hstored (hkey.trans hversion.key_eq),
      ← hversion.key_eq]
    exact iff_of_true rfl (.inl ⟨stored, hstored, hkey⟩)
  · have hstores' : ¬g.Stores f'.key := by rwa [Stores, ← hversion.key_eq]
    rw [h.status_of_not_stored hstores, h.status_of_not_stored hstores']
    exact ⟨.inr, fun hor => hor.resolve_left hstores⟩

/-- A version that has a label and is stored is stored with evidence of that label. -/
theorem Consistent.evidence_of_status (h : g.Consistent) {evidence : KnowledgeEvidence}
    (hevidence : evidence = .verifiedOutcome ∨ evidence = .ramObservation)
    (hstatus : g.status f = evidence.label) :
    (∃ stored ∈ g.facts, stored.key = f.key ∧ stored.evidence = evidence) ∨
      ¬g.Stores f.key ∧ f.evidence.label = evidence.label := by
  by_cases hstores : g.Stores f.key
  · obtain ⟨stored, hstored, hkey⟩ := hstores
    refine .inl ⟨stored, hstored, hkey, ?_⟩
    rw [h.status_of_stored hstored hkey] at hstatus
    have hvalid := (h.store.valid stored hstored).evidence
    generalize stored.evidence = known at hstatus hvalid ⊢
    split at hstatus
    · rcases hevidence with rfl | rfl <;> cases hstatus
    · rcases hevidence with rfl | rfl <;> rcases hvalid with rfl | rfl | rfl <;>
        first
        | rfl
        | cases hstatus
  · exact .inr ⟨hstores, by rw [← h.status_of_not_stored hstores, hstatus]⟩

/-- **The status of a version is the store's, unless the version is not stored.** For every
reachable graph and every fact: two facts of one version have one status exactly if the graph stores
the version or their evidence has one label. A stored version is superseded if it is marked, and
otherwise has the label of the stored evidence, and what is stored under the key of a legible fact
is its version. A version that is not stored has the label of the caller's evidence. So a version is
confirmed (observed) only if it is stored with verified (RAM) evidence, or is not stored and the
caller says so. -/
theorem status_reports_store (hreach : IsReachable limits g) (f : KnowledgeFact) :
    (∀ f', SameVersion f f' →
      (g.status f = g.status f' ↔ g.Stores f.key ∨ f.evidence.label = f'.evidence.label)) ∧
    (∀ stored ∈ g.facts, stored.key = f.key →
      g.status f = (if f.key ∈ g.superseded then lit "superseded" else stored.evidence.label) ∧
      (Legible f → SameVersion stored f)) ∧
    (¬g.Stores f.key → g.status f = f.evidence.label) ∧
    (g.status f = lit "confirmed" →
      (∃ stored ∈ g.facts, stored.key = f.key ∧ stored.evidence = .verifiedOutcome) ∨
      ¬g.Stores f.key ∧ f.evidence.label = lit "confirmed") ∧
    (g.status f = lit "observed" →
      (∃ stored ∈ g.facts, stored.key = f.key ∧ stored.evidence = .ramObservation) ∨
      ¬g.Stores f.key ∧ f.evidence.label = lit "observed") := by
  obtain ⟨h, -⟩ := hreach.consistent
  refine ⟨fun f' hversion => h.status_eq_iff hversion, fun stored hstored hkey => ?_,
    h.status_of_not_stored, fun hstatus => h.evidence_of_status (.inl rfl) hstatus,
    fun hstatus => h.evidence_of_status (.inr rfl) hstatus⟩
  refine ⟨h.status_of_stored hstored hkey, fun hlegible => ?_⟩
  exact (h.store.valid stored hstored).legible.sameVersion hlegible hkey

/-- A new graph says of a version what the caller says. -/
theorem status_of_unknown :
    ∃ (g : KnowledgeGraph) (f f' : KnowledgeFact), IsReachable {} g ∧ SameVersion f f' ∧
      g.facts = [] ∧ g.status f = lit "confirmed" ∧ g.status f' = lit "hypothesis" := by
  refine ⟨{ limits := {} }, { id := lit "goomba", evidence := .verifiedOutcome },
    { id := lit "goomba", evidence := .modelHypothesis }, ⟨_, rfl, .refl _⟩, ?_, rfl, rfl, rfl⟩
  constructor <;> rfl

/-- A version that is stored as an observation, asked for by callers who claim more and less. -/
theorem status_reports_store_reactivation :
    let g := reactivation.foldl apply { limits := {} }
    let f := motionFact (lit "0.8 px/frame") (lit "event-a1") 1
    g.status { f with evidence := .verifiedOutcome } =
      g.status { f with evidence := .modelHypothesis } := by
  intro g f
  have hreach : IsReachable {} g := ⟨{ limits := {} }, rfl, reactivation, run_foldl _ _⟩
  have hversion : SameVersion { f with evidence := .verifiedOutcome }
      { f with evidence := .modelHypothesis } := by
    constructor <;> rfl
  have hstored : g.facts.any (fun stored => stored.key == f.key) = true := by decide +kernel
  obtain ⟨stored, hmem, hkey⟩ := List.any_eq_true.1 hstored
  exact ((status_reports_store hreach _).1 _ hversion).2 (.inl ⟨stored, hmem, eq_of_beq hkey⟩)

end KnowledgeGraph

end Jevt
