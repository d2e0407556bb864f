import Jevt.Library.Extremal
import Jevt.Knowledge.Lineage

/-!
# Evidence is never promoted

The provenance of a stored version, its evidence with the source and the event it cites, is the
one of the last record of its lineage with the strongest evidence (`Backed.strongest`), and its
priority is the highest of the lineage. Since every record of a lineage was contributed by an
accepted call or a restored snapshot (`mem_lineage`), strong evidence goes back to a call of the
entry point that attests it (`evidence_never_promoted`).

The payload of a version is not part of this. `ingest_record` replaces the provenance of the
version a record repeats and leaves its `attributes_json` alone, so that a version can show the
attributes of one record and cite the event of another (`attributes_of_another_event`). As long as
no record that replaces the provenance comes with other attributes, the two belong together
(`payload_of_cited_event`).
-/

namespace Jevt.KnowledgeGraph

open Library

variable {g g₀ : KnowledgeGraph} {op : KnowledgeOp} {f : KnowledgeFact} {k : Bytes}

/-- How strong the evidence of an attestation is. -/
def strength (a : Attestation) : Nat :=
  a.record.evidence.evidenceRank

/-- A fact takes its provenance from the last of the strongest records of its lineage, and its
priority from the highest. -/
structure Backed (f : KnowledgeFact) (lineage : List Attestation) : Prop where
  strongest : ∃ a, LatestMax strength lineage a ∧ f.evidence = a.record.evidence ∧
    f.source = a.record.source ∧ f.eventId = a.record.eventId
  priority : (lineage.map fun a => a.record.priority).max? = some f.priority

/-- A new record backs itself. -/
theorem Backed.single (a : Attestation) : Backed a.record [a] :=
  ⟨⟨a, LatestMax.singleton strength a, rfl, rfl, rfl⟩, rfl⟩

/-- A refreshed version is backed by its lineage and the refreshing record. -/
theorem Backed.refresh {lineage : List Attestation} (h : Backed f lineage) (a : Attestation) :
    Backed (KnowledgeGraph.refresh f a.record) (lineage ++ [a]) := by
  obtain ⟨b, hb, hevidence, hsource, hevent⟩ := h.strongest
  constructor
  · unfold KnowledgeGraph.refresh
    split
    · next hle =>
      rw [hevidence] at hle
      exact ⟨a, hb.replace hle, rfl, rfl, rfl⟩
    · next hlt =>
      rw [hevidence, Nat.not_le] at hlt
      exact ⟨b, hb.keep hlt, hevidence, hsource, hevent⟩
  · have hpriority : (KnowledgeGraph.refresh f a.record).priority =
        max f.priority a.record.priority := by
      unfold KnowledgeGraph.refresh
      split <;> rfl
    obtain ⟨hmem, hle⟩ := List.max?_eq_some_iff.1 h.priority
    rw [hpriority, List.map_append, List.max?_eq_some_iff]
    refine ⟨?_, fun p hp => ?_⟩
    · rcases max_choice f.priority a.record.priority with hmax | hmax
      · rw [hmax]
        exact List.mem_append_left _ hmem
      · rw [hmax]
        exact List.mem_append_right _ List.mem_cons_self
    · rcases List.mem_append.1 hp with hp | hp
      · exact le_max_of_le_left (hle p hp)
      · exact le_max_of_le_right (List.mem_singleton.1 hp).le

/-- Every stored fact is backed by its lineage. -/
theorem backed_of_run {limits : KnowledgeLimits} (hcreate : create limits = .ok g₀)
    (ops : List KnowledgeOp) : (Traced.run g₀ ops).Sound Backed :=
  Traced.induction (C := fun _ _ => True) hcreate Backed.single
    (fun _ _ _ path record _ _ _ _ hbacked => hbacked.refresh ⟨.ingested path, record⟩)
    (along_of_forall (fun _ _ => trivial) g₀ ops)

/-! ## Strength over time -/

/-- Refreshing a version never weakens its evidence. -/
theorem evidenceRank_refresh (f record : KnowledgeFact) :
    f.evidence.evidenceRank ≤ (refresh f record).evidence.evidenceRank := by
  unfold refresh
  split
  · next hle => exact hle
  · exact Nat.le_refl _

/-- One call does not weaken the evidence of a version that stays stored and is not restored. -/
theorem Consistent.evidenceRank_apply (h : g.Consistent) (hnot : NotRestored k g op)
    (hf : f ∈ g.facts) (hkey : f.key = k) {f' : KnowledgeFact} (hf' : f' ∈ (g.apply op).facts)
    (hkey' : f'.key = k) : f.evidence.evidenceRank ≤ f'.evidence.evidenceRank := by
  have hunique : ∀ x ∈ g.facts, x.key = f'.key → x = f := fun x hx hxkey =>
    eq_of_key_eq h.store.keys hx hf (hxkey.trans (hkey'.trans hkey.symm))
  cases h.mem_apply_facts hf' with
  | kept hmem hnone => exact (hunique f' hmem rfl) ▸ Nat.le_refl _
  | @refreshed previous path record hmem hprevious hsome heq =>
    rw [heq, hunique previous hmem hprevious]
    exact evidenceRank_refresh f record
  | inserted hnew hsome => exact absurd ⟨f, hf, hkey.trans hkey'.symm⟩ hnew
  | restored hsome => exact absurd (hkey' ▸ hsome) (hnot f')

/-- A run does not weaken the evidence of a version that stays stored and is not restored. -/
theorem Consistent.evidenceRank_foldl (h : g.Consistent) {ops : List KnowledgeOp}
    (hstays : StaysStored k g ops) (hnot : Along KnowledgeGraph.apply (NotRestored k) g ops)
    (hf : f ∈ g.facts) (hkey : f.key = k) {f' : KnowledgeFact}
    (hf' : f' ∈ (ops.foldl KnowledgeGraph.apply g).facts) (hkey' : f'.key = k) :
    f.evidence.evidenceRank ≤ f'.evidence.evidenceRank := by
  induction ops generalizing g f with
  | nil =>
    obtain rfl := eq_of_key_eq h.store.keys hf hf' (hkey.trans hkey'.symm)
    exact Nat.le_refl _
  | cons op ops ih =>
    obtain ⟨⟨middle, hmiddle, hmiddleKey⟩, hstays⟩ := hstays
    exact (h.evidenceRank_apply hnot.1 hf hkey hmiddle hmiddleKey).trans
      (ih (h.apply op) hstays hnot.2 hmiddle hmiddleKey hf')

/-! ## Where evidence comes from -/

/-- A call through `path` for the version `k` was accepted, or a snapshot whose record of the
version carries the evidence was restored, and the version has been stored ever since. -/
def Attested (g₀ : KnowledgeGraph) (ops : List KnowledgeOp) (k : Bytes) (path : IngestPath)
    (evidence : KnowledgeEvidence) : Prop :=
  ∃ pre op post, ops = pre ++ op :: post ∧ StaysStored k (pre.foldl apply g₀) (op :: post) ∧
    ((∃ fact, op = path.op fact ∧ fact.key = k ∧
        (path.result (pre.foldl apply g₀) fact).accepted = true) ∨
      ∃ snapshot, op = .restoreSessionSnapshot snapshot ∧
        ((pre.foldl apply g₀).restoreSessionSnapshot snapshot).2 = .ok () ∧
        ∃ fact ∈ snapshot, fact.key = k ∧ fact.evidence = evidence)

/-- What an accepted entry point attests. -/
theorem IngestPath.evidence_record {path : IngestPath} {fact : KnowledgeFact}
    (h : path.Permitted fact) :
    ((path.record fact).evidence = .verifiedOutcome → path = .ingestVerifiedOutcome) ∧
    ((path.record fact).evidence = .ramObservation → path = .ingestRamObservation) := by
  cases path with
  | ingest => simp [IngestPath.record, h rfl]
  | ingestHypothesis | ingestRamObservation | ingestVerifiedOutcome => simp [IngestPath.record]

/-- The evidence of a stored fact goes back to an accepted call through a path whose record has
that evidence, or to a restored record. -/
theorem attested_of_run {limits : KnowledgeLimits} (hcreate : create limits = .ok g₀)
    {ops : List KnowledgeOp} (hf : f ∈ (ops.foldl apply g₀).facts) :
    ∃ path, Attested g₀ ops f.key path f.evidence ∧
      (f.evidence = .verifiedOutcome → path = .ingestVerifiedOutcome) ∧
      (f.evidence = .ramObservation → path = .ingestRamObservation) := by
  have hbacked := (backed_of_run hcreate ops).related f (by rwa [Traced.graph_run])
  obtain ⟨a, ha, hevidence, -, -⟩ := hbacked.strongest
  obtain ⟨pre, op, post, rfl, hsome, hstays⟩ := mem_lineage hcreate ⟨f, hf, rfl⟩ ha.mem
  rcases contribution_eq_some hsome with
    ⟨path, fact, rfl, rfl, hkey, haccepted⟩ | ⟨snapshot, fact, rfl, rfl, hmem, hkey, hr⟩
  · have hpath := IngestPath.evidence_record (IngestPath.accepted_iff.1 haccepted).1
    rw [hevidence]
    exact ⟨path, ⟨pre, _, post, rfl, hstays, .inl ⟨fact, rfl, hkey, haccepted⟩⟩, hpath⟩
  · have hok : ((pre.foldl apply g₀).restoreSessionSnapshot snapshot).2 = .ok () := by
      rcases restoreSessionSnapshot_cases (pre.foldl apply g₀) snapshot with ⟨-, heq⟩ | ⟨hnot, -⟩
      · rw [heq]
      · exact absurd hr hnot
    have hrestored : ∀ path, Attested g₀ (pre ++ .restoreSessionSnapshot snapshot :: post) f.key
        path f.evidence := fun path =>
      ⟨pre, _, post, rfl, hstays, .inr ⟨snapshot, rfl, hok, fact, hmem, hkey, hevidence.symm⟩⟩
    by_cases hverified : f.evidence = .verifiedOutcome
    · exact ⟨.ingestVerifiedOutcome, hrestored _, fun _ => rfl, fun hram => by
        simp [hverified] at hram⟩
    · exact ⟨.ingestRamObservation, hrestored _, fun h => absurd h hverified, fun _ => rfl⟩

/-- The calls that can only hand in hypotheses. -/
def HypothesisOnly : KnowledgeOp → Prop
  | .ingest _ | .ingestHypothesis _ | .beginRun _ _ | .clear => True
  | .ingestRamObservation _ | .ingestVerifiedOutcome _ | .restoreSessionSnapshot _ => False

/-- A run of such calls stores hypotheses only. -/
theorem hypothesis_of_run {limits : KnowledgeLimits} (hcreate : create limits = .ok g₀)
    {ops : List KnowledgeOp} (honly : ∀ op ∈ ops, HypothesisOnly op)
    (hf : f ∈ (ops.foldl apply g₀).facts) : f.evidence = .modelHypothesis := by
  have hbacked := (backed_of_run hcreate ops).related f (by rwa [Traced.graph_run])
  obtain ⟨a, ha, hevidence, -, -⟩ := hbacked.strongest
  obtain ⟨pre, op, post, rfl, hsome, -⟩ := mem_lineage hcreate ⟨f, hf, rfl⟩ ha.mem
  have hop : HypothesisOnly op := honly op (by simp)
  rcases contribution_eq_some hsome with
    ⟨path, fact, rfl, rfl, -, haccepted⟩ | ⟨snapshot, fact, rfl, -, -, -, -⟩
  · rw [hevidence]
    cases path with
    | ingest => exact (IngestPath.accepted_iff.1 haccepted).1 rfl
    | ingestHypothesis => rfl
    | ingestRamObservation | ingestVerifiedOutcome => exact hop.elim
  · exact hop.elim

/-- **Evidence is never promoted.** After every run, a stored version is a verified outcome (or an
observation) only because the entry point for verified outcomes (or observations) accepted it, or
a restored record carried it, and it has been stored since. Its evidence, source and event are
those of the last of the strongest records contributed to it since it was last stored anew, and
its priority is the highest of theirs. Its evidence does not get weaker as long as it stays stored
and is not restored. Calls that hand in hypotheses lead to hypotheses, whatever evidence they
claim. -/
theorem evidence_never_promoted {limits : KnowledgeLimits} (hcreate : create limits = .ok g₀)
    (ops : List KnowledgeOp) :
    (∀ f ∈ (ops.foldl apply g₀).facts,
      (f.evidence = .verifiedOutcome →
        Attested g₀ ops f.key .ingestVerifiedOutcome .verifiedOutcome) ∧
      (f.evidence = .ramObservation →
        Attested g₀ ops f.key .ingestRamObservation .ramObservation) ∧
      (∃ pre op post, ops = pre ++ op :: post ∧ LastInserted f.key (pre.foldl apply g₀) op post ∧
        Backed f (contributions f.key (pre.foldl apply g₀) (op :: post))) ∧
      ∀ later, StaysStored f.key (ops.foldl apply g₀) later →
        Along apply (NotRestored f.key) (ops.foldl apply g₀) later →
        ∀ f' ∈ (later.foldl apply (ops.foldl apply g₀)).facts, f'.key = f.key →
          f.evidence.evidenceRank ≤ f'.evidence.evidenceRank) ∧
    ((∀ op ∈ ops, HypothesisOnly op) →
      ∀ f ∈ (ops.foldl apply g₀).facts, f.evidence = .modelHypothesis) := by
  have hsound := backed_of_run hcreate ops
  refine ⟨fun f hf => ⟨fun hverified => ?_, fun hram => ?_, ?_, ?_⟩,
    fun honly f hf => hypothesis_of_run hcreate honly hf⟩
  · obtain ⟨path, hattested, hpath, -⟩ := attested_of_run hcreate hf
    rw [hpath hverified, hverified] at hattested
    exact hattested
  · obtain ⟨path, hattested, -, hpath⟩ := attested_of_run hcreate hf
    rw [hpath hram, hram] at hattested
    exact hattested
  · obtain ⟨pre, op, post, hsplit, hlast, heq⟩ := lineage_spec hcreate ⟨f, hf, rfl⟩
    exact ⟨pre, op, post, hsplit, hlast, heq ▸ hsound.related f (by rwa [Traced.graph_run])⟩
  · intro later hstays hnot f' hf' hkey
    have hconsistent : (ops.foldl apply g₀).Consistent := by
      rw [← Traced.graph_run]
      exact hsound.consistent
    exact hconsistent.evidenceRank_foldl hstays hnot hf rfl hf' hkey

/-- The facts that are observed in turn have come through the entry point for observations. -/
theorem evidence_never_promoted_reactivation :
    ∃ f ∈ (reactivation.foldl apply { limits := {} }).facts, f.evidence = .ramObservation ∧
      Attested { limits := {} } reactivation f.key .ingestRamObservation .ramObservation := by
  have hobserved : ∃ f ∈ (reactivation.foldl apply { limits := {} }).facts,
      f.evidence = .ramObservation := by
    decide +kernel
  obtain ⟨f, hf, hevidence⟩ := hobserved
  obtain ⟨hfacts, -⟩ :=
    evidence_never_promoted (rfl : create {} = .ok { limits := {} }) reactivation
  exact ⟨f, hf, hevidence, (hfacts f hf).2.1 hevidence⟩

/-! ## The payload -/

/-- The fact shows the evidence, the source, the event and the attributes of one record. -/
def Cites (f : KnowledgeFact) (a : Attestation) : Prop :=
  f.evidence = a.record.evidence ∧ f.source = a.record.source ∧ f.eventId = a.record.eventId ∧
    f.attributesJson = a.record.attributesJson

instance (f : KnowledgeFact) (a : Attestation) : Decidable (Cites f a) :=
  inferInstanceAs (Decidable (_ ∧ _ ∧ _ ∧ _))

/-- If the call is an ingest that will replace the provenance of a stored version, its record
has the attributes of that version. -/
def PayloadAgrees (g : KnowledgeGraph) (op : KnowledgeOp) : Prop :=
  ∀ path fact, op = IngestPath.op path fact → path.Permitted fact →
    g.Acceptable (path.record fact) → ∀ f ∈ g.facts, f.key = fact.key →
      f.evidence.evidenceRank ≤ (path.record fact).evidence.evidenceRank →
        fact.attributesJson = f.attributesJson

/-- The entry point does not change the attributes. -/
theorem IngestPath.attributesJson_record (path : IngestPath) (fact : KnowledgeFact) :
    (path.record fact).attributesJson = fact.attributesJson := by
  cases path <;> rfl

/-- A refreshed version has the attributes it had before. -/
theorem attributesJson_refresh (f record : KnowledgeFact) :
    (refresh f record).attributesJson = f.attributesJson := by
  unfold refresh
  split <;> rfl

/-- A version that cites one record cites one record after it was refreshed, if the attributes
agree whenever the provenance is replaced. -/
theorem Cites.refresh {lineage : List Attestation} {record : KnowledgeFact} {path : IngestPath}
    (h : ∃ a ∈ lineage, Cites f a)
    (hagrees : f.evidence.evidenceRank ≤ record.evidence.evidenceRank →
      record.attributesJson = f.attributesJson) :
    ∃ a ∈ lineage ++ [⟨.ingested path, record⟩], Cites (KnowledgeGraph.refresh f record) a := by
  obtain ⟨a, ha, hevidence, hsource, hevent, hattributes⟩ := h
  by_cases hle : f.evidence.evidenceRank ≤ record.evidence.evidenceRank
  · refine ⟨⟨.ingested path, record⟩, by simp, ?_⟩
    rw [Cites, attributesJson_refresh, ← hagrees hle]
    simp only [KnowledgeGraph.refresh, if_pos hle, and_self]
  · refine ⟨a, List.mem_append_left _ ha, ?_⟩
    rw [Cites, attributesJson_refresh]
    simp only [KnowledgeGraph.refresh, if_neg hle]
    exact ⟨hevidence, hsource, hevent, hattributes⟩

/-- **The payload of the cited event.** In a run in which no record that replaces the provenance
of a stored version comes with other attributes, each stored fact takes its evidence, source,
event and attributes from one accepted or restored record of its version. -/
theorem payload_of_cited_event {limits : KnowledgeLimits} (hcreate : create limits = .ok g₀)
    {ops : List KnowledgeOp} (hagrees : Along apply PayloadAgrees g₀ ops) :
    ∀ f ∈ (ops.foldl apply g₀).facts, ∃ a ∈ contributions f.key g₀ ops, Cites f a := by
  have hsound : (Traced.run g₀ ops).Sound fun f lineage => ∃ a ∈ lineage, Cites f a := by
    refine Traced.induction hcreate (fun a => ⟨a, by simp, rfl, rfl, rfl, rfl⟩) ?_ hagrees
    intro g op f path record lineage hop hf hsome hcites
    refine Cites.refresh hcites fun hle => ?_
    rcases contribution_eq_some hsome with
      ⟨path', fact, rfl, heq, hkey, haccepted⟩ | ⟨snapshot, fact, -, heq, -⟩
    · cases heq
      obtain ⟨hpermitted, hacc⟩ := IngestPath.accepted_iff.1 haccepted
      rw [IngestPath.attributesJson_record]
      exact hop path fact rfl hpermitted hacc f hf hkey.symm hle
    · cases heq
  intro f hf
  obtain ⟨a, ha, hcites⟩ := hsound.related f (by rwa [Traced.graph_run])
  obtain ⟨pre, op, post, rfl, -, heq⟩ := lineage_spec hcreate ⟨f, hf, rfl⟩
  rw [heq] at ha
  exact ⟨a, by rw [contributions_append]; exact List.mem_append_right _ ha, hcites⟩

/-- A guess about the motion, and the measured outcome that confirms it. -/
def confirmedGuess (guessed measured : Bytes) : List KnowledgeOp :=
  [.beginRun (lit "run-1") true,
    .ingestHypothesis { motionFact (lit "0.8 px/frame") (lit "event-a1") 1 with
      attributesJson := guessed },
    .ingestVerifiedOutcome { motionFact (lit "0.8 px/frame") (lit "event-a2") 2 with
      attributesJson := measured }]

/-- The outcome confirms the guess with the same attributes. -/
theorem payload_of_cited_event_confirmedGuess :
    ∃ f ∈ ((confirmedGuess (lit "1") (lit "1")).foldl apply { limits := {} }).facts,
      f.evidence = .verifiedOutcome ∧
        ∃ a ∈ contributions f.key { limits := {} } (confirmedGuess (lit "1") (lit "1")),
          Cites f a := by
  have hagrees : Along apply PayloadAgrees { limits := {} }
      (confirmedGuess (lit "1") (lit "1")) := by
    refine ⟨?_, ?_, ?_, trivial⟩
    · intro path fact h
      cases path <;> cases h
    · intro path fact _ _ _ f hf
      exact absurd hf List.not_mem_nil
    · intro path fact h _ _ f hf _ _
      have hguess : ∀ f ∈ (((confirmedGuess (lit "1") (lit "1")).take 2).foldl apply
          { limits := {} }).facts, f.attributesJson = lit "1" := by
        decide +kernel
      cases path with
      | ingest | ingestHypothesis | ingestRamObservation => cases h
      | ingestVerifiedOutcome =>
          cases h
          exact (hguess f hf).symm
  have hconfirmed : ∃ f ∈ ((confirmedGuess (lit "1") (lit "1")).foldl apply { limits := {} }).facts,
      f.evidence = .verifiedOutcome := by
    decide +kernel
  obtain ⟨f, hf, hevidence⟩ := hconfirmed
  exact ⟨f, hf, hevidence,
    payload_of_cited_event (rfl : create {} = .ok { limits := {} }) hagrees f hf⟩

/-- The attributes of the guess are shown with the event of the outcome. -/
theorem attributes_of_another_event :
    ∃ f ∈ ((confirmedGuess (lit "1") (lit "2")).foldl apply { limits := {} }).facts,
      ∀ a ∈ contributions f.key { limits := {} } (confirmedGuess (lit "1") (lit "2")),
        ¬ Cites f a := by
  decide +kernel

end Jevt.KnowledgeGraph
