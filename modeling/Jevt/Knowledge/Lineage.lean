import Mathlib.Data.List.Basic
import Jevt.Library.Run
import Jevt.Knowledge.Reachable

/-!
# The records a stored version goes back to

A stored version is the work of several calls: the one that stored it and every later one that
observed it again. `Traced` runs a graph beside the *lineage* of each version key, the records
those calls handed in, oldest first. The lineage is history the graph itself does not hold, and
nothing in the graph reads it.

`mem_apply_facts` says where a fact stored after a call comes from, for all calls at once. It is
what an argument about provenance needs of the operations, and `Traced.induction` packages it: a
relation between a stored fact and its lineage holds in every run as soon as it survives a new
record, a refreshing one and a restored one.
-/

namespace Jevt

open Library

/-- How a record entered a graph. -/
inductive Origin where
  | ingested (path : KnowledgeGraph.IngestPath)
  | restored
  deriving DecidableEq

/-- A record as it reached the graph, with its origin. -/
structure Attestation where
  origin : Origin
  record : KnowledgeFact
  deriving DecidableEq

namespace KnowledgeGraph

/-- The record of the version `k` an ingest contributes, if it is accepted. -/
def ingested (g : KnowledgeGraph) (path : IngestPath) (fact : KnowledgeFact) (k : Bytes) :
    Option Attestation :=
  if (path.result g fact).accepted ∧ fact.key = k then
    some ⟨.ingested path, path.record fact⟩
  else none

/-- The record of the version `k` a call contributes to the graph. -/
def contribution (g : KnowledgeGraph) (op : KnowledgeOp) (k : Bytes) : Option Attestation :=
  match op with
  | .ingest fact => g.ingested .ingest fact k
  | .ingestHypothesis fact => g.ingested .ingestHypothesis fact k
  | .ingestRamObservation fact => g.ingested .ingestRamObservation fact k
  | .ingestVerifiedOutcome fact => g.ingested .ingestVerifiedOutcome fact k
  | .restoreSessionSnapshot snapshot =>
    if (g.restoreSessionSnapshot snapshot).2.isOk then
      (snapshot.find? fun fact => fact.key = k).map fun fact => ⟨.restored, fact⟩
    else none
  | .beginRun _ _ => none
  | .clear => none

/-- Whether a version is stored. -/
def Stores (g : KnowledgeGraph) (k : Bytes) : Prop :=
  ∃ f ∈ g.facts, f.key = k

instance (g : KnowledgeGraph) (k : Bytes) : Decidable (g.Stores k) :=
  inferInstanceAs (Decidable (∃ f ∈ g.facts, f.key = k))

variable {g : KnowledgeGraph} {op : KnowledgeOp} {k : Bytes} {a : Attestation}

/-- What an ingest contributes. -/
theorem contribution_op (g : KnowledgeGraph) (path : IngestPath) (fact : KnowledgeFact)
    (k : Bytes) : g.contribution (path.op fact) k = g.ingested path fact k := by
  cases path <;> rfl

/-- A restore that succeeds contributes the record of each version of its snapshot. -/
theorem contribution_restore_of_restorable {snapshot : List KnowledgeFact}
    (h : g.Restorable snapshot) :
    g.contribution (.restoreSessionSnapshot snapshot) k =
      (snapshot.find? fun fact => fact.key = k).map fun fact => ⟨.restored, fact⟩ := by
  rcases restoreSessionSnapshot_cases g snapshot with ⟨-, heq⟩ | ⟨hnot, -⟩
  · simp [contribution, heq, Except.isOk, Except.toBool]
  · exact absurd h hnot

/-- A restore that throws contributes nothing. -/
theorem contribution_restore_of_not {snapshot : List KnowledgeFact}
    (h : ¬ g.Restorable snapshot) :
    g.contribution (.restoreSessionSnapshot snapshot) k = none := by
  rcases restoreSessionSnapshot_cases g snapshot with ⟨hr, -⟩ | ⟨-, failure, heq⟩
  · exact absurd hr h
  · simp [contribution, heq, Except.isOk, Except.toBool]

/-- **Where a contribution comes from.** It is the record of an ingest that was accepted, or a
record of a snapshot that was restored. -/
theorem contribution_eq_some (h : g.contribution op k = some a) :
    (∃ path fact, op = IngestPath.op path fact ∧ a = ⟨.ingested path, path.record fact⟩ ∧
      fact.key = k ∧ (path.result g fact).accepted = true) ∨
    (∃ snapshot fact, op = .restoreSessionSnapshot snapshot ∧ a = ⟨.restored, fact⟩ ∧
      fact ∈ snapshot ∧ fact.key = k ∧ g.Restorable snapshot) := by
  rcases op_cases op with ⟨path, fact, rfl⟩ | ⟨runId, retain, rfl⟩ | ⟨snapshot, rfl⟩ | rfl
  · rw [contribution_op, ingested] at h
    split at h
    · next hcond => exact .inl ⟨path, fact, rfl, (Option.some.inj h).symm, hcond.2, hcond.1⟩
    · cases h
  · cases h
  · by_cases hr : g.Restorable snapshot
    · rw [contribution_restore_of_restorable hr] at h
      obtain ⟨fact, hfind, rfl⟩ := Option.map_eq_some_iff.1 h
      exact .inr ⟨snapshot, fact, rfl, rfl, List.mem_of_find?_eq_some hfind,
        by simpa using List.find?_some hfind, hr⟩
    · rw [contribution_restore_of_not hr] at h
      cases h
  · cases h

/-- A constructed graph stores nothing. -/
theorem facts_create {limits : KnowledgeLimits} (h : create limits = .ok g) : g.facts = [] := by
  unfold create at h
  split at h
  · cases h
  · cases h
    rfl

/-! ## Where a stored fact comes from -/

/-- What a fact stored after a call is: a fact stored before to which the call contributed
nothing, a stored version the call observed again, a new version, or a restored record. -/
inductive Arises (g : KnowledgeGraph) (op : KnowledgeOp) (f : KnowledgeFact) : Prop where
  | kept (hmem : f ∈ g.facts) (hnone : g.contribution op f.key = none)
  | refreshed {previous : KnowledgeFact} {path : IngestPath} {record : KnowledgeFact}
      (hmem : previous ∈ g.facts) (hkey : previous.key = f.key)
      (hsome : g.contribution op f.key = some ⟨.ingested path, record⟩)
      (heq : f = refresh previous record)
  | inserted {path : IngestPath} (hnew : ¬ g.Stores f.key)
      (hsome : g.contribution op f.key = some ⟨.ingested path, f⟩)
  | restored (hsome : g.contribution op f.key = some ⟨.restored, f⟩)

/-- The facts stored after an accepted ingest. -/
theorem Consistent.mem_ingestRecord (h : g.Consistent) {record f : KnowledgeFact}
    (hacc : g.Acceptable record) (hf : f ∈ (g.ingestRecord record).1.facts) :
    (f ∈ g.facts ∧ f.key ≠ record.key) ∨
      (∃ previous ∈ g.facts, previous.key = record.key ∧ f = refresh previous record) ∨
      (¬ g.Stores record.key ∧ f = record) := by
  rw [ingestRecord_of_acceptable hacc] at hf
  rcases storeVersion_cases (g.recordEvent record) record with
    ⟨i, previous, hi, hkey, heq⟩ | ⟨hnone, heq⟩
  · have hi' : g.facts[i]? = some previous := hi
    have hfacts : ((g.recordEvent record).storeVersion record).1.facts =
        g.facts.map fun x => if x.key = record.key then refresh x record else x := by
      rw [heq, ← hkey]
      exact modify_eq_map h.store.keys hi' (refresh · record)
    rw [hfacts] at hf
    obtain ⟨x, hx, rfl⟩ := List.mem_map.1 hf
    by_cases hxkey : x.key = record.key
    · exact .inr (.inl ⟨x, hx, hxkey, if_pos hxkey⟩)
    · simp only [if_neg hxkey]
      exact .inl ⟨hx, hxkey⟩
  · have hnew : ∀ x ∈ g.facts, x.key ≠ record.key := fun x hx hkey =>
      hnone x hx ((h.store.valid x hx).identityKey_eq_of_key_eq hacc.valid hkey) hkey
    rw [heq] at hf
    rcases List.mem_append.1 hf with hf | hf
    · have hmem : f ∈ g.facts := by
        unfold makeRoom at hf
        split at hf
        · exact List.mem_of_mem_eraseIdx hf
        · exact hf
      exact .inl ⟨hmem, hnew f hmem⟩
    · refine .inr (.inr ⟨?_, List.mem_singleton.1 hf⟩)
      rintro ⟨x, hx, hkey⟩
      exact hnew x hx hkey

/-- **Where a stored fact comes from.** Every fact stored after a call was stored before, or is
what the call contributed. -/
theorem Consistent.mem_apply_facts (h : g.Consistent) {f : KnowledgeFact}
    (hf : f ∈ (g.apply op).facts) : g.Arises op f := by
  rcases op_cases op with ⟨path, fact, rfl⟩ | ⟨runId, retain, rfl⟩ | ⟨snapshot, rfl⟩ | rfl
  · cases haccepted : (path.result g fact).accepted with
    | false =>
      rw [apply_op_of_not_accepted haccepted] at hf
      exact .kept hf (by simp [contribution_op, ingested, haccepted])
    | true =>
      obtain ⟨hpermitted, hacc⟩ := IngestPath.accepted_iff.1 haccepted
      have hsome : g.contribution (path.op fact) fact.key =
          some ⟨.ingested path, path.record fact⟩ := by
        simp [contribution_op, ingested, haccepted]
      rw [apply_op hpermitted] at hf
      rcases h.mem_ingestRecord hacc hf with ⟨hmem, hne⟩ | ⟨previous, hmem, hkey, rfl⟩ | ⟨hnew, rfl⟩
      · rw [IngestPath.key_record] at hne
        exact .kept hmem (by simp [contribution_op, ingested, Ne.symm hne])
      · rw [IngestPath.key_record] at hkey
        have hkey' : (refresh previous (path.record fact)).key = fact.key := by
          rw [refresh_key, hkey]
        exact .refreshed hmem (refresh_key _ _).symm (by rw [hkey', hsome]) rfl
      · exact .inserted hnew (by rw [IngestPath.key_record, hsome])
  · have hmem : f ∈ g.facts := by
      simp only [KnowledgeGraph.apply, KnowledgeGraph.beginRun] at hf
      split at hf
      · exact hf
      · exact (List.mem_filter.1 hf).1
    exact .kept hmem rfl
  · by_cases hr : g.Restorable snapshot
    · have heq : g.apply (.restoreSessionSnapshot snapshot) = g.restored snapshot := by
        rcases restoreSessionSnapshot_cases g snapshot with ⟨-, heq⟩ | ⟨hnot, -⟩
        · simp only [KnowledgeGraph.apply, heq]
        · exact absurd hr hnot
      rw [heq] at hf
      rcases List.mem_append.1 hf with hf | hf
      · obtain ⟨hmem, hscope⟩ := List.mem_filter.1 hf
        refine .kept hmem ?_
        rw [contribution_restore_of_restorable hr, Option.map_eq_none_iff, List.find?_eq_none]
        intro x hx hkey
        obtain ⟨hsession, hvalid⟩ := hr.records x hx
        have hscopes := hvalid.scope_eq_of_key_eq (h.store.valid f hmem) (by simpa using hkey)
        simp [← hscopes, hsession] at hscope
      · have hnodup := (h.restored hr).store.keys
        have hfind : snapshot.find? (fun fact => fact.key = f.key) = some f :=
          find?_eq_of_key (hnodup.sublist ((List.sublist_append_right _ _).map _)) hf
        exact .restored (by rw [contribution_restore_of_restorable hr, hfind, Option.map_some])
    · have heq : g.apply (.restoreSessionSnapshot snapshot) = g := by
        rcases restoreSessionSnapshot_cases g snapshot with ⟨hyes, -⟩ | ⟨-, failure, heq⟩
        · exact absurd hyes hr
        · simp only [KnowledgeGraph.apply, heq]
      rw [heq] at hf
      exact .kept hf (contribution_restore_of_not hr)
  · simp [KnowledgeGraph.apply, KnowledgeGraph.clear] at hf

end KnowledgeGraph

/-! ## Tracing a run -/

/-- A graph with the lineage of each version. -/
structure Traced where
  graph : KnowledgeGraph
  lineage : Bytes → List Attestation

namespace Traced

open KnowledgeGraph

/-- A graph whose history starts now. -/
def start (g : KnowledgeGraph) : Traced where
  graph := g
  lineage _ := []

/-- The lineage of a version after a contribution: a restored record starts a new one. -/
def extend (lineage : List Attestation) : Option Attestation → List Attestation
  | none => lineage
  | some a => if a.origin = .restored then [a] else lineage ++ [a]

/-- A contribution that is not restored is added at the end. -/
theorem extend_of_ne {lineage : List Attestation} {contribution : Option Attestation}
    (h : ∀ record, contribution ≠ some ⟨.restored, record⟩) :
    extend lineage contribution = lineage ++ contribution.toList := by
  cases contribution with
  | none => exact (List.append_nil lineage).symm
  | some a => exact if_neg fun hrestored => h a.record (by rw [← hrestored])

/-- A call, followed by its effect on the lineages. A version that is not stored has none. -/
def apply (t : Traced) (op : KnowledgeOp) : Traced where
  graph := t.graph.apply op
  lineage k :=
    if (t.graph.apply op).Stores k then extend (t.lineage k) (t.graph.contribution op k) else []

/-- Tracing does not change the graph. -/
@[simp] theorem graph_foldl (t : Traced) (ops : List KnowledgeOp) :
    (ops.foldl apply t).graph = ops.foldl KnowledgeGraph.apply t.graph := by
  induction ops generalizing t with
  | nil => rfl
  | cons op ops ih => exact ih (t.apply op)

/-- The lineage of a version that is stored after a call. -/
theorem lineage_apply {t : Traced} {op : KnowledgeOp} {f : KnowledgeFact}
    (hf : f ∈ (t.graph.apply op).facts) :
    (t.apply op).lineage f.key = extend (t.lineage f.key) (t.graph.contribution op f.key) :=
  if_pos ⟨f, hf, rfl⟩

/-- A graph whose lineages start where versions are stored, and relate to the stored facts as `P`
says. -/
structure Sound (P : KnowledgeFact → List Attestation → Prop) (t : Traced) : Prop where
  consistent : t.graph.Consistent
  unstored : ∀ k, ¬ t.graph.Stores k → t.lineage k = []
  related : ∀ f ∈ t.graph.facts, P f (t.lineage f.key)

section
variable {P : KnowledgeFact → List Attestation → Prop} {t : Traced}

/-- One call keeps the relation, if it survives a new record and the call at hand refreshes
versions in accordance with it. -/
theorem Sound.apply (h : t.Sound P) (single : ∀ a : Attestation, P a.record [a]) {op : KnowledgeOp}
    (refreshed : ∀ f ∈ t.graph.facts, ∀ path record,
      t.graph.contribution op f.key = some ⟨.ingested path, record⟩ → P f (t.lineage f.key) →
        P (refresh f record) (t.lineage f.key ++ [⟨.ingested path, record⟩])) :
    (t.apply op).Sound P := by
  refine ⟨h.consistent.apply op, fun k hk => if_neg hk, fun f hf => ?_⟩
  rw [lineage_apply hf]
  cases h.consistent.mem_apply_facts hf with
  | kept hmem hnone =>
    rw [hnone]
    exact h.related f hmem
  | @refreshed previous path record hmem hkey hsome heq =>
    rw [hsome, ← hkey, heq]
    exact refreshed previous hmem path record (hkey ▸ hsome) (h.related previous hmem)
  | @inserted path hnew hsome =>
    rw [hsome, h.unstored _ hnew]
    exact single ⟨.ingested path, f⟩
  | restored hsome =>
    rw [hsome]
    exact single ⟨.restored, f⟩

/-- The run of some calls, traced from a constructed graph. -/
def run (g₀ : KnowledgeGraph) (ops : List KnowledgeOp) : Traced :=
  ops.foldl Traced.apply (start g₀)

@[simp] theorem graph_run (g₀ : KnowledgeGraph) (ops : List KnowledgeOp) :
    (run g₀ ops).graph = ops.foldl KnowledgeGraph.apply g₀ :=
  graph_foldl (start g₀) ops

/-- A call behind some calls. -/
theorem run_concat (g₀ : KnowledgeGraph) (ops : List KnowledgeOp) (op : KnowledgeOp) :
    run g₀ (ops ++ [op]) = (run g₀ ops).apply op := by
  rw [run, List.foldl_append]
  rfl

/-- **Induction over lineages.** A relation between a fact and its lineage holds of every stored
fact after a run whose calls meet `C`, if it survives a new record, and a refreshing one that a
call meeting `C` contributes. -/
theorem induction {C : KnowledgeGraph → KnowledgeOp → Prop} {limits : KnowledgeLimits}
    {g₀ : KnowledgeGraph} (hcreate : create limits = .ok g₀)
    (single : ∀ a : Attestation, P a.record [a])
    (refreshed : ∀ g op f path record L, C g op → f ∈ g.facts →
      g.contribution op f.key = some ⟨.ingested path, record⟩ → P f L →
        P (refresh f record) (L ++ [⟨.ingested path, record⟩])) :
    ∀ {ops : List KnowledgeOp}, Along KnowledgeGraph.apply C g₀ ops → (run g₀ ops).Sound P := by
  intro ops
  induction ops using List.reverseRecOn with
  | nil =>
    intro _
    exact ⟨Consistent.create hcreate, fun _ _ => rfl, fun f hf => by
      simp [run, start, facts_create hcreate] at hf⟩
  | append_singleton ops op ih =>
    intro hC
    obtain ⟨hops, hop⟩ := along_concat.1 hC
    rw [run_concat]
    refine (ih hops).apply single fun f hf path record hsome hP => ?_
    rw [graph_run] at hf hsome
    exact refreshed _ op f path record _ hop hf hsome hP

end

end Traced

namespace KnowledgeGraph

/-- The records a run contributes to a version, oldest first, whatever became of them. -/
def contributions (k : Bytes) : KnowledgeGraph → List KnowledgeOp → List Attestation
  | _, [] => []
  | g, op :: ops => (g.contribution op k).toList ++ contributions k (g.apply op) ops

/-- The version is stored after each of the calls. -/
def StaysStored (k : Bytes) (g : KnowledgeGraph) (ops : List KnowledgeOp) : Prop :=
  Along KnowledgeGraph.apply (fun g op => (g.apply op).Stores k) g ops

/-- What calls one after another contribute to a version. -/
theorem contributions_append (k : Bytes) (g : KnowledgeGraph) (ops ops' : List KnowledgeOp) :
    contributions k g (ops ++ ops') =
      contributions k g ops ++ contributions k (ops.foldl KnowledgeGraph.apply g) ops' := by
  induction ops generalizing g with
  | nil => rfl
  | cons op ops ih =>
      rw [List.cons_append, contributions, contributions, ih, List.append_assoc, List.foldl_cons]

/-- What one call contributes to a version. -/
theorem contributions_singleton (k : Bytes) (g : KnowledgeGraph) (op : KnowledgeOp) :
    contributions k g [op] = (g.contribution op k).toList :=
  List.append_nil _

/-- A contribution of a run was made by one of its calls. -/
theorem mem_contributions {k : Bytes} {g : KnowledgeGraph} {ops : List KnowledgeOp}
    {a : Attestation} (h : a ∈ contributions k g ops) :
    ∃ pre op post, ops = pre ++ op :: post ∧
      (pre.foldl KnowledgeGraph.apply g).contribution op k = some a := by
  induction ops generalizing g with
  | nil => exact absurd h List.not_mem_nil
  | cons op ops ih =>
      rcases List.mem_append.1 h with h | h
      · exact ⟨[], op, ops, rfl, Option.mem_toList.1 h⟩
      · obtain ⟨pre, op', post, rfl, hsome⟩ := ih h
        exact ⟨op :: pre, op', post, rfl, hsome⟩

/-- No record of the version `k` is restored by the call. -/
def NotRestored (k : Bytes) (g : KnowledgeGraph) (op : KnowledgeOp) : Prop :=
  ∀ record, g.contribution op k ≠ some ⟨.restored, record⟩

/-- The calls `since` start where the version `k` was last stored anew: it was not stored before
the first of them, or that one restored it; it has been stored ever since, and not restored. -/
structure LastInserted (k : Bytes) (g : KnowledgeGraph) (op : KnowledgeOp)
    (post : List KnowledgeOp) : Prop where
  anew : ¬ g.Stores k ∨ ∃ record, g.contribution op k = some ⟨.restored, record⟩
  stays : StaysStored k g (op :: post)
  notRestored : Along KnowledgeGraph.apply (NotRestored k) (g.apply op) post

/-- A version that is not stored has no lineage. -/
theorem lineage_of_not_stored {g₀ : KnowledgeGraph} {ops : List KnowledgeOp} {k : Bytes}
    (h : ¬ (ops.foldl KnowledgeGraph.apply g₀).Stores k) : (Traced.run g₀ ops).lineage k = [] := by
  induction ops using List.reverseRecOn with
  | nil => rfl
  | append_singleton ops op _ =>
    rw [Traced.run_concat]
    rw [List.foldl_append] at h
    exact if_neg (by rwa [Traced.graph_run])

/-- **What a lineage records.** It lists the contributions since the version was last stored
anew. -/
theorem lineage_spec {limits : KnowledgeLimits} {g₀ : KnowledgeGraph}
    (hcreate : create limits = .ok g₀) {k : Bytes} {ops : List KnowledgeOp}
    (h : (ops.foldl KnowledgeGraph.apply g₀).Stores k) :
    ∃ pre op post, ops = pre ++ op :: post ∧
      LastInserted k (pre.foldl KnowledgeGraph.apply g₀) op post ∧
      (Traced.run g₀ ops).lineage k =
        contributions k (pre.foldl KnowledgeGraph.apply g₀) (op :: post) := by
  induction ops using List.reverseRecOn with
  | nil =>
    obtain ⟨f, hf, -⟩ := h
    rw [List.foldl_nil, facts_create hcreate] at hf
    exact absurd hf List.not_mem_nil
  | append_singleton ops op ih =>
    have hstored : ((ops.foldl KnowledgeGraph.apply g₀).apply op).Stores k := by
      rwa [List.foldl_append] at h
    have hlineage : (Traced.run g₀ (ops ++ [op])).lineage k =
        Traced.extend ((Traced.run g₀ ops).lineage k)
          ((ops.foldl KnowledgeGraph.apply g₀).contribution op k) := by
      rw [Traced.run_concat]
      exact (if_pos (by rwa [Traced.graph_run])).trans (by rw [Traced.graph_run])
    by_cases hrestored : NotRestored k (ops.foldl KnowledgeGraph.apply g₀) op
    · rw [hlineage, Traced.extend_of_ne hrestored]
      by_cases hbefore : (ops.foldl KnowledgeGraph.apply g₀).Stores k
      · obtain ⟨pre, op', post, rfl, hlast, heq⟩ := ih hbefore
        have hfold : (post.foldl KnowledgeGraph.apply
            ((pre.foldl KnowledgeGraph.apply g₀).apply op')) =
              (pre ++ op' :: post).foldl KnowledgeGraph.apply g₀ := by
          rw [List.foldl_append, List.foldl_cons]
        refine ⟨pre, op', post ++ [op], by simp, ⟨hlast.anew, ?_, ?_⟩, ?_⟩
        · rw [StaysStored, ← List.cons_append, along_concat]
          exact ⟨hlast.stays, by rwa [List.foldl_cons, hfold]⟩
        · rw [along_concat, hfold]
          exact ⟨hlast.notRestored, hrestored⟩
        · rw [heq, ← List.cons_append, contributions_append, contributions_singleton,
            List.foldl_cons, hfold]
      · refine ⟨ops, op, [], rfl, ⟨.inl hbefore, ⟨hstored, trivial⟩, trivial⟩, ?_⟩
        rw [lineage_of_not_stored hbefore, contributions_singleton, List.nil_append]
    · obtain ⟨record, hrecord⟩ := not_forall_not.1 hrestored
      refine ⟨ops, op, [], rfl, ⟨.inr ⟨record, hrecord⟩, ⟨hstored, trivial⟩, trivial⟩, ?_⟩
      rw [hlineage, contributions_singleton, hrecord]
      rfl

/-- Each record of a lineage was contributed by a call since which the version has been
stored. -/
theorem mem_lineage {limits : KnowledgeLimits} {g₀ : KnowledgeGraph}
    (hcreate : create limits = .ok g₀) {k : Bytes} {ops : List KnowledgeOp}
    (h : (ops.foldl KnowledgeGraph.apply g₀).Stores k) {a : Attestation}
    (ha : a ∈ (Traced.run g₀ ops).lineage k) :
    ∃ pre op post, ops = pre ++ op :: post ∧
      (pre.foldl KnowledgeGraph.apply g₀).contribution op k = some a ∧
      StaysStored k (pre.foldl KnowledgeGraph.apply g₀) (op :: post) := by
  obtain ⟨before, first, rest, rfl, hlast, heq⟩ := lineage_spec hcreate h
  rw [heq] at ha
  obtain ⟨pre, op, post, hsplit, hsome⟩ := mem_contributions ha
  have hstays := hlast.stays
  rw [hsplit, StaysStored, along_append, ← List.foldl_append] at hstays
  rw [← List.foldl_append] at hsome
  exact ⟨before ++ pre, op, post, by rw [hsplit, List.append_assoc], hsome, hstays.2⟩

end KnowledgeGraph

end Jevt
