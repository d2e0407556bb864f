import Jevt.Knowledge.Invariant

/-!
# Every reachable graph is consistent

Each operation of the graph keeps `KnowledgeGraph.Consistent`, also where it refuses or throws.
The states a graph can reach are the ones `Reachable` gives for `KnowledgeGraph.step`, the machine
whose labels are the calls.
-/

namespace Jevt

open Library

/-- The machine of a graph: every call is enabled, whatever its outcome. -/
def KnowledgeGraph.step (g : KnowledgeGraph) (op : KnowledgeOp) : Option KnowledgeGraph :=
  some (g.apply op)

/-- The graphs a program can hold: those its calls reach from a constructed graph. -/
def KnowledgeGraph.IsReachable (limits : KnowledgeLimits) (g : KnowledgeGraph) : Prop :=
  ∃ g₀, KnowledgeGraph.create limits = .ok g₀ ∧ Reachable KnowledgeGraph.step g₀ g

namespace KnowledgeGraph

variable {g : KnowledgeGraph} {fact : KnowledgeFact}

/-! ## Eviction -/

/-- A nonempty store has a removable fact. -/
theorem getElem?_removable {facts : List KnowledgeFact} (h : facts ≠ []) :
    ∃ gone, facts[removable facts]? = some gone := by
  have hlt : removable facts < facts.length := by
    unfold removable
    cases hfind : facts.findIdx? fun value => value.scope ≠ .session with
    | none => simpa using List.length_pos_of_ne_nil h
    | some i =>
      obtain ⟨hi, -⟩ := List.findIdx?_eq_some_iff_getElem.1 hfind
      simpa using hi
  exact ⟨_, List.getElem?_eq_getElem hlt⟩

/-- Evicting a position removes the fact there together with its mark. -/
theorem evict_eq {i : Nat} {gone : KnowledgeFact} (hi : g.facts[i]? = some gone) :
    g.evict i = { g with
      facts := g.facts.eraseIdx i
      superseded := g.superseded.erase gone.key } := by
  rw [evict, hi]

/-- Making room changes nothing below capacity, and at capacity it evicts the removable fact. -/
theorem makeRoom_cases (hpos : 0 < g.limits.facts) (hcap : g.facts.length ≤ g.limits.facts) :
    (g.facts.length < g.limits.facts ∧ g.makeRoom = g) ∨
    ∃ gone, g.facts.length = g.limits.facts ∧ g.facts[removable g.facts]? = some gone ∧
      g.makeRoom = { g with
        facts := g.facts.eraseIdx (removable g.facts)
        superseded := g.superseded.erase gone.key } := by
  unfold makeRoom
  split
  · next hfull =>
    have hne : g.facts ≠ [] := by
      rintro hnil
      rw [hnil, List.length_nil] at hfull
      omega
    obtain ⟨gone, hgone⟩ := getElem?_removable hne
    exact .inr ⟨gone, hfull, hgone, evict_eq hgone⟩
  · exact .inl ⟨by omega, rfl⟩

/-- Making room keeps the store consistent and leaves a free place. -/
theorem store_makeRoom (hpos : 0 < g.limits.facts)
    (h : StoreConsistent g.limits g.currentRun g.facts g.superseded) :
    StoreConsistent g.limits g.currentRun g.makeRoom.facts g.makeRoom.superseded ∧
      g.makeRoom.facts.length < g.limits.facts ∧ (∀ f ∈ g.makeRoom.facts, f ∈ g.facts) ∧
      (∀ f ∈ g.makeRoom.facts, f.key ∈ g.superseded → f.key ∈ g.makeRoom.superseded) := by
  rcases makeRoom_cases hpos h.capacity with ⟨hlt, heq⟩ | ⟨gone, hfull, hgone, heq⟩
  · rw [heq]
    exact ⟨h, hlt, fun _ hf => hf, fun _ _ hk => hk⟩
  · rw [heq]
    refine ⟨h.evict hgone, ?_, fun f hf => List.mem_of_mem_eraseIdx hf, fun f hf hk => ?_⟩
    · have hlt : removable g.facts < g.facts.length :=
        (List.getElem?_eq_some_iff.1 hgone).1
      simp only [List.length_eraseIdx, hlt, if_true]
      omega
    · exact Finset.mem_erase.2 ⟨((mem_eraseIdx_iff h.keys hgone).1 hf).2, hk⟩

/-! ## The operations keep the invariant -/

/-- Storing an acceptable fact keeps the store consistent. -/
theorem store_storeVersion (hpos : 0 < g.limits.facts)
    (h : StoreConsistent g.limits g.currentRun g.facts g.superseded)
    (hacc : ValidFact g.limits fact) (hrun : fact.scope ≠ .session → fact.runId = g.currentRun)
    (hfresh : ∀ f ∈ g.facts, f.identityKey = fact.identityKey → f.tick ≤ fact.tick) :
    StoreConsistent g.limits g.currentRun (g.storeVersion fact).1.facts
      (g.storeVersion fact).1.superseded := by
  have hmark : StoreConsistent g.limits g.currentRun g.facts (g.scanVersions fact).1 := by
    refine h.mark (fun k hk => mem_scanVersions_fst.2 (.inl hk)) fun k hk hnew => ?_
    rcases mem_scanVersions_fst.1 hk with hk | ⟨f, hf, -, -, hkey⟩
    · exact absurd hk hnew
    · exact ⟨f, hf, hkey⟩
  have hconflict : ∀ f ∈ g.facts, f.identityKey = fact.identityKey → f.key ≠ fact.key →
      f.key ∈ (g.scanVersions fact).1 := fun f hf hid hne =>
    mem_scanVersions_fst.2 (.inr ⟨f, hf, hid, hne, rfl⟩)
  rcases storeVersion_cases g fact with ⟨i, previous, hi, hkey, heq⟩ | ⟨hnone, heq⟩
  · rw [heq]
    exact hmark.reactivate hi hkey hacc fun f hf hid => ⟨hconflict f hf hid, hfresh f hf hid⟩
  · rw [heq]
    obtain ⟨hroom, hlt, hsub, hkeep⟩ :=
      store_makeRoom (g := { g with superseded := (g.scanVersions fact).1 }) hpos hmark
    refine hroom.append hlt hacc (fun f hf hid => ?_) hrun
    have hf' := hsub f hf
    exact ⟨hnone f hf' hid, hkeep f hf (hconflict f hf' hid (hnone f hf' hid)), hfresh f hf' hid⟩

/-- Storing a version does not touch the run, the limits or the window. -/
theorem storeVersion_frame (g : KnowledgeGraph) (fact : KnowledgeFact) :
    (g.storeVersion fact).1.limits = g.limits ∧
    (g.storeVersion fact).1.currentRun = g.currentRun ∧
    (g.storeVersion fact).1.eventOrder = g.eventOrder ∧
    (g.storeVersion fact).1.seenEvents = g.seenEvents ∧
    (g.storeVersion fact).1.generation = g.generation + 1 := by
  rcases storeVersion_cases g fact with ⟨i, previous, -, -, heq⟩ | ⟨-, heq⟩
  · rw [heq]
    exact ⟨rfl, rfl, rfl, rfl, rfl⟩
  · rw [heq]
    unfold append makeRoom
    split <;> exact ⟨rfl, rfl, rfl, rfl, rfl⟩

/-- `ingest_record` keeps the invariant. -/
theorem Consistent.ingestRecord (h : g.Consistent) (fact : KnowledgeFact) :
    (g.ingestRecord fact).1.Consistent := by
  cases hrefusal : g.refusal fact with
  | some reason =>
    rw [ingestRecord_of_refusal hrefusal]
    exact h
  | none =>
    have hacc := refusal_eq_none.1 hrefusal
    rw [ingestRecord_of_acceptable hacc]
    have hstore := store_storeVersion (g := g.recordEvent fact) h.positive.1 h.store hacc.valid
      hacc.run hacc.fresh
    obtain ⟨hlimits, hrun, horder, hseen, -⟩ := storeVersion_frame (g.recordEvent fact) fact
    refine ⟨?_, ?_, ?_⟩
    · rw [hlimits]
      exact h.positive
    · rw [hlimits, hrun]
      exact hstore
    · rw [hlimits, horder, hseen]
      exact h.window.record hacc.event

/-- The four ingest entry points keep the invariant. -/
theorem Consistent.ingest (h : g.Consistent) (fact : KnowledgeFact) :
    (g.ingest fact).1.Consistent := by
  unfold KnowledgeGraph.ingest
  split
  · exact h
  · exact h.ingestRecord fact

/-- `begin_run` keeps the invariant: what is retained is the session facts, or nothing. -/
theorem Consistent.beginRun (h : g.Consistent) (runId : Bytes) (retainSession : Bool) :
    (g.beginRun runId retainSession).1.Consistent := by
  unfold KnowledgeGraph.beginRun
  split
  · exact h
  · refine ⟨h.positive, ?_, ?_⟩
    · refine h.store.filter (keeps retainSession) fun f _ hkept hscope => ?_
      simp only [keeps, Bool.and_eq_true, decide_eq_true_eq] at hkept
      exact absurd hkept.1 hscope
    · exact ⟨List.nodup_nil, Nat.zero_le _, fun e => by simp⟩

/-- The records `restore_session_snapshot` accepts: valid session facts of distinct propositions,
none of which is among the identities already seen. -/
theorem snapshotError_eq_none : ∀ {snapshot : List KnowledgeFact} {identities : Finset Bytes},
    g.snapshotError snapshot identities = none ↔
      (∀ f ∈ snapshot, f.scope = .session ∧ ValidFact g.limits f ∧
        f.identityKey ∉ identities) ∧ (snapshot.map KnowledgeFact.identityKey).Nodup
  | [], _ => by simp [snapshotError]
  | fact :: rest, identities => by
      have ih := @snapshotError_eq_none rest (insert fact.identityKey identities)
      rw [List.map_cons, List.nodup_cons, List.forall_mem_cons]
      unfold snapshotError
      constructor
      · intro h
        split at h
        · cases h
        · next hscope =>
          split at h
          · cases h
          · next hvalidate =>
            split at h
            · cases h
            · next hnew =>
              obtain ⟨hrest, hnodup⟩ := ih.1 h
              refine ⟨⟨⟨not_not.1 hscope, (KnowledgeLimits.validate_eq_none.1 hvalidate).1, hnew⟩,
                fun f hf => ⟨(hrest f hf).1, (hrest f hf).2.1, fun hk =>
                  (hrest f hf).2.2 (Finset.mem_insert_of_mem hk)⟩⟩, ?_, hnodup⟩
              intro hmem
              obtain ⟨f, hf, heq⟩ := List.mem_map.1 hmem
              exact (hrest f hf).2.2 (heq ▸ Finset.mem_insert_self _ _)
      · rintro ⟨⟨⟨hscope, hvalid, hnew⟩, hrest⟩, hfirst, hnodup⟩
        rw [if_neg (not_not.2 hscope),
          KnowledgeLimits.validate_eq_none.2 ⟨hvalid, .inl hscope⟩]
        dsimp only
        rw [if_neg hnew, ih]
        refine ⟨fun f hf => ⟨(hrest f hf).1, (hrest f hf).2.1, fun hk => ?_⟩, hnodup⟩
        rcases Finset.mem_insert.1 hk with heq | hk
        · exact hfirst (heq ▸ List.mem_map_of_mem hf)
        · exact (hrest f hf).2.2 hk

/-- The snapshots `restore_session_snapshot` accepts in the state `g`. -/
structure Restorable (g : KnowledgeGraph) (snapshot : List KnowledgeFact) : Prop where
  begun : g.currentRun ≠ []
  room : snapshot.length + g.facts.countP (fun fact => fact.scope ≠ .session) ≤ g.limits.facts
  records : ∀ f ∈ snapshot, f.scope = .session ∧ ValidFact g.limits f
  identities : (snapshot.map KnowledgeFact.identityKey).Nodup

/-- What a restored graph looks like. -/
def restored (g : KnowledgeGraph) (snapshot : List KnowledgeFact) : KnowledgeGraph :=
  { g with
    superseded := (g.facts.filter fun fact => fact.scope = .session).foldl
      (fun marks fact => marks.erase fact.key) g.superseded
    facts := (g.facts.filter fun fact => fact.scope ≠ .session) ++ snapshot
    generation := g.generation + 1 }

/-- **What restoring does.** An acceptable snapshot replaces the session facts; any other one
throws and changes nothing. -/
theorem restoreSessionSnapshot_cases (g : KnowledgeGraph) (snapshot : List KnowledgeFact) :
    (g.Restorable snapshot ∧ g.restoreSessionSnapshot snapshot = (g.restored snapshot, .ok ())) ∨
    (¬ g.Restorable snapshot ∧
      ∃ failure, g.restoreSessionSnapshot snapshot = (g, .error failure)) := by
  unfold restoreSessionSnapshot
  split
  · next hrun => exact .inr ⟨fun h => h.begun hrun, _, rfl⟩
  · next hrun =>
    split
    · next hroom => exact .inr ⟨fun h => absurd h.room (Nat.not_le.2 hroom), _, rfl⟩
    · next hroom =>
      cases herror : g.snapshotError snapshot ∅ with
      | some failure =>
        refine .inr ⟨fun h => ?_, failure, rfl⟩
        have hnone : g.snapshotError snapshot ∅ = none := snapshotError_eq_none.2
          ⟨fun f hf => ⟨(h.records f hf).1, (h.records f hf).2, by simp⟩, h.identities⟩
        rw [hnone] at herror
        cases herror
      | none =>
        obtain ⟨hrecords, hidentities⟩ := snapshotError_eq_none.1 herror
        exact .inl ⟨⟨hrun, Nat.not_lt.1 hroom, fun f hf => ⟨(hrecords f hf).1, (hrecords f hf).2.1⟩,
          hidentities⟩, rfl⟩

/-- Replacing the session facts by an acceptable snapshot keeps the invariant. -/
theorem Consistent.restored (h : g.Consistent) {snapshot : List KnowledgeFact}
    (hs : g.Restorable snapshot) : (g.restored snapshot).Consistent := by
  refine ⟨h.positive, ?_, h.window⟩
  have hkept := h.store.filter (fun fact => decide (fact.scope ≠ .session))
    fun f hf _ hscope => h.store.run f hf hscope
  simp only [ne_eq, decide_not, Bool.not_not] at hkept
  simp only [KnowledgeGraph.restored, ne_eq, decide_not]
  refine hkept.appendAll ?_ (fun f hf => (hs.records f hf).2) hs.identities ?_ ?_
  · have hroom := hs.room
    rw [List.countP_eq_length_filter] at hroom
    simp only [ne_eq, decide_not] at hroom
    omega
  · intro f hf f' hf' heq
    obtain ⟨hf, hscope⟩ := List.mem_filter.1 hf
    obtain ⟨hscope', hvalid'⟩ := hs.records f' hf'
    have hsame := (((h.store.valid f hf).identityKey_inj hvalid').1 heq).2.1
    simp [hsame, hscope'] at hscope
  · exact fun f hf hscope => absurd (hs.records f hf).1 hscope

/-- `restore_session_snapshot` keeps the invariant. -/
theorem Consistent.restoreSessionSnapshot (h : g.Consistent) (snapshot : List KnowledgeFact) :
    (g.restoreSessionSnapshot snapshot).1.Consistent := by
  rcases restoreSessionSnapshot_cases g snapshot with ⟨hs, heq⟩ | ⟨-, failure, heq⟩
  · rw [heq]
    exact h.restored hs
  · rw [heq]
    exact h

/-- `clear` keeps the invariant. -/
theorem Consistent.clear (h : g.Consistent) : g.clear.Consistent := by
  refine ⟨h.positive, ?_, ⟨List.nodup_nil, Nat.zero_le _, fun e => by simp [KnowledgeGraph.clear]⟩⟩
  refine ⟨Nat.zero_le _, ?_, ?_, ?_, ?_, ?_, ?_⟩ <;> simp [KnowledgeGraph.clear]

/-- Every call keeps the invariant. -/
theorem Consistent.apply (h : g.Consistent) (op : KnowledgeOp) : (g.apply op).Consistent := by
  cases op with
  | beginRun runId retainSession => exact h.beginRun runId retainSession
  | ingest fact => exact h.ingest fact
  | ingestHypothesis fact | ingestRamObservation fact | ingestVerifiedOutcome fact =>
      exact h.ingestRecord _
  | restoreSessionSnapshot snapshot => exact h.restoreSessionSnapshot snapshot
  | clear => exact h.clear

/-- A constructed graph is consistent. -/
theorem Consistent.create {limits : KnowledgeLimits} (h : KnowledgeGraph.create limits = .ok g) :
    g.Consistent := by
  unfold KnowledgeGraph.create at h
  split at h
  · cases h
  · next hpos =>
    cases h
    have hpos : limits.facts ≠ 0 ∧ limits.deduplicationIds ≠ 0 ∧ limits.fieldBytes ≠ 0 := by
      simpa only [not_or] using hpos
    refine ⟨⟨Nat.pos_of_ne_zero hpos.1, Nat.pos_of_ne_zero hpos.2.1,
      Nat.pos_of_ne_zero hpos.2.2⟩, ?_, ⟨List.nodup_nil, Nat.zero_le _, fun e => by simp⟩⟩
    refine ⟨Nat.zero_le _, ?_, ?_, ?_, ?_, ?_, ?_⟩ <;> simp

/-- No call changes the limits. -/
theorem apply_limits (g : KnowledgeGraph) (op : KnowledgeOp) : (g.apply op).limits = g.limits := by
  have hrecord : ∀ fact, (g.ingestRecord fact).1.limits = g.limits := by
    intro fact
    unfold ingestRecord
    split
    · rfl
    · exact (storeVersion_frame (g.recordEvent fact) fact).1
  cases op with
  | beginRun runId retainSession =>
      simp only [apply, beginRun]
      split <;> rfl
  | ingest fact =>
      simp only [apply, KnowledgeGraph.ingest]
      split
      · rfl
      · exact hrecord fact
  | ingestHypothesis fact | ingestRamObservation fact | ingestVerifiedOutcome fact =>
      exact hrecord _
  | restoreSessionSnapshot snapshot =>
      rcases restoreSessionSnapshot_cases g snapshot with ⟨-, heq⟩ | ⟨-, failure, heq⟩ <;>
        simp only [apply, heq, restored]
  | clear => rfl

/-! ## The ingest entry points -/

/-- The entry points a fact can arrive through. -/
inductive IngestPath where
  | ingest
  | ingestHypothesis
  | ingestRamObservation
  | ingestVerifiedOutcome
  deriving DecidableEq

/-- The call that ingests a fact through an entry point. -/
def IngestPath.op (path : IngestPath) (fact : KnowledgeFact) : KnowledgeOp :=
  match path with
  | .ingest => .ingest fact
  | .ingestHypothesis => .ingestHypothesis fact
  | .ingestRamObservation => .ingestRamObservation fact
  | .ingestVerifiedOutcome => .ingestVerifiedOutcome fact

/-- The record an entry point hands to `ingest_record`. -/
def IngestPath.record (path : IngestPath) (fact : KnowledgeFact) : KnowledgeFact :=
  match path with
  | .ingest => fact
  | .ingestHypothesis => { fact with evidence := .modelHypothesis }
  | .ingestRamObservation => { fact with evidence := .ramObservation }
  | .ingestVerifiedOutcome => { fact with evidence := .verifiedOutcome }

/-- The general entry point is permitted for hypotheses only. -/
def IngestPath.Permitted (path : IngestPath) (fact : KnowledgeFact) : Prop :=
  path = .ingest → fact.evidence = .modelHypothesis

/-- Through a permitted entry point a fact reaches `ingest_record`. -/
theorem apply_op {path : IngestPath} (h : path.Permitted fact) (g : KnowledgeGraph) :
    g.apply (path.op fact) = (g.ingestRecord (path.record fact)).1 := by
  cases path with
  | ingest =>
      simp only [apply, IngestPath.op, IngestPath.record, KnowledgeGraph.ingest, ne_eq, h rfl,
        not_true_eq_false, if_false]
  | ingestHypothesis | ingestRamObservation | ingestVerifiedOutcome => rfl

/-- The result of the call. -/
def IngestPath.result (path : IngestPath) (g : KnowledgeGraph) (fact : KnowledgeFact) :
    KnowledgeIngestResult :=
  match path with
  | .ingest => (g.ingest fact).2
  | .ingestHypothesis => (g.ingestHypothesis fact).2
  | .ingestRamObservation => (g.ingestRamObservation fact).2
  | .ingestVerifiedOutcome => (g.ingestVerifiedOutcome fact).2

/-- The entry point does not change the key of the version. -/
@[simp] theorem IngestPath.key_record (path : IngestPath) (fact : KnowledgeFact) :
    (path.record fact).key = fact.key := by
  cases path <;> rfl

/-- Storing a version is reported as accepted. -/
theorem storeVersion_accepted (g : KnowledgeGraph) (fact : KnowledgeFact) :
    (g.storeVersion fact).2.accepted = true := by
  unfold storeVersion
  dsimp only
  split <;> rfl

/-- `ingest_record` accepts exactly the acceptable facts. -/
theorem ingestRecord_accepted : (g.ingestRecord fact).2.accepted = true ↔ g.Acceptable fact := by
  rw [← refusal_eq_none]
  cases hrefusal : g.refusal fact with
  | some reason => simp [ingestRecord_of_refusal hrefusal]
  | none =>
    rw [ingestRecord_of_acceptable (refusal_eq_none.1 hrefusal)]
    simp [storeVersion_accepted]

/-- An entry point accepts the facts it is permitted for whose record is acceptable. -/
theorem IngestPath.accepted_iff {path : IngestPath} :
    (path.result g fact).accepted = true ↔
      path.Permitted fact ∧ g.Acceptable (path.record fact) := by
  cases path with
  | ingest =>
      simp only [IngestPath.result, KnowledgeGraph.ingest, IngestPath.record, IngestPath.Permitted,
        forall_const]
      split
      · next hevidence => simp [hevidence]
      · next hevidence => rw [ingestRecord_accepted, and_iff_right (not_not.1 hevidence)]
  | ingestHypothesis | ingestRamObservation | ingestVerifiedOutcome =>
      simp only [IngestPath.Permitted, reduceCtorEq, false_implies, true_and]
      exact ingestRecord_accepted

/-- A call that is not accepted changes nothing. -/
theorem apply_op_of_not_accepted {path : IngestPath} (h : (path.result g fact).accepted = false) :
    g.apply (path.op fact) = g := by
  have hrecord : ∀ record, ¬ g.Acceptable record → (g.ingestRecord record).1 = g := by
    intro record hnot
    cases hrefusal : g.refusal record with
    | some reason => rw [ingestRecord_of_refusal hrefusal]
    | none => exact absurd (refusal_eq_none.1 hrefusal) hnot
  have hnot := IngestPath.accepted_iff.not.1 (Bool.eq_false_iff.1 h)
  by_cases hpermitted : path.Permitted fact
  · rw [apply_op hpermitted]
    exact hrecord _ fun hacc => hnot ⟨hpermitted, hacc⟩
  · cases path with
    | ingest =>
        have hevidence : fact.evidence ≠ .modelHypothesis := fun he => hpermitted fun _ => he
        simp only [apply, IngestPath.op, KnowledgeGraph.ingest, if_pos hevidence]
    | ingestHypothesis | ingestRamObservation | ingestVerifiedOutcome =>
        exact absurd (fun hpath => by cases hpath) hpermitted

/-- Every call is an ingest through one of the entry points, or one of the three others. -/
theorem op_cases (op : KnowledgeOp) :
    (∃ path fact, op = IngestPath.op path fact) ∨ (∃ runId retain, op = .beginRun runId retain) ∨
      (∃ snapshot, op = .restoreSessionSnapshot snapshot) ∨ op = .clear := by
  cases op with
  | ingest fact => exact .inl ⟨.ingest, fact, rfl⟩
  | ingestHypothesis fact => exact .inl ⟨.ingestHypothesis, fact, rfl⟩
  | ingestRamObservation fact => exact .inl ⟨.ingestRamObservation, fact, rfl⟩
  | ingestVerifiedOutcome fact => exact .inl ⟨.ingestVerifiedOutcome, fact, rfl⟩
  | beginRun runId retain => exact .inr (.inl ⟨runId, retain, rfl⟩)
  | restoreSessionSnapshot snapshot => exact .inr (.inr (.inl ⟨snapshot, rfl⟩))
  | clear => exact .inr (.inr (.inr rfl))

/-! ## Reachable graphs -/

/-- The calls taken one after the other are a run of the machine. -/
theorem run_foldl (g : KnowledgeGraph) (ops : List KnowledgeOp) :
    Run step g ops (ops.foldl apply g) := by
  induction ops generalizing g with
  | nil => simp
  | cons op ops ih => exact Run.cons_iff.2 ⟨g.apply op, rfl, ih (g.apply op)⟩

/-- A reachable graph is consistent and has the limits it was constructed with. -/
theorem IsReachable.consistent {limits : KnowledgeLimits} (h : IsReachable limits g) :
    g.Consistent ∧ g.limits = limits := by
  obtain ⟨g₀, hcreate, hreach⟩ := h
  have hlimits : g₀.limits = limits := by
    unfold create at hcreate
    split at hcreate
    · cases hcreate
    · cases hcreate
      rfl
  refine Reachable.invariant (I := fun g => g.Consistent ∧ g.limits = limits)
    ⟨Consistent.create hcreate, hlimits⟩ (fun g op g' hg hstep => ?_) hreach
  cases hstep
  exact ⟨hg.1.apply op, (apply_limits g op).trans hg.2⟩

/-- **The containers of a reachable graph agree.** The store is within capacity, its version keys
are distinct and include every superseded key; an active version is the only one of its
proposition and the youngest; run and observation facts belong to the current run; and the event
window lists exactly the seen events, once each, within its limit. -/
theorem reachable_containers_agree {limits : KnowledgeLimits} (h : IsReachable limits g) :
    g.facts.length ≤ limits.facts ∧
    (g.facts.map KnowledgeFact.key).Nodup ∧
    (∀ k ∈ g.superseded, ∃ f ∈ g.facts, f.key = k) ∧
    (∀ f ∈ g.facts, f.key ∉ g.superseded → ∀ f' ∈ g.facts, f'.identityKey = f.identityKey →
      f'.tick ≤ f.tick ∧ (f'.key ∉ g.superseded → f' = f)) ∧
    (∀ f ∈ g.facts, f.scope ≠ .session → f.runId = g.currentRun) ∧
    g.eventOrder.Nodup ∧ g.eventOrder.length ≤ limits.deduplicationIds ∧
    (∀ e, e ∈ g.seenEvents ↔ e ∈ g.eventOrder) := by
  obtain ⟨hcons, rfl⟩ := h.consistent
  refine ⟨hcons.store.capacity, hcons.store.keys, hcons.store.marks, ?_, hcons.store.run,
    hcons.window.nodup, hcons.window.size, hcons.window.seen⟩
  intro f hf hact f' hf' hid
  exact ⟨hcons.store.latest f hf f' hf' hid hact, hcons.store.active f hf f' hf' hid hact⟩

/-- The fact of `tests/knowledge_test.cpp` with a given value, event and tick. -/
def motionFact (object eventId : Bytes) (tick : Nat) : KnowledgeFact where
  id := lit "enemy-1-motion"
  subject := lit "goomba-1"
  relation := lit "moves_left"
  object := object
  source := lit "ram-tracker"
  eventId := eventId
  runId := lit "run-1"
  scope := .session
  tick := tick

/-- The calls of the test that observes `A`, then `B`, then `A` again. -/
def reactivation : List KnowledgeOp :=
  [.beginRun (lit "run-1") true,
    .ingestRamObservation (motionFact (lit "0.8 px/frame") (lit "event-a1") 1),
    .ingestRamObservation (motionFact (lit "0.2 px/frame") (lit "event-b") 2),
    .ingestRamObservation (motionFact (lit "0.8 px/frame") (lit "event-a2") 3)]

/-- The containers agree when a fact has been superseded and is active again. -/
theorem reachable_containers_agree_reactivation :
    let g := reactivation.foldl apply { limits := {} }
    g.superseded ≠ ∅ ∧ (g.facts.map KnowledgeFact.key).Nodup ∧
      (∀ k ∈ g.superseded, ∃ f ∈ g.facts, f.key = k) ∧
      (∀ f ∈ g.facts, f.key ∉ g.superseded → ∀ f' ∈ g.facts, f'.identityKey = f.identityKey →
        f'.tick ≤ f.tick ∧ (f'.key ∉ g.superseded → f' = f)) ∧
      (∀ e, e ∈ g.seenEvents ↔ e ∈ g.eventOrder) := by
  intro g
  have hreach : IsReachable {} g := ⟨{ limits := {} }, rfl, reactivation, run_foldl _ _⟩
  obtain ⟨-, hkeys, hmarks, hactive, -, -, -, hseen⟩ := reachable_containers_agree hreach
  exact ⟨by decide, hkeys, hmarks, hactive, hseen⟩

end KnowledgeGraph

end Jevt
