import Mathlib.Data.List.DropRight
import Jevt.Knowledge.Reachable
import Jevt.Library.Distinct

/-!
# Event deduplication

The event window of a graph holds the event keys of its last accepted ingests. `Logged` runs a
graph beside the list of the records accepted in the current period, which a run or a `clear`
begins; the window is the tail of that list, as long as the limit allows
(`Logged.Tracks`). So an otherwise acceptable record is refused as a duplicate exactly when a
record of the window has its event *key* (`refused_as_duplicate_iff`).

The key is `run_id + ":" + event_id`, and both strings may hold a colon. Two different events can
therefore have one key, and the second of them is then refused although it was never seen
(`duplicate_of_another_event`). Without such a pair in the window, deduplication is by run and
event identifier, as it is meant to be (`deduplication_exact_iff`).
-/

namespace Jevt

namespace KnowledgeGraph

/-- The record a call gets accepted. -/
def acceptedRecord (g : KnowledgeGraph) : KnowledgeOp → Option KnowledgeFact
  | .ingest fact => accepted .ingest fact
  | .ingestHypothesis fact => accepted .ingestHypothesis fact
  | .ingestRamObservation fact => accepted .ingestRamObservation fact
  | .ingestVerifiedOutcome fact => accepted .ingestVerifiedOutcome fact
  | .beginRun _ _ | .restoreSessionSnapshot _ | .clear => none
where
  accepted (path : IngestPath) (fact : KnowledgeFact) : Option KnowledgeFact :=
    if (path.result g fact).accepted then some (path.record fact) else none

/-- Whether a call starts a new period: a run that begins, or a `clear`. -/
def startsPeriod (g : KnowledgeGraph) : KnowledgeOp → Bool
  | .beginRun runId retainSession => (g.beginRun runId retainSession).2.isOk
  | .clear => true
  | _ => false

end KnowledgeGraph

/-- A graph with the records accepted in its current period, oldest first. -/
structure Logged where
  graph : KnowledgeGraph
  accepted : List KnowledgeFact

namespace Logged

open KnowledgeGraph

/-- A call, followed by its effect on the log. -/
def apply (t : Logged) (op : KnowledgeOp) : Logged where
  graph := t.graph.apply op
  accepted :=
    if t.graph.startsPeriod op then []
    else t.accepted ++ (t.graph.acceptedRecord op).toList

/-- The run of some calls, logged from a constructed graph. -/
def run (g₀ : KnowledgeGraph) (ops : List KnowledgeOp) : Logged :=
  ops.foldl Logged.apply ⟨g₀, []⟩

/-- Logging does not change the graph. -/
@[simp] theorem graph_run (g₀ : KnowledgeGraph) (ops : List KnowledgeOp) :
    (run g₀ ops).graph = ops.foldl KnowledgeGraph.apply g₀ := by
  have hfold : ∀ (t : Logged) (ops : List KnowledgeOp),
      (ops.foldl Logged.apply t).graph = ops.foldl KnowledgeGraph.apply t.graph := by
    intro t ops
    induction ops generalizing t with
    | nil => rfl
    | cons op ops ih => exact ih (t.apply op)
  exact hfold ⟨g₀, []⟩ ops

/-- The accepted records deduplication may look at: the last of the period. -/
def window (t : Logged) : List KnowledgeFact :=
  t.accepted.rtake t.graph.limits.deduplicationIds

/-- The event window is the tail of the log. -/
structure Tracks (t : Logged) : Prop where
  consistent : t.graph.Consistent
  order : t.graph.eventOrder = t.window.map eventKey

end Logged

/-! ## The window and the log -/

namespace KnowledgeGraph

variable {g : KnowledgeGraph} {fact : KnowledgeFact}

/-- An accepted ingest enters the window, which is cut back to its limit. -/
theorem eventOrder_ingestRecord (hacc : g.Acceptable fact) :
    (g.ingestRecord fact).1.eventOrder = (g.eventOrder ++ [eventKey fact]).drop
      ((g.eventOrder ++ [eventKey fact]).length - g.limits.deduplicationIds) := by
  rw [ingestRecord_of_acceptable hacc]
  obtain ⟨-, -, horder, -, -⟩ := storeVersion_frame (g.recordEvent fact) fact
  rw [horder]
  exact trimEvents_fst _ _ _

/-- A run that begins forgets every event. -/
theorem beginRun_cases (g : KnowledgeGraph) (runId : Bytes) (retainSession : Bool) :
    ((g.beginRun runId retainSession).2.isOk = true ∧
      (g.beginRun runId retainSession).1.eventOrder = []) ∨
    ((g.beginRun runId retainSession).2.isOk = false ∧ (g.beginRun runId retainSession).1 = g) := by
  unfold beginRun
  split
  · exact .inr ⟨rfl, rfl⟩
  · exact .inl ⟨rfl, rfl⟩

/-- A restored snapshot does not touch the window. -/
theorem eventOrder_restoreSessionSnapshot (g : KnowledgeGraph) (snapshot : List KnowledgeFact) :
    (g.restoreSessionSnapshot snapshot).1.eventOrder = g.eventOrder := by
  rcases restoreSessionSnapshot_cases g snapshot with ⟨-, heq⟩ | ⟨-, failure, heq⟩ <;> rw [heq]
  rfl

/-- An ingest is logged when it is accepted, and does not start a period. -/
theorem acceptedRecord_op (g : KnowledgeGraph) (path : IngestPath) (fact : KnowledgeFact) :
    g.acceptedRecord (path.op fact) =
      (if (path.result g fact).accepted then some (path.record fact) else none) ∧
    g.startsPeriod (path.op fact) = false := by
  cases path <;> exact ⟨rfl, rfl⟩

end KnowledgeGraph

namespace Logged

open KnowledgeGraph

/-- One call keeps the window at the tail of the log. -/
theorem Tracks.apply {t : Logged} (h : t.Tracks) (op : KnowledgeOp) : (t.apply op).Tracks := by
  refine ⟨h.consistent.apply op, ?_⟩
  have hlimits : (t.apply op).graph.limits = t.graph.limits := apply_limits t.graph op
  have hwindow : t.graph.eventOrder =
      (t.accepted.rtake t.graph.limits.deduplicationIds).map eventKey := h.order
  rw [window, hlimits]
  rcases op_cases op with ⟨path, fact, rfl⟩ | ⟨runId, retain, rfl⟩ | ⟨snapshot, rfl⟩ | rfl
  · obtain ⟨hrecord, hstart⟩ := acceptedRecord_op t.graph path fact
    cases haccepted : (path.result t.graph fact).accepted with
    | false =>
      simp only [Logged.apply, hrecord, hstart, haccepted, apply_op_of_not_accepted haccepted]
      simpa using hwindow
    | true =>
      obtain ⟨hpermitted, hacc⟩ := IngestPath.accepted_iff.1 haccepted
      have hpos := h.consistent.positive.2.1
      simp only [Logged.apply, hrecord, hstart, haccepted, apply_op hpermitted,
        eventOrder_ingestRecord hacc, hwindow, Bool.false_eq_true, if_false, if_true,
        Option.toList_some]
      rw [← Library.rtake_append_singleton hpos, List.map_drop, List.map_append, List.length_append,
        List.length_append, List.length_map]
      rfl
  · rcases beginRun_cases t.graph runId retain with ⟨hok, horder⟩ | ⟨hfail, heq⟩
    · simp only [Logged.apply, startsPeriod, hok, if_true, KnowledgeGraph.apply, horder,
        List.rtake_nil, List.map_nil]
    · simp only [Logged.apply, startsPeriod, hfail, KnowledgeGraph.apply, heq]
      simpa [acceptedRecord] using hwindow
  · simp only [Logged.apply, startsPeriod, KnowledgeGraph.apply, acceptedRecord,
      eventOrder_restoreSessionSnapshot]
    simpa using hwindow
  · simp only [Logged.apply, startsPeriod, KnowledgeGraph.apply, clear, if_true, List.rtake_nil,
      List.map_nil]

/-- After every run the window is the tail of the log. -/
theorem tracks_run {limits : KnowledgeLimits} {g₀ : KnowledgeGraph}
    (hcreate : create limits = .ok g₀) (ops : List KnowledgeOp) : (run g₀ ops).Tracks := by
  induction ops using List.reverseRecOn with
  | nil =>
    refine ⟨Consistent.create hcreate, ?_⟩
    unfold create at hcreate
    split at hcreate
    · cases hcreate
    · cases hcreate
      simp [run, window]
  | append_singleton ops op ih =>
    have hrun : run g₀ (ops ++ [op]) = (run g₀ ops).apply op := by
      rw [run, List.foldl_append]
      rfl
    rw [hrun]
    exact ih.apply op

end Logged

namespace KnowledgeGraph

variable {g g₀ : KnowledgeGraph} {fact : KnowledgeFact}

/-! ## Which records are duplicates -/

/-- The checks of `ingest_record` other than the one for duplicates. -/
structure OtherwiseAcceptable (g : KnowledgeGraph) (fact : KnowledgeFact) : Prop where
  valid : ValidFact g.limits fact
  begun : fact.scope = .session ∨ g.currentRun ≠ []
  run : fact.scope ≠ .session → fact.runId = g.currentRun
  expiry : fact.scope = .observation → observationExpires fact = true
  fresh : ∀ f ∈ g.facts, f.identityKey = fact.identityKey → f.tick ≤ fact.tick

/-- An otherwise acceptable record is refused exactly when its event key was seen, and then as a
duplicate. -/
theorem OtherwiseAcceptable.refusal (h : g.OtherwiseAcceptable fact) :
    g.refusal fact = some (lit "duplicate_event") ↔ eventKey fact ∈ g.seenEvents := by
  unfold KnowledgeGraph.refusal
  rw [KnowledgeLimits.validate_eq_none.2 ⟨h.valid, h.begun⟩]
  dsimp only
  rw [if_neg (fun hrun => hrun.2 (h.run hrun.1)),
    if_neg (fun hexpiry => by simp [h.expiry hexpiry.1] at hexpiry),
    KnowledgeGraph.staleTick_eq_false.2 h.fresh, if_neg (by simp)]
  split <;> simp_all

/-- The result of an entry point is a refusal as a duplicate exactly when the record is. -/
theorem IngestPath.result_eq_duplicate {path : IngestPath} (h : path.Permitted fact) :
    path.result g fact = ⟨false, lit "duplicate_event", g.generation⟩ ↔
      g.refusal (path.record fact) = some (lit "duplicate_event") := by
  have hresult : path.result g fact = (g.ingestRecord (path.record fact)).2 := by
    cases path with
    | ingest =>
        simp only [IngestPath.result, KnowledgeGraph.ingest, ne_eq, h rfl, not_true_eq_false,
          if_false, IngestPath.record]
    | ingestHypothesis | ingestRamObservation | ingestVerifiedOutcome => rfl
  rw [hresult]
  cases hrefusal : g.refusal (path.record fact) with
  | some reason =>
    rw [ingestRecord_of_refusal hrefusal]
    simp
  | none =>
    have haccepted := storeVersion_accepted (g.recordEvent (path.record fact)) (path.record fact)
    rw [ingestRecord_of_acceptable (refusal_eq_none.1 hrefusal)]
    constructor
    · intro heq
      rw [heq] at haccepted
      cases haccepted
    · intro heq
      cases heq

/-- **What counts as a duplicate.** After a run, an entry point refuses an otherwise acceptable
fact as a duplicate exactly when an accepted record of the window has its event key. -/
theorem refused_as_duplicate_iff {limits : KnowledgeLimits} (hcreate : create limits = .ok g₀)
    (ops : List KnowledgeOp) {path : IngestPath} (hpermitted : path.Permitted fact)
    (hacc : (ops.foldl apply g₀).OtherwiseAcceptable (path.record fact)) :
    path.result (ops.foldl apply g₀) fact =
        ⟨false, lit "duplicate_event", (ops.foldl apply g₀).generation⟩ ↔
      ∃ record ∈ (Logged.run g₀ ops).window, eventKey record = eventKey fact := by
  have htracks := Logged.tracks_run hcreate ops
  have hkey : eventKey (path.record fact) = eventKey fact := by cases path <;> rfl
  rw [IngestPath.result_eq_duplicate hpermitted, hacc.refusal, hkey, ← Logged.graph_run,
    htracks.consistent.window.seen, htracks.order, List.mem_map]

/-- **Deduplication is exact unless two events share a key.** After a run, that a fact is refused
as a duplicate means that its run and event identifier are among those last accepted in the
period, if and only if no record of the window has another pair with the same concatenation. -/
theorem deduplication_exact_iff {limits : KnowledgeLimits} (hcreate : create limits = .ok g₀)
    (ops : List KnowledgeOp) {path : IngestPath} (hpermitted : path.Permitted fact)
    (hacc : (ops.foldl apply g₀).OtherwiseAcceptable (path.record fact)) :
    (path.result (ops.foldl apply g₀) fact =
        ⟨false, lit "duplicate_event", (ops.foldl apply g₀).generation⟩ ↔
      ∃ record ∈ (Logged.run g₀ ops).window,
        record.runId = fact.runId ∧ record.eventId = fact.eventId) ↔
    ∀ record ∈ (Logged.run g₀ ops).window,
      record.runId ++ lit ":" ++ record.eventId = fact.runId ++ lit ":" ++ fact.eventId →
        record.runId = fact.runId ∧ record.eventId = fact.eventId := by
  rw [refused_as_duplicate_iff hcreate ops hpermitted hacc]
  have htracks := Logged.tracks_run hcreate ops
  have hnodup : ((Logged.run g₀ ops).window.map eventKey).Nodup :=
    htracks.order ▸ htracks.consistent.window.nodup
  have hkey : ∀ record : KnowledgeFact,
      record.runId = fact.runId ∧ record.eventId = fact.eventId →
        eventKey record = eventKey fact := by
    rintro record ⟨hrun, hevent⟩
    rw [eventKey, eventKey, hrun, hevent]
  constructor
  · intro hexact record hrecord hsame
    obtain ⟨record', hrecord', hpair⟩ := hexact.1 ⟨record, hrecord, hsame⟩
    obtain rfl := Library.eq_of_key_eq hnodup hrecord hrecord'
      (hsame.trans (hkey record' hpair).symm)
    exact hpair
  · intro hseparate
    constructor
    · rintro ⟨record, hrecord, hsame⟩
      exact ⟨record, hrecord, hseparate record hrecord hsame⟩
    · rintro ⟨record, hrecord, hpair⟩
      exact ⟨record, hrecord, hkey record hpair⟩

/-- An observation is a duplicate exactly when its event has been recorded for its run. -/
theorem deduplication_exact_iff_reactivation :
    IngestPath.result .ingestRamObservation (reactivation.foldl apply { limits := {} })
        (motionFact (lit "0.5 px/frame") (lit "event-b") 4) =
          ⟨false, lit "duplicate_event", (reactivation.foldl apply { limits := {} }).generation⟩ ↔
      ∃ record ∈ (Logged.run { limits := {} } reactivation).window,
        record.runId = lit "run-1" ∧ record.eventId = lit "event-b" :=
  (deduplication_exact_iff (rfl : create {} = .ok { limits := {} }) reactivation
    (show IngestPath.Permitted .ingestRamObservation
      (motionFact (lit "0.5 px/frame") (lit "event-b") 4) by simp [IngestPath.Permitted])
    ⟨⟨.inr (.inr rfl), .inl rfl, by decide +kernel, by decide +kernel, by decide +kernel⟩,
      .inl rfl, by simp [IngestPath.record, motionFact], by simp [IngestPath.record, motionFact],
      by decide +kernel⟩).2 (by decide +kernel)

/-- A session fact of a given run. -/
def sharedKey (id runId eventId : Bytes) : KnowledgeFact :=
  { motionFact (lit "0.8 px/frame") eventId 1 with id, runId }

/-- The run `a` with the event `c` of the run `a:b`. -/
def foreignEvent : List KnowledgeOp :=
  [.beginRun (lit "a") true,
    .ingestRamObservation (sharedKey (lit "first") (lit "a:b") (lit "c"))]

/-- An event that was never seen is refused as a duplicate, because another event has its key. -/
theorem duplicate_of_another_event :
    (foreignEvent.foldl apply { limits := {} }).OtherwiseAcceptable
      (IngestPath.record .ingestRamObservation (sharedKey (lit "second") (lit "a") (lit "b:c"))) ∧
    IngestPath.result .ingestRamObservation (foreignEvent.foldl apply { limits := {} })
        (sharedKey (lit "second") (lit "a") (lit "b:c")) = ⟨false, lit "duplicate_event", 1⟩ ∧
    ¬ ∃ record ∈ (Logged.run { limits := {} } foreignEvent).window,
      record.runId = lit "a" ∧ record.eventId = lit "b:c" := by
  refine ⟨⟨⟨.inr (.inr rfl), .inl rfl, ?_, ?_, ?_⟩, .inl rfl, ?_, ?_, ?_⟩, ?_⟩
  · decide +kernel
  · decide +kernel
  · decide +kernel
  · simp [IngestPath.record, sharedKey, motionFact]
  · simp [IngestPath.record, sharedKey, motionFact]
  · decide +kernel
  · decide +kernel

end KnowledgeGraph

end Jevt
