import Mathlib.Data.Finset.Basic
import Mathlib.Data.List.Basic
import Jevt.Knowledge.Fact

/-!
# The knowledge graph

`knowledge_graph` of `include/jevt/knowledge.hpp`, operation by operation: the stored facts in
insertion order, the keys of the versions that were superseded, and the window of the event
identifiers that were accepted. An unordered set of the source is a `Finset`.

Every operation returns the state it leaves behind next to its result, also where it throws: that
a throwing call changes nothing is a theorem, not a convention.
-/

namespace Jevt

/-- The state of a `knowledge_graph`. -/
structure KnowledgeGraph where
  limits : KnowledgeLimits
  currentRun : Bytes := []
  facts : List KnowledgeFact := []
  seenEvents : Finset Bytes := ∅
  eventOrder : List Bytes := []
  superseded : Finset Bytes := ∅
  generation : Nat := 0
  deriving DecidableEq

/-- `knowledge_ingest_result`. -/
structure KnowledgeIngestResult where
  accepted : Bool
  reason : Bytes
  generation : Nat
  deriving DecidableEq, Repr

namespace KnowledgeGraph

/-- The constructor. -/
def create (limits : KnowledgeLimits) : Except StdException KnowledgeGraph :=
  if limits.facts = 0 ∨ limits.deduplicationIds = 0 ∨ limits.fieldBytes = 0 then
    .error (.invalidArgument (lit "knowledge graph limits must be positive"))
  else .ok { limits }

/-- The facts `begin_run` keeps. -/
def keeps (retainSession : Bool) (fact : KnowledgeFact) : Bool :=
  fact.scope = .session && retainSession

/-- `begin_run`. The compacting loop keeps the retained facts in order and forgets the
superseded mark of each fact it drops. -/
def beginRun (g : KnowledgeGraph) (runId : Bytes) (retainSession : Bool) :
    KnowledgeGraph × Except StdException Unit :=
  if runId = [] ∨ g.limits.fieldBytes < runId.length ∨ unitSeparator ∈ runId then
    (g, .error (.invalidArgument (lit "run ID is empty or too long")))
  else
    let dropped := g.facts.filter fun fact => !keeps retainSession fact
    ({ g with
        currentRun := runId
        facts := g.facts.filter (keeps retainSession)
        superseded := dropped.foldl (fun marks fact => marks.erase fact.key) g.superseded
        seenEvents := ∅
        eventOrder := []
        generation := if dropped.isEmpty then g.generation else g.generation + 1 },
      .ok ())

/-- The loop that cuts the event window back to its limit, oldest event first. -/
def trimEvents (limit : Nat) : List Bytes → Finset Bytes → List Bytes × Finset Bytes
  | [], seen => ([], seen)
  | front :: rest, seen =>
    if limit < (front :: rest).length then trimEvents limit rest (seen.erase front)
    else (front :: rest, seen)

/-- One turn of the loop that looks for the version `fact` belongs to: a stored version of the
same proposition is either that version, whose position is kept, or is marked superseded. -/
def scanVersion (fact : KnowledgeFact) (acc : Finset Bytes × Option Nat)
    (stored : KnowledgeFact × Nat) : Finset Bytes × Option Nat :=
  if stored.1.identityKey ≠ fact.identityKey then acc
  else if stored.1.key = fact.key then (acc.1, some stored.2)
  else (insert stored.1.key acc.1, acc.2)

/-- What `ingest_record` writes into the stored version it matches. The provenance is replaced
only by evidence that is at least as strong. -/
def refresh (previous fact : KnowledgeFact) : KnowledgeFact :=
  let updated := { previous with
    tick := fact.tick
    expiresAt := fact.expiresAt
    priority := max previous.priority fact.priority }
  if previous.evidence.evidenceRank ≤ fact.evidence.evidenceRank then
    { updated with evidence := fact.evidence, source := fact.source, eventId := fact.eventId }
  else updated

/-- The position of the fact that makes room at capacity: the oldest fact that is not a session
fact, or else the oldest fact. -/
def removable (facts : List KnowledgeFact) : Nat :=
  (facts.findIdx? fun value => value.scope ≠ .session).getD 0

/-- Removing the fact at a position, together with its superseded mark. -/
def evict (g : KnowledgeGraph) (i : Nat) : KnowledgeGraph :=
  { g with
    facts := g.facts.eraseIdx i
    superseded := match g.facts[i]? with
      | some fact => g.superseded.erase fact.key
      | none => g.superseded }

/-- The key an event is deduplicated by. -/
def eventKey (fact : KnowledgeFact) : Bytes :=
  fact.runId ++ lit ":" ++ fact.eventId

/-- Recording an accepted event: it enters the window, and the window is cut back. -/
def recordEvent (g : KnowledgeGraph) (fact : KnowledgeFact) : KnowledgeGraph :=
  let (eventOrder, seenEvents) := trimEvents g.limits.deduplicationIds
    (g.eventOrder ++ [eventKey fact]) (insert (eventKey fact) g.seenEvents)
  { g with eventOrder, seenEvents }

/-- The loop over the stored facts: the superseded marks it leaves, and the position of the stored
version `fact` repeats, if there is one. -/
def scanVersions (g : KnowledgeGraph) (fact : KnowledgeFact) : Finset Bytes × Option Nat :=
  g.facts.zipIdx.foldl (scanVersion fact) (g.superseded, none)

/-- Making the matched version, whose key is the one of `fact`, the active one again. -/
def reactivate (g : KnowledgeGraph) (i : Nat) (fact : KnowledgeFact) : KnowledgeGraph :=
  { g with
    superseded := g.superseded.erase fact.key
    facts := g.facts.modify i (refresh · fact)
    generation := g.generation + 1 }

/-- The eviction before a new version is stored. -/
def makeRoom (g : KnowledgeGraph) : KnowledgeGraph :=
  if g.facts.length = g.limits.facts then g.evict (removable g.facts) else g

/-- Storing a new version. -/
def append (g : KnowledgeGraph) (fact : KnowledgeFact) : KnowledgeGraph :=
  { g with facts := g.facts ++ [fact], generation := g.generation + 1 }

/-- The second half of `ingest_record`, after every check has passed: store the version and
supersede the others of its proposition. -/
def storeVersion (g : KnowledgeGraph) (fact : KnowledgeFact) :
    KnowledgeGraph × KnowledgeIngestResult :=
  let marked := { g with superseded := (g.scanVersions fact).1 }
  match (g.scanVersions fact).2 with
  | some i => (marked.reactivate i fact, ⟨true, lit "evidence_appended", g.generation + 1⟩)
  | none => (marked.makeRoom.append fact, ⟨true, lit "fact_ingested", g.generation + 1⟩)

/-- An observation needs an expiry that is not before its own tick. -/
def observationExpires (fact : KnowledgeFact) : Bool :=
  match fact.expiresAt with
  | none => false
  | some expiry => !decide (expiry < fact.tick)

/-- Whether a stored version of the same proposition is younger than `fact`. -/
def staleTick (g : KnowledgeGraph) (fact : KnowledgeFact) : Bool :=
  g.facts.any fun previous =>
    previous.identityKey = fact.identityKey && decide (fact.tick < previous.tick)

/-- The checks of `ingest_record`, in order: the reason a fact is refused, if it is. -/
def refusal (g : KnowledgeGraph) (fact : KnowledgeFact) : Option Bytes :=
  match g.limits.validate g.currentRun fact with
  | some invalid => some invalid
  | none =>
    if fact.scope ≠ .session ∧ fact.runId ≠ g.currentRun then some (lit "wrong_run_scope")
    else if fact.scope = .observation ∧ observationExpires fact = false then
      some (lit "observation_needs_valid_expiry")
    else if g.staleTick fact then some (lit "stale_evidence_tick")
    else if eventKey fact ∈ g.seenEvents then some (lit "duplicate_event")
    else none

/-- `ingest_record`. -/
def ingestRecord (g : KnowledgeGraph) (fact : KnowledgeFact) :
    KnowledgeGraph × KnowledgeIngestResult :=
  match g.refusal fact with
  | some reason => (g, ⟨false, reason, g.generation⟩)
  | none => (g.recordEvent fact).storeVersion fact

/-- `ingest`: the general entry point takes hypotheses only. -/
def ingest (g : KnowledgeGraph) (fact : KnowledgeFact) : KnowledgeGraph × KnowledgeIngestResult :=
  if fact.evidence ≠ .modelHypothesis then
    (g, ⟨false, lit "evidence_requires_attested_ingest_path", g.generation⟩)
  else g.ingestRecord fact

/-- `ingest_hypothesis`. -/
def ingestHypothesis (g : KnowledgeGraph) (fact : KnowledgeFact) :
    KnowledgeGraph × KnowledgeIngestResult :=
  g.ingestRecord { fact with evidence := .modelHypothesis }

/-- `ingest_ram_observation`. -/
def ingestRamObservation (g : KnowledgeGraph) (fact : KnowledgeFact) :
    KnowledgeGraph × KnowledgeIngestResult :=
  g.ingestRecord { fact with evidence := .ramObservation }

/-- `ingest_verified_outcome`. -/
def ingestVerifiedOutcome (g : KnowledgeGraph) (fact : KnowledgeFact) :
    KnowledgeGraph × KnowledgeIngestResult :=
  g.ingestRecord { fact with evidence := .verifiedOutcome }

/-- `session_snapshot`: the active session facts, in storage order. -/
def sessionSnapshot (g : KnowledgeGraph) : List KnowledgeFact :=
  g.facts.filter fun fact => fact.scope = .session && decide (fact.key ∉ g.superseded)

/-- The loop of `restore_session_snapshot` that checks each record before anything is changed. -/
def snapshotError (g : KnowledgeGraph) :
    List KnowledgeFact → Finset Bytes → Option StdException
  | [], _ => none
  | fact :: rest, identities =>
    if fact.scope ≠ .session then
      some (.invalidArgument (lit "session snapshot contains non-session fact"))
    else match g.limits.validate g.currentRun fact with
      | some invalid => some (.invalidArgument (lit "invalid session snapshot fact: " ++ invalid))
      | none =>
        if fact.identityKey ∈ identities then
          some (.invalidArgument (lit "session snapshot contains duplicate fact identity"))
        else snapshotError g rest (insert fact.identityKey identities)

/-- `restore_session_snapshot`. -/
def restoreSessionSnapshot (g : KnowledgeGraph) (snapshot : List KnowledgeFact) :
    KnowledgeGraph × Except StdException Unit :=
  if g.currentRun = [] then
    (g, .error (.logicError (lit "begin_run must precede session snapshot restore")))
  else if g.limits.facts < snapshot.length + g.facts.countP (fun fact => fact.scope ≠ .session) then
    (g, .error (.lengthError (lit "session snapshot exceeds knowledge graph limit")))
  else match g.snapshotError snapshot ∅ with
    | some failure => (g, .error failure)
    | none =>
      let replaced := g.facts.filter fun fact => fact.scope = .session
      ({ g with
          superseded := replaced.foldl (fun marks fact => marks.erase fact.key) g.superseded
          facts := (g.facts.filter fun fact => fact.scope ≠ .session) ++ snapshot
          generation := g.generation + 1 },
        .ok ())

/-- `clear`. -/
def clear (g : KnowledgeGraph) : KnowledgeGraph :=
  { g with
    facts := []
    seenEvents := ∅
    eventOrder := []
    superseded := ∅
    currentRun := []
    generation := g.generation + 1 }

end KnowledgeGraph

/-- A call that may change a graph. -/
inductive KnowledgeOp where
  | beginRun (runId : Bytes) (retainSession : Bool)
  | ingest (fact : KnowledgeFact)
  | ingestHypothesis (fact : KnowledgeFact)
  | ingestRamObservation (fact : KnowledgeFact)
  | ingestVerifiedOutcome (fact : KnowledgeFact)
  | restoreSessionSnapshot (snapshot : List KnowledgeFact)
  | clear

/-- The state a call leaves behind, whether it succeeds, is refused or throws. -/
def KnowledgeGraph.apply (g : KnowledgeGraph) : KnowledgeOp → KnowledgeGraph
  | .beginRun runId retainSession => (g.beginRun runId retainSession).1
  | .ingest fact => (g.ingest fact).1
  | .ingestHypothesis fact => (g.ingestHypothesis fact).1
  | .ingestRamObservation fact => (g.ingestRamObservation fact).1
  | .ingestVerifiedOutcome fact => (g.ingestVerifiedOutcome fact).1
  | .restoreSessionSnapshot snapshot => (g.restoreSessionSnapshot snapshot).1
  | .clear => g.clear

end Jevt
