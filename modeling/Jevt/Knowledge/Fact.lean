import Jevt.Text

/-!
# Facts of the knowledge graph

The records of `include/jevt/knowledge.hpp`: a proposition with its provenance, the limits of a
graph, and the two byte keys a graph compares facts by. `key` names one version of a fact and
`identityKey` the proposition all its versions share; both join their fields with the byte
`0x1f`, which `validate` keeps out of every field.

A scoped enumeration of C++ can hold any value of its underlying type, and the graph checks for
that, so each of the two enumerations here has a constructor for the values without a name.
-/

namespace Jevt

/-- How long a fact lives: `knowledge_scope`. -/
inductive KnowledgeScope where
  | observation
  | run
  | session
  | unnamed (raw : Int)
  deriving DecidableEq, Repr

/-- What a fact rests on: `knowledge_evidence`. -/
inductive KnowledgeEvidence where
  | ramObservation
  | verifiedOutcome
  | modelHypothesis
  | unnamed (raw : Int)
  deriving DecidableEq, Repr

/-- `name(knowledge_scope)`. -/
def KnowledgeScope.name : KnowledgeScope → Bytes
  | .observation => lit "observation"
  | .run => lit "run"
  | .session => lit "session"
  | .unnamed _ => lit "observation"

/-- `knowledge_graph::evidence_rank`: a hypothesis is the weakest evidence, a verified outcome
the strongest. -/
def KnowledgeEvidence.evidenceRank : KnowledgeEvidence → Nat
  | .ramObservation => 1
  | .verifiedOutcome => 2
  | .modelHypothesis => 0
  | .unnamed _ => 0

/-- `knowledge_fact`, with its default member initializers. -/
structure KnowledgeFact where
  id : Bytes := []
  subject : Bytes := []
  relation : Bytes := []
  object : Bytes := []
  source : Bytes := []
  attributesJson : Bytes := []
  eventId : Bytes := []
  runId : Bytes := []
  scope : KnowledgeScope := .run
  evidence : KnowledgeEvidence := .modelHypothesis
  tick : Nat := 0
  expiresAt : Option Nat := none
  priority : Nat := 0
  deriving DecidableEq, Repr

/-- `knowledge_limits`, with its default member initializers. -/
structure KnowledgeLimits where
  facts : Nat := 4096
  deduplicationIds : Nat := 8192
  fieldBytes : Nat := 512
  deriving DecidableEq, Repr

/-- The reserved separator `'\x1f'`. -/
def unitSeparator : UInt8 := 0x1f

/-- `knowledge_graph::key`: the key of one version. -/
def KnowledgeFact.key (fact : KnowledgeFact) : Bytes :=
  fact.runId ++ [unitSeparator] ++ fact.scope.name ++ [unitSeparator] ++ fact.id ++
    [unitSeparator] ++ fact.subject ++ [unitSeparator] ++ fact.relation ++ [unitSeparator] ++
    fact.object

/-- `knowledge_graph::identity_key`: the key of the proposition all versions share. -/
def KnowledgeFact.identityKey (fact : KnowledgeFact) : Bytes :=
  fact.runId ++ [unitSeparator] ++ fact.scope.name ++ [unitSeparator] ++ fact.id

/-- The check `validate` makes of each required field. -/
def KnowledgeLimits.fieldError (limits : KnowledgeLimits) (value : Bytes) : Option Bytes :=
  if value = [] then some (lit "required_fact_field_missing")
  else if limits.fieldBytes < value.length then some (lit "fact_field_too_long")
  else if unitSeparator ∈ value then some (lit "reserved_fact_separator")
  else none

/-- `knowledge_graph::validate`, on the limits and the current run of a graph. The empty string
the source returns for a valid fact is `none`. -/
def KnowledgeLimits.validate (limits : KnowledgeLimits) (currentRun : Bytes)
    (fact : KnowledgeFact) : Option Bytes :=
  if fact.scope ≠ .observation ∧ fact.scope ≠ .run ∧ fact.scope ≠ .session then
    some (lit "invalid_fact_scope")
  else if fact.evidence ≠ .ramObservation ∧ fact.evidence ≠ .verifiedOutcome ∧
      fact.evidence ≠ .modelHypothesis then
    some (lit "invalid_fact_evidence")
  else
    match [fact.id, fact.subject, fact.relation, fact.object, fact.source, fact.eventId,
        fact.runId].findSome? limits.fieldError with
    | some invalid => some invalid
    | none =>
      if limits.fieldBytes < fact.attributesJson.length then some (lit "fact_field_too_long")
      else if 1000 < fact.priority then some (lit "priority_out_of_range")
      else if fact.scope ≠ .session ∧ currentRun = [] then some (lit "run_not_started")
      else none

end Jevt
