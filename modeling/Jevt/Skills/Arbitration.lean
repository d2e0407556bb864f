import Jevt.Core.Floating
import Jevt.Text

/-!
# Skill arbitration

`arbitrate` of `include/jevt/skill.hpp`: one pass over the proposals writes a trace entry for each
and keeps the position of the best admitted one. Frames and versions are unsigned numbers of 64
bits, so that a subtraction of frames wraps around as it does in the source.
-/

namespace Jevt.Skills

variable {α : Type}

/-- `truth`. -/
inductive Truth where
  | unknown
  | falseValue
  | trueValue
  deriving DecidableEq, Repr

/-- `condition`. -/
structure Condition where
  id : Bytes
  value : Truth := .unknown
  detail : Bytes := []
  deriving DecidableEq, Repr

/-- `snapshot`. -/
structure Snapshot where
  runId : Bytes
  frame : UInt64 := 0
  contextVersion : UInt64 := 0
  candidatesVersion : UInt64 := 0
  deriving DecidableEq

/-- `proposal`. -/
structure Proposal (α : Type) where
  id : Bytes
  skillId : Bytes
  source : Bytes
  action : α
  provenance : Snapshot
  maxAgeFrames : UInt64 := 0
  priority : Int := 0
  utility : Floating := .zero
  emergency : Bool := false
  conditions : List Condition := []
  deriving DecidableEq

/-- `proposal_status`. -/
inductive ProposalStatus where
  | selected
  | admissible
  | prohibited
  | unknown
  | stale
  | invalid
  deriving DecidableEq, Repr

/-- `proposal_trace`. -/
structure ProposalTrace where
  id : Bytes
  skillId : Bytes
  source : Bytes
  status : ProposalStatus := .invalid
  reason : Bytes
  conditions : List Condition
  deriving DecidableEq

/-- `decision`. -/
structure Decision (α : Type) where
  provenance : Snapshot
  action : Option α := none
  selectedId : Bytes := []
  emergency : Bool := false
  trace : List ProposalTrace := []
  deriving DecidableEq

/-! ## One proposal -/

/-- The loop over the conditions. -/
def checkConditions (entry : ProposalTrace) : List Condition → ProposalTrace
  | [] => entry
  | c :: rest =>
    if c.value = .falseValue then
      { entry with status := .prohibited, reason := c.id ++ lit ": " ++ c.detail }
    else if c.value = .unknown ∧ entry.status = .admissible then
      checkConditions { entry with status := .unknown, reason := c.id ++ lit ": " ++ c.detail } rest
    else checkConditions entry rest

/-- The trace entry of a proposal when it is visited. -/
def admission (current : Snapshot) (p : Proposal α) : ProposalTrace :=
  let entry : ProposalTrace :=
    { id := p.id
      skillId := p.skillId
      source := p.source
      status := .admissible
      reason := lit "admissible"
      conditions := p.conditions }
  if p.skillId = [] ∨ p.source = [] ∨ p.utility.isFinite = false then
    { entry with
      status := .invalid
      reason := lit "missing skill/source or nonfinite utility" }
  else if p.provenance.runId ≠ current.runId ∨
      p.provenance.contextVersion ≠ current.contextVersion ∨
      p.provenance.candidatesVersion ≠ current.candidatesVersion ∨
      p.provenance.frame > current.frame ∨
      current.frame - p.provenance.frame > p.maxAgeFrames then
    { entry with
      status := .stale
      reason := lit "run/context/candidates changed or frame age invalid" }
  else checkConditions entry p.conditions

/-- Whether an admitted proposal takes the place of the best one so far. -/
def displaces (best p : Proposal α) : Bool :=
  (best.emergency && !p.emergency) ||
    (p.emergency == best.emergency &&
      (decide (p.priority > best.priority) ||
        (p.priority == best.priority && best.utility.lt p.utility)))

/-! ## The pass -/

/-- The variables of the loop over the proposals. -/
structure Pass where
  trace : List ProposalTrace := []
  selected : Option Nat := none
  deriving DecidableEq

/-- The turn of the loop for a proposal and its position. -/
def Pass.visit (current : Snapshot) (proposals : List (Proposal α)) (pass : Pass)
    (visited : Proposal α × Nat) : Pass :=
  let entry := admission current visited.1
  let trace := pass.trace ++ [entry]
  if entry.status ≠ .admissible then { pass with trace }
  else match pass.selected with
    | none => ⟨trace, some visited.2⟩
    | some s =>
      if (proposals[s]?).any fun best => displaces best visited.1 then ⟨trace, some visited.2⟩
      else { pass with trace }

/-- The loop over the proposals. -/
def scan (current : Snapshot) (proposals : List (Proposal α)) : Pass :=
  proposals.zipIdx.foldl (Pass.visit current proposals) {}

/-- The loop over the identifiers, of which `ids` have been inserted. -/
def uniqueIds (ids : List Bytes) : List (Proposal α) → Bool
  | [] => true
  | p :: rest => if p.id = [] ∨ ids.contains p.id then false else uniqueIds (p.id :: ids) rest

/-- The entry of the winner. -/
def markSelected (winner : Proposal α) (entry : ProposalTrace) : ProposalTrace :=
  { entry with
    status := .selected
    reason := if winner.emergency
      then lit "emergency only: no regular admissible proposal; safety not guaranteed"
      else lit "highest priority then utility; stable input-order ties" }

/-- What `arbitrate` makes of the variables of the loop. -/
def conclude (current : Snapshot) (proposals : List (Proposal α)) (pass : Pass) : Decision α :=
  match pass.selected with
  | none => { provenance := current, trace := pass.trace }
  | some s =>
    match proposals[s]? with
    | none => { provenance := current, trace := pass.trace }
    | some winner =>
      { provenance := current
        action := some winner.action
        selectedId := winner.id
        emergency := winner.emergency
        trace := pass.trace.modify s (markSelected winner) }

/-- `arbitrate`. -/
def arbitrate (current : Snapshot) (proposals : List (Proposal α)) :
    Except StdException (Decision α) :=
  if current.runId = [] then .error (.invalidArgument (lit "skill snapshot requires run_id"))
  else if uniqueIds [] proposals = false then
    .error (.invalidArgument (lit "skill proposal IDs must be nonempty and unique"))
  else .ok (conclude current proposals (scan current proposals))

end Jevt.Skills
