import Jevt.Library.Run
import Jevt.Knowledge.Context
import Jevt.Knowledge.Reachable

/-!
# The generation as a cache key

What a caller can read from a graph, its size, its session snapshot and the answers to its
queries, is a function of the stored facts and their superseded marks (`Shows.reads`). Every call
that changes one of the two moves the generation up, and no call moves it down
(`later_apply`), so that a reader who sees the same generation twice may keep what it read
(`reads_of_generation_eq`).

The counter of the model counts the changes and does not wrap; `generation()` returns it as a
number of 64 bits.
-/

namespace Jevt.KnowledgeGraph

open Library

/-- `generation()`. -/
def readGeneration (g : KnowledgeGraph) : UInt64 :=
  UInt64.ofNat g.generation

/-- `size()`. -/
def size (g : KnowledgeGraph) : Nat :=
  g.facts.length

/-- Whether an observation can no longer be shown at `tick`. -/
def lapsed (tick : Nat) (fact : KnowledgeFact) : Bool :=
  match fact.expiresAt with
  | none => true
  | some expiry => decide (expiry < tick)

/-- The facts the loop of `query` collects: the active ones that have not expired at `tick`, with
the labels the caller asks for. An empty label asks for nothing. -/
def matchesQuery (g : KnowledgeGraph) (tick : Nat) (subject relation : Bytes)
    (fact : KnowledgeFact) : Bool :=
  if fact.key ∈ g.superseded then false
  else if fact.scope = .observation ∧ lapsed tick fact then false
  else if subject ≠ [] ∧ fact.subject ≠ subject then false
  else if relation ≠ [] ∧ fact.relation ≠ relation then false
  else true

/-- `query`. The comparator of its stable sort is the one `compile_knowledge_context` uses. -/
def query (g : KnowledgeGraph) (tick limit : Nat) (subject relation : Bytes) :
    List KnowledgeFact :=
  if limit = 0 then []
  else (rankedFacts (g.facts.filter (g.matchesQuery tick subject relation))).take limit

/-- The two graphs show the same: what a caller can read from one it reads from the other. -/
structure Shows (g g' : KnowledgeGraph) : Prop where
  facts : g'.facts = g.facts
  superseded : g'.superseded = g.superseded

variable {g g' : KnowledgeGraph}

/-- Graphs that show the same answer every read alike. -/
theorem Shows.reads (h : Shows g g') :
    g'.size = g.size ∧ g'.sessionSnapshot = g.sessionSnapshot ∧
      ∀ tick limit subject relation,
        g'.query tick limit subject relation = g.query tick limit subject relation := by
  have hmatches : ∀ tick subject relation,
      g'.matchesQuery tick subject relation = g.matchesQuery tick subject relation := by
    intro tick subject relation
    funext fact
    simp only [matchesQuery, h.superseded]
  refine ⟨?_, ?_, fun tick limit subject relation => ?_⟩
  · rw [size, size, h.facts]
  · rw [sessionSnapshot, sessionSnapshot, h.facts, h.superseded]
  · rw [query, query, h.facts, hmatches]

/-- A later state of a graph: its generation is not smaller, and if it is the same then the graph
shows the same. -/
def Later (g g' : KnowledgeGraph) : Prop :=
  g.generation ≤ g'.generation ∧ (g'.generation = g.generation → Shows g g')

theorem Later.refl (g : KnowledgeGraph) : Later g g :=
  ⟨Nat.le_refl _, fun _ => ⟨rfl, rfl⟩⟩

theorem Later.trans {g'' : KnowledgeGraph} (h : Later g g') (h' : Later g' g'') :
    Later g g'' := by
  refine ⟨h.1.trans h'.1, fun heq => ?_⟩
  have hmiddle : g'.generation = g.generation := Nat.le_antisymm (heq ▸ h'.1) h.1
  have hfirst := h.2 hmiddle
  have hsecond := h'.2 (heq.trans hmiddle.symm)
  exact ⟨hsecond.facts.trans hfirst.facts, hsecond.superseded.trans hfirst.superseded⟩

/-- A state with a greater generation is later. -/
theorem Later.of_lt (h : g.generation < g'.generation) : Later g g' :=
  ⟨h.le, fun heq => absurd heq h.ne'⟩

/-- Beginning a run moves the generation unless no fact is dropped. -/
theorem later_beginRun (g : KnowledgeGraph) (runId : Bytes) (retainSession : Bool) :
    Later g (g.beginRun runId retainSession).1 := by
  unfold beginRun
  split
  · exact .refl g
  · cases hdropped : g.facts.filter fun fact => !keeps retainSession fact with
    | nil =>
      have hkept : g.facts.filter (keeps retainSession) = g.facts := by
        rw [List.filter_eq_self]
        intro fact hfact
        simpa using List.filter_eq_nil_iff.1 hdropped fact hfact
      exact ⟨Nat.le_refl _, fun _ => ⟨hkept, rfl⟩⟩
    | cons fact rest => exact .of_lt (Nat.lt_succ_self _)

/-- `ingest_record` moves the generation exactly when it accepts. -/
theorem later_ingestRecord (g : KnowledgeGraph) (fact : KnowledgeFact) :
    Later g (g.ingestRecord fact).1 := by
  cases hrefusal : g.refusal fact with
  | some reason =>
    rw [ingestRecord_of_refusal hrefusal]
    exact .refl g
  | none =>
    rw [ingestRecord_of_acceptable (refusal_eq_none.1 hrefusal)]
    obtain ⟨-, -, -, -, hgeneration⟩ := storeVersion_frame (g.recordEvent fact) fact
    refine .of_lt ?_
    rw [hgeneration]
    exact Nat.lt_succ_self _

/-- **Every change moves the generation.** One call leads to a later state. -/
theorem later_apply (g : KnowledgeGraph) (op : KnowledgeOp) : Later g (g.apply op) := by
  cases op with
  | beginRun runId retainSession => exact later_beginRun g runId retainSession
  | ingest fact =>
      simp only [apply, ingest]
      split
      · exact .refl g
      · exact later_ingestRecord g fact
  | ingestHypothesis fact | ingestRamObservation fact | ingestVerifiedOutcome fact =>
      exact later_ingestRecord g _
  | restoreSessionSnapshot snapshot =>
      rcases restoreSessionSnapshot_cases g snapshot with ⟨-, heq⟩ | ⟨-, failure, heq⟩
      · simp only [apply, heq]
        exact .of_lt (Nat.lt_succ_self _)
      · simp only [apply, heq]
        exact .refl g
  | clear => exact .of_lt (Nat.lt_succ_self _)

/-- A run leads to a later state. -/
theorem later_foldl (g : KnowledgeGraph) (ops : List KnowledgeOp) :
    Later g (ops.foldl apply g) :=
  Along.mono (I := fun _ => True) (C := fun _ _ => True) .refl .trans
    (fun g op _ _ => ⟨trivial, later_apply g op⟩) trivial
    (along_of_forall (fun _ _ => trivial) g ops)

/-- **The generation is a sound cache key.** Between two moments of a run with fewer than `2 ^ 64`
changes `generation()` does not decrease, and if it is the same at both, then so are the size, the
session snapshot and the answer to every query. -/
theorem reads_of_generation_eq (g₀ : KnowledgeGraph) (before between : List KnowledgeOp)
    (hfew : ((before ++ between).foldl apply g₀).generation < 2 ^ 64) :
    (before.foldl apply g₀).readGeneration ≤
        ((before ++ between).foldl apply g₀).readGeneration ∧
    ((before.foldl apply g₀).readGeneration =
        ((before ++ between).foldl apply g₀).readGeneration →
      ((before ++ between).foldl apply g₀).size = (before.foldl apply g₀).size ∧
      ((before ++ between).foldl apply g₀).sessionSnapshot =
        (before.foldl apply g₀).sessionSnapshot ∧
      ∀ tick limit subject relation,
        ((before ++ between).foldl apply g₀).query tick limit subject relation =
          (before.foldl apply g₀).query tick limit subject relation) := by
  have hlater := later_foldl (before.foldl apply g₀) between
  rw [← List.foldl_append] at hlater
  have hfirst : (before.foldl apply g₀).generation < 2 ^ 64 := hlater.1.trans_lt hfew
  have hread : ∀ g : KnowledgeGraph, g.generation < 2 ^ 64 →
      g.readGeneration.toNat = g.generation := fun g hg =>
    UInt64.toNat_ofNat_of_lt' hg
  constructor
  · rw [UInt64.le_iff_toNat_le, hread _ hfirst, hread _ hfew]
    exact hlater.1
  · intro heq
    refine (hlater.2 ?_).reads
    rw [← hread _ hfirst, ← hread _ hfew, heq]

/-- A repeated event and a snapshot that does not hold session facts. -/
def refusedCalls : List KnowledgeOp :=
  [.ingest (motionFact (lit "0.8 px/frame") (lit "event-b") 4), .restoreSessionSnapshot [{}]]

/-- Calls that are refused leave the generation and what is read as they are. -/
theorem reads_of_generation_eq_refused :
    let g := reactivation.foldl apply { limits := {} }
    let g' := (reactivation ++ refusedCalls).foldl apply { limits := {} }
    g.readGeneration = g'.readGeneration ∧ g'.size = g.size ∧
      g'.sessionSnapshot = g.sessionSnapshot ∧
      ∀ tick limit subject relation,
        g'.query tick limit subject relation = g.query tick limit subject relation := by
  intro g g'
  have hsame : g.readGeneration = g'.readGeneration := by decide +kernel
  exact ⟨hsame, (reads_of_generation_eq { limits := {} } reactivation refusedCalls
    (by decide +kernel)).2 hsame⟩

end Jevt.KnowledgeGraph
