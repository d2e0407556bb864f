import Jevt.Knowledge.Context
import Jevt.Library.Greedy

/-!
# Admission within a token budget

The loop of `compile_knowledge_context` is a greedy selection: after any number of candidates its
five variables are functions of the decisions taken so far (`Tracks`). The compiled context
therefore carries the document of exactly the admitted facts with the count of that document, and
what it omits did not fit (`compileKnowledgeContext_admits`). The counter is any function of the
text; nothing like additivity is assumed of it.
-/

namespace Jevt

open Library

/-! ## Ranking -/

/-- A fact that does not rank before another one: the order the candidates are sorted by. -/
def RanksNoLater (left right : KnowledgeFact) : Prop :=
  right.priority < left.priority ∨ left.priority = right.priority ∧ right.tick ≤ left.tick

/-- What the comparator of the sort says of a pair. -/
theorem ranksBefore_eq_false {left right : KnowledgeFact} :
    ranksBefore right left = false ↔ RanksNoLater left right := by
  unfold ranksBefore RanksNoLater
  split
  · next hne =>
    rw [decide_eq_false_iff_not, Nat.not_lt]
    omega
  · next heq =>
    rw [decide_eq_false_iff_not, Nat.not_lt]
    omega

/-- Of two facts one does not rank before the other. -/
instance : Std.Total fun left right => ranksBefore right left = false :=
  ⟨fun left right => by
    rw [ranksBefore_eq_false, ranksBefore_eq_false]
    unfold RanksNoLater
    omega⟩

/-- Not ranking later is transitive. -/
instance : IsTrans KnowledgeFact fun left right => ranksBefore right left = false :=
  ⟨fun a b c => by
    rw [ranksBefore_eq_false, ranksBefore_eq_false, ranksBefore_eq_false]
    unfold RanksNoLater
    omega⟩

/-- The ranked facts are the given ones, by priority and then by tick, and facts that agree in
both keep the order they were given in. -/
theorem rankedFacts_spec (facts : List KnowledgeFact) :
    (rankedFacts facts).Perm facts ∧ (rankedFacts facts).Pairwise RanksNoLater ∧
    ∀ priority tick, (rankedFacts facts).filter (fun f => f.priority = priority ∧ f.tick = tick) =
      facts.filter fun f => f.priority = priority ∧ f.tick = tick := by
  refine ⟨List.perm_insertionSort _ _, ?_, fun priority tick => ?_⟩
  · exact (List.pairwise_insertionSort _ facts).imp fun h => ranksBefore_eq_false.1 h
  · refine filter_insertionSort _ _ (fun a b ha hb => ?_) facts
    obtain ⟨hap, hat⟩ := of_decide_eq_true ha
    obtain ⟨hbp, hbt⟩ := of_decide_eq_true hb
    exact ranksBefore_eq_false.2 (.inr ⟨hap.trans hbp.symm, (hbt.trans hat.symm).le⟩)

/-! ## The admission loop -/

/-- The variables of the loop after some decisions: the admitted facts are the kept ones, the
document and its count belong to exactly them, and the two lists of identifiers list the kept and
the dropped facts. -/
structure Admission.Tracks (render : List KnowledgeFact → Bytes) (measure : Bytes → Nat)
    (acc : Admission) (decisions : List (KnowledgeFact × Bool)) : Prop where
  admitted : acc.admitted = kept decisions
  input : acc.input = render acc.admitted
  tokenCount : acc.tokenCount = measure acc.input
  admittedFactIds : acc.admittedFactIds = (kept decisions).map KnowledgeFact.id
  omittedFactIds : acc.omittedFactIds = (dropped decisions).map KnowledgeFact.id

variable {render : List KnowledgeFact → Bytes} {measure : Bytes → Nat} {tokenBudget : Nat}

/-- Whether a list of facts stays within the budget. -/
def withinBudget (render : List KnowledgeFact → Bytes) (measure : Bytes → Nat) (tokenBudget : Nat)
    (facts : List KnowledgeFact) : Bool :=
  decide (measure (render facts) ≤ tokenBudget)

/-- A candidate that exceeds the budget is omitted. -/
theorem Admission.consider_of_over {acc : Admission} {candidate : KnowledgeFact}
    (h : withinBudget render measure tokenBudget (acc.admitted ++ [candidate]) = false) :
    acc.consider render measure tokenBudget candidate =
      { acc with omittedFactIds := acc.omittedFactIds ++ [candidate.id] } :=
  if_pos (Nat.not_le.1 (of_decide_eq_false h))

/-- A candidate that fits is admitted, with the document and the count that were measured. -/
theorem Admission.consider_of_fits {acc : Admission} {candidate : KnowledgeFact}
    (h : withinBudget render measure tokenBudget (acc.admitted ++ [candidate]) = true) :
    acc.consider render measure tokenBudget candidate =
      { acc with
        admitted := acc.admitted ++ [candidate]
        input := render (acc.admitted ++ [candidate])
        tokenCount := measure (render (acc.admitted ++ [candidate]))
        admittedFactIds := acc.admittedFactIds ++ [candidate.id] } :=
  if_neg (Nat.not_lt.2 (of_decide_eq_true h))

/-- A turn of the loop decides its candidate by whether it fits. -/
theorem Admission.Tracks.consider {acc : Admission} {decisions : List (KnowledgeFact × Bool)}
    (h : acc.Tracks render measure decisions) (tokenBudget : Nat) (candidate : KnowledgeFact) :
    (Admission.consider render measure tokenBudget acc candidate).Tracks render measure
      (decisions ++ [(candidate,
        withinBudget render measure tokenBudget (acc.admitted ++ [candidate]))]) := by
  obtain ⟨hadmitted, hinput, hcount, hin, hout⟩ := h
  cases hfits : withinBudget render measure tokenBudget (acc.admitted ++ [candidate]) with
  | true =>
    rw [consider_of_fits hfits]
    exact ⟨by simp [hadmitted, kept], rfl, rfl, by simp [hin, kept], by simp [hout, dropped]⟩
  | false =>
    rw [consider_of_over hfits]
    exact ⟨by simp [hadmitted, kept], hinput, hcount, by simp [hin, kept], by simp [hout, dropped]⟩

/-- The whole loop decides its candidates greedily. -/
theorem Admission.Tracks.foldl (tokenBudget : Nat) (candidates : List KnowledgeFact) :
    ∀ {acc : Admission} {decisions : List (KnowledgeFact × Bool)},
      acc.Tracks render measure decisions →
      (candidates.foldl (Admission.consider render measure tokenBudget) acc).Tracks render measure
        (decisions ++
          greedy (withinBudget render measure tokenBudget) acc.admitted candidates) := by
  induction candidates with
  | nil =>
    intro acc decisions h
    rwa [greedy, List.append_nil]
  | cons candidate rest ih =>
    intro acc decisions h
    have hrest := ih (h.consider tokenBudget candidate)
    rw [List.append_assoc] at hrest
    unfold greedy
    split
    · next hfits =>
      rw [List.foldl_cons]
      rw [consider_of_fits hfits] at hrest ⊢
      simpa [hfits] using hrest
    · next hover =>
      rw [List.foldl_cons]
      rw [consider_of_over (Bool.eq_false_iff.2 hover)] at hrest ⊢
      simpa [hover] using hrest

/-- The loop never leaves the budget it starts within. -/
theorem Admission.tokenCount_foldl_le {candidates : List KnowledgeFact} :
    ∀ {acc : Admission}, acc.tokenCount ≤ tokenBudget →
      (candidates.foldl (Admission.consider render measure tokenBudget) acc).tokenCount ≤
        tokenBudget := by
  induction candidates with
  | nil =>
    intro acc h
    exact h
  | cons candidate rest ih =>
    intro acc h
    rw [List.foldl_cons]
    refine ih ?_
    cases hfits : withinBudget render measure tokenBudget (acc.admitted ++ [candidate]) with
    | true =>
      rw [consider_of_fits hfits]
      exact of_decide_eq_true hfits
    | false =>
      rw [consider_of_over hfits]
      exact h

/-! ## The compiled context -/

namespace KnowledgeContextRequest

variable {request : KnowledgeContextRequest} {countTokens : Bytes → Nat} {observation : Bytes}

/-- A request that passes its argument checks is compiled unless its mandatory part is over
budget. -/
theorem compileKnowledgeContext_eq (h : request.checkArguments = .ok (countTokens, observation)) :
    compileKnowledgeContext request =
      if request.tokenBudget < request.measure countTokens (request.document observation []) then
        .error (.lengthError
          (lit "mandatory prompt, schema or observation exceeds model token budget"))
      else
        .ok {
          question := request.question
          input := (request.admission countTokens observation).input
          schemaRevision := request.schemaRevision
          promptRevision := request.promptRevision
          admittedFactIds := (request.admission countTokens observation).admittedFactIds
          omittedFactIds := (request.admission countTokens observation).omittedFactIds
          tokenCount := (request.admission countTokens observation).tokenCount
          inputDigest := digest (request.admission countTokens observation).input
          tokenizedInputDigest := digest (request.question ++ lit "\n" ++
            (request.admission countTokens observation).input) } := by
  unfold compileKnowledgeContext
  rw [h]
  by_cases hover : request.tokenBudget <
      request.measure countTokens (request.document observation [])
  · simp only [bind, Except.bind, if_pos hover, throw, throwThe, MonadExceptOf.throw]
  · simp only [bind, Except.bind, if_neg hover, pure, Except.pure]

/-- **A compiled context admits greedily within its budget.** A request that passes its argument
checks is refused with a length error exactly when its mandatory part is over budget. Otherwise
every fact is decided once, in rank order; the two lists of identifiers are those of the admitted
and of the omitted facts; the input is the document of exactly the admitted facts, and the
reported count is the count of that input and within the budget; an omitted fact exceeded the
budget after the facts admitted before it; and if insertions never lower the count, it cannot be
put back at its rank position either. -/
theorem compileKnowledgeContext_admits
    (h : request.checkArguments = .ok (countTokens, observation)) :
    ((∃ what, compileKnowledgeContext request = .error (.lengthError what)) ↔
      request.tokenBudget < request.measure countTokens (request.document observation [])) ∧
    (request.measure countTokens (request.document observation []) ≤ request.tokenBudget →
      ∃ (result : CompiledKnowledgeContext) (decisions : List (KnowledgeFact × Bool)),
        compileKnowledgeContext request = .ok result ∧
        (decisions.map Prod.fst).Perm request.facts ∧
        (decisions.map Prod.fst).Pairwise RanksNoLater ∧
        (∀ priority tick, (decisions.map Prod.fst).filter
            (fun f => f.priority = priority ∧ f.tick = tick) =
          request.facts.filter fun f => f.priority = priority ∧ f.tick = tick) ∧
        result.admittedFactIds = (kept decisions).map KnowledgeFact.id ∧
        result.omittedFactIds = (dropped decisions).map KnowledgeFact.id ∧
        result.input = request.document observation (kept decisions) ∧
        result.tokenCount = request.measure countTokens result.input ∧
        result.tokenCount ≤ request.tokenBudget ∧
        (∀ before fact after, decisions = before ++ (fact, false) :: after →
          request.tokenBudget < request.measure countTokens
            (request.document observation (kept before ++ [fact]))) ∧
        ((∀ l₁ l₂ f,
            request.measure countTokens (request.document observation (l₁ ++ l₂)) ≤
              request.measure countTokens (request.document observation (l₁ ++ f :: l₂))) →
          ∀ before fact after, decisions = before ++ (fact, false) :: after →
            request.tokenBudget < request.measure countTokens
              (request.document observation (kept before ++ fact :: kept after)))) := by
  rw [compileKnowledgeContext_eq h]
  constructor
  · constructor
    · rintro ⟨what, hwhat⟩
      by_contra hfits
      rw [if_neg hfits] at hwhat
      cases hwhat
    · intro hover
      exact ⟨_, if_pos hover⟩
  · intro hfits
    set render := request.document observation
    set measure := request.measure countTokens
    set decisions := greedy (withinBudget render measure request.tokenBudget) []
      (rankedFacts request.facts) with hdecisions
    have hstart : Admission.Tracks render measure ⟨[], render [], measure (render []), [], []⟩ [] :=
      ⟨rfl, rfl, rfl, rfl, rfl⟩
    obtain ⟨hadmitted, hinput, hcount, hin, hout⟩ :=
      Admission.Tracks.foldl request.tokenBudget (rankedFacts request.facts) hstart
    have hranked : decisions.map Prod.fst = rankedFacts request.facts := map_fst_greedy _ _
    obtain ⟨hperm, hpairwise, hstable⟩ := rankedFacts_spec request.facts
    have hover : ∀ facts, withinBudget render measure request.tokenBudget facts = false →
        request.tokenBudget < measure (render facts) := fun facts hfacts =>
      Nat.not_le.1 (of_decide_eq_false hfacts)
    refine ⟨_, decisions, if_neg (Nat.not_lt.2 hfits), hranked ▸ hperm, hranked ▸ hpairwise,
      hranked ▸ hstable, hin, hout, hinput.trans (congrArg render hadmitted), hcount,
      Admission.tokenCount_foldl_le hfits, fun before fact after hsplit => ?_,
      fun hmono before fact after hsplit => ?_⟩
    · exact hover _ (by simpa using greedy_drops hsplit)
    · have hshrinks : ∀ (l₁ l₂ : List KnowledgeFact) (f : KnowledgeFact),
          withinBudget render measure request.tokenBudget (l₁ ++ f :: l₂) →
          withinBudget render measure request.tokenBudget (l₁ ++ l₂) := fun l₁ l₂ f hf =>
        decide_eq_true ((hmono l₁ l₂ f).trans (of_decide_eq_true hf))
      exact hover _ (by simpa using greedy_maximal hshrinks hsplit)

/-- A request whose budget, in bytes, has room for the second of its two facts only. -/
def tightRequest : KnowledgeContextRequest where
  question := lit "Choose a safe action."
  schemaId := lit "mario.state"
  schemaRevision := lit "state.v1"
  promptRevision := lit "prompt.v1"
  observation := lit "quote: \""
  facts := [{ id := lit "f1", subject := lit "goomba-1", relation := lit "is",
              object := lit "approaching from the right", priority := 9 },
            { id := lit "f2", subject := lit "goomba-1", relation := lit "is",
              object := lit "near" }]
  tokenBudget := 174
  countTokens := some List.length

/-- The request is compiled within its budget. -/
theorem compileKnowledgeContext_admits_tight :
    ∃ (result : CompiledKnowledgeContext) (decisions : List (KnowledgeFact × Bool)),
      compileKnowledgeContext tightRequest = .ok result ∧
      result.admittedFactIds = (kept decisions).map KnowledgeFact.id ∧
      result.tokenCount ≤ 174 :=
  have hchecks : tightRequest.checkArguments = .ok (List.length, lit "quote: \"") := rfl
  have ⟨result, decisions, hok, _, _, _, hin, _, _, _, hle, _⟩ :=
    (compileKnowledgeContext_admits hchecks).2 (by decide)
  ⟨result, decisions, hok, hin, hle⟩

end KnowledgeContextRequest

end Jevt
