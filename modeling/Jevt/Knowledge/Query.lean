import Jevt.Knowledge.Budget
import Jevt.Knowledge.Generation
import Jevt.Knowledge.Lineage

/-!
# What a query answers

The facts a query collects are ranked by a stable sort, and a stable sort commutes with every
filter. So the answers to all queries at a tick are parts of one list, the ranking of what is shown
then (`query_ranking`): a label filters it and a limit cuts it off.
-/

namespace Jevt.KnowledgeGraph

open Library

variable {g : KnowledgeGraph} {tick limit : Nat} {subject relation : Bytes} {f : KnowledgeFact}

/-- An observation whose expiry has passed. -/
def Expired (tick : Nat) (f : KnowledgeFact) : Prop :=
  f.scope = .observation ∧ ∃ expiry, f.expiresAt = some expiry ∧ expiry < tick

/-- A fact has the labels that are asked for. An empty label asks for nothing. -/
def hasLabels (subject relation : Bytes) (f : KnowledgeFact) : Bool :=
  (subject = [] || f.subject = subject) && (relation = [] || f.relation = relation)

/-- The order of an answer: by priority, then by tick, the younger first, then by storage. -/
def AnswersBefore (g : KnowledgeGraph) (left right : KnowledgeFact) : Prop :=
  right.priority < left.priority ∨ left.priority = right.priority ∧
    (right.tick < left.tick ∨ left.tick = right.tick ∧ [left, right].Sublist g.facts)

/-! ## Observations expire -/

/-- An observation that is accepted has an expiry. -/
theorem exists_expiry (h : observationExpires f = true) :
    ∃ expiry, f.expiresAt = some expiry := by
  unfold observationExpires at h
  cases hexpiry : f.expiresAt with
  | none => simp [hexpiry] at h
  | some expiry => exact ⟨expiry, rfl⟩

/-- Every stored observation has an expiry. -/
theorem IsReachable.expires {limits : KnowledgeLimits} (h : IsReachable limits g) :
    ∀ f ∈ g.facts, f.scope = .observation → ∃ expiry, f.expiresAt = some expiry := by
  obtain ⟨g₀, hcreate, hreach⟩ := h
  have hinvariant : g.Consistent ∧
      ∀ f ∈ g.facts, f.scope = .observation → ∃ expiry, f.expiresAt = some expiry := by
    refine Reachable.invariant (I := fun g => g.Consistent ∧
      ∀ f ∈ g.facts, f.scope = .observation → ∃ expiry, f.expiresAt = some expiry)
      ⟨Consistent.create hcreate, by simp [facts_create hcreate]⟩ (fun g op g' hg hstep => ?_)
      hreach
    cases hstep
    refine ⟨hg.1.apply op, fun f hf hscope => ?_⟩
    have haccepted : ∀ {path : IngestPath} {record : KnowledgeFact},
        g.contribution op f.key = some ⟨.ingested path, record⟩ →
        g.Acceptable record ∧ record.key = f.key := by
      intro path record hsome
      rcases contribution_eq_some hsome with
        ⟨path', fact, -, heq, hkey, hresult⟩ | ⟨snapshot, fact, -, heq, -⟩
      · obtain ⟨-, rfl⟩ := Attestation.mk.inj heq
        rw [IngestPath.key_record]
        exact ⟨(IngestPath.accepted_iff.1 hresult).2, hkey⟩
      · cases heq
    cases hg.1.mem_apply_facts hf with
    | kept hmem hnone => exact hg.2 f hmem hscope
    | refreshed hmem hkey hsome heq =>
      rename_i previous path record
      obtain ⟨hacc, hrecord⟩ := haccepted hsome
      have hvalid := hg.1.store.valid previous hmem
      have hsame := hacc.valid.scope_eq_of_key_eq hvalid (hrecord.trans hkey.symm)
      rw [heq, refresh_scope] at hscope
      obtain ⟨expiry, hexpiry⟩ := exists_expiry (hacc.expiry (hsame.trans hscope))
      exact ⟨expiry, by rw [heq, refresh_expiresAt, hexpiry]⟩
    | inserted hnew hsome => exact exists_expiry ((haccepted hsome).1.expiry hscope)
    | restored hsome =>
      rcases contribution_eq_some hsome with
        ⟨path, fact, -, heq, -⟩ | ⟨snapshot, fact, -, heq, hmem, -, hrestorable⟩
      · cases heq
      · obtain rfl := (Attestation.mk.inj heq).2
        rw [(hrestorable.records _ hmem).1] at hscope
        cases hscope
  exact hinvariant.2

/-! ## Ranking and filtering -/

/-- The collected facts are those that are shown, with the labels that are asked for. -/
theorem matchesQuery_eq :
    g.matchesQuery tick subject relation f =
      (g.matchesQuery tick [] [] f && hasLabels subject relation f) := by
  unfold matchesQuery hasLabels
  by_cases hmark : f.key ∈ g.superseded
  · simp [hmark]
  · by_cases hlapsed : f.scope = .observation ∧ lapsed tick f
    · simp [hmark, hlapsed]
    · by_cases hsubject : subject = [] <;> by_cases hrelation : relation = [] <;>
        simp [hmark, hlapsed, hsubject, hrelation]

/-- What is shown without labels. -/
theorem matchesQuery_iff
    (hexpires : f.scope = .observation → ∃ expiry, f.expiresAt = some expiry) :
    g.matchesQuery tick [] [] f = true ↔ f.key ∉ g.superseded ∧ ¬Expired tick f := by
  have hlapsed : (f.scope = .observation ∧ lapsed tick f) ↔ Expired tick f := by
    refine and_congr_right fun hscope => ?_
    obtain ⟨expiry, hexpiry⟩ := hexpires hscope
    simp [lapsed, hexpiry]
  rw [← hlapsed]
  unfold matchesQuery
  by_cases hmark : f.key ∈ g.superseded
  · simp [hmark]
  · by_cases hold : f.scope = .observation ∧ lapsed tick f
    · simp [hmark, hold]
    · simp only [hmark, hold, if_false, not_false_eq_true, ne_eq, not_true_eq_false, false_and,
        and_self]

/-- Filtering commutes with the ranking. -/
theorem filter_rankedFacts (p : KnowledgeFact → Bool) (facts : List KnowledgeFact) :
    (rankedFacts facts).filter p = rankedFacts (facts.filter p) :=
  filter_insertionSort_comm _ p facts

/-- An answer is the beginning of what has the labels in the ranking of what is shown. -/
theorem query_eq_take : g.query tick limit subject relation =
    ((rankedFacts (g.facts.filter (g.matchesQuery tick [] []))).filter
      (hasLabels subject relation)).take limit := by
  have hfilter : g.facts.filter (g.matchesQuery tick subject relation) =
      (g.facts.filter (g.matchesQuery tick [] [])).filter (hasLabels subject relation) := by
    rw [List.filter_filter]
    exact List.filter_congr fun f _ => by rw [matchesQuery_eq, Bool.and_comm]
  rw [query, hfilter, filter_rankedFacts]
  split_ifs with hlimit
  · rw [hlimit, List.take_zero]
  · rfl

/-- The answer without labels and with the size of the graph as its limit is the whole ranking. -/
theorem query_size : g.query tick g.size [] [] =
    rankedFacts (g.facts.filter (g.matchesQuery tick [] [])) := by
  have hall : ∀ facts : List KnowledgeFact, facts.filter (hasLabels [] []) = facts := fun facts =>
    List.filter_eq_self.2 fun f _ => by simp [hasLabels]
  rw [query_eq_take, hall, List.take_of_length_le]
  rw [(rankedFacts_spec _).1.length_eq]
  exact List.length_filter_le _ _

/-- **What a query answers.** The query without labels and with the size of the graph as its limit
lists the stored facts that are neither superseded nor expired observations, each once, by priority,
tick and storage. Every other query is a part of it: the labels filter it, and the limit cuts it
off, so that the answer to a smaller limit is the beginning of the one to a larger, and filtering
before the ranking is filtering after it. -/
theorem query_ranking {limits : KnowledgeLimits} (h : IsReachable limits g) (tick : Nat) :
    (∀ limit subject relation, g.query tick limit subject relation =
      ((g.query tick g.size [] []).filter (hasLabels subject relation)).take limit) ∧
    (g.query tick g.size [] []).Nodup ∧
    (∀ f, f ∈ g.query tick g.size [] [] ↔
      f ∈ g.facts ∧ f.key ∉ g.superseded ∧ ¬Expired tick f) ∧
    (g.query tick g.size [] []).Pairwise g.AnswersBefore ∧
    (∀ subject relation (smaller larger : Nat), smaller ≤ larger →
      g.query tick smaller subject relation <+: g.query tick larger subject relation) ∧
    ∀ subject relation, g.query tick g.size subject relation =
      (g.query tick g.size [] []).filter (hasLabels subject relation) := by
  have hcons := h.consistent.1
  obtain ⟨hperm, hranked, hstable⟩ :=
    rankedFacts_spec (g.facts.filter (g.matchesQuery tick [] []))
  refine ⟨fun limit subject relation => ?_, ?_, fun f => ?_, ?_, ?_, fun subject relation => ?_⟩
  · rw [query_size, query_eq_take]
  · rw [query_size, hperm.nodup_iff]
    exact (hcons.store.keys.of_map _).filter _
  · rw [query_size, hperm.mem_iff, List.mem_filter]
    exact and_congr_right fun hf => matchesQuery_iff (h.expires f hf)
  · rw [query_size, List.pairwise_iff_forall_sublist]
    intro left right hsub
    rcases (List.pairwise_iff_forall_sublist.1 hranked) hsub with hlt | ⟨heq, hle⟩
    · exact .inl hlt
    · rcases Nat.lt_or_eq_of_le hle with hlt | htick
      · exact .inr ⟨heq, .inl hlt⟩
      · refine .inr ⟨heq, .inr ⟨htick.symm, ?_⟩⟩
        have hclass := hsub.filter fun f => f.priority = left.priority ∧ f.tick = left.tick
        rw [hstable left.priority left.tick] at hclass
        have hpair : [left, right].filter (fun f => f.priority = left.priority ∧
            f.tick = left.tick) = [left, right] := by simp [heq, htick]
        rw [hpair] at hclass
        exact (hclass.trans List.filter_sublist).trans List.filter_sublist
  · intro subject relation smaller larger hle
    rw [query_eq_take, query_eq_take]
    exact List.take_prefix_take_left hle
  · rw [query_size, query_eq_take, List.take_of_length_le]
    refine (List.length_filter_le _ _).trans ?_
    rw [hperm.length_eq]
    exact List.length_filter_le _ _

/-- The calls of a test: two facts of one priority, the second with another subject. -/
def twoSubjects : List KnowledgeOp :=
  [.beginRun (lit "run-1") true,
    .ingestRamObservation (motionFact (lit "0.8 px/frame") (lit "event-a1") 1),
    .ingestRamObservation
      { motionFact (lit "jumps") (lit "event-b") 2 with
        id := lit "player"
        subject := lit "mario" }]

/-- The answer about the one subject is a part of the ranking of both facts. -/
theorem query_ranking_twoSubjects :
    (twoSubjects.foldl apply { limits := {} }).query 3 1 (lit "goomba-1") [] =
      (((twoSubjects.foldl apply { limits := {} }).query 3
        (twoSubjects.foldl apply { limits := {} }).size [] []).filter
          (hasLabels (lit "goomba-1") [])).take 1 := by
  have hreach : IsReachable {} (twoSubjects.foldl apply { limits := {} }) :=
    ⟨{ limits := {} }, rfl, twoSubjects, run_foldl _ _⟩
  exact (query_ranking hreach 3).1 1 (lit "goomba-1") []

end Jevt.KnowledgeGraph
