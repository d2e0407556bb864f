import Jevt.Library.Joined
import Jevt.Knowledge.Graph

/-!
# What the keys of valid facts determine

`validate` admits a fact exactly when it satisfies `ValidFact`, apart from the clause about the
current run. Among valid facts the two keys mean what they are for: `identityKey` determines run,
scope and stable identifier (`ValidFact.identityKey_inj`), and `key` determines the labels and the
value as well (`ValidFact.key_inj`), since no valid field holds the separator.
-/

namespace Jevt

open Library

/-- The checks of `validate` that read the fact and the limits only. -/
structure ValidFact (limits : KnowledgeLimits) (fact : KnowledgeFact) : Prop where
  scope : fact.scope = .observation ∨ fact.scope = .run ∨ fact.scope = .session
  evidence : fact.evidence = .ramObservation ∨ fact.evidence = .verifiedOutcome ∨
    fact.evidence = .modelHypothesis
  fields : ∀ value ∈ [fact.id, fact.subject, fact.relation, fact.object, fact.source,
    fact.eventId, fact.runId], limits.fieldError value = none
  attributes : fact.attributesJson.length ≤ limits.fieldBytes
  priority : fact.priority ≤ 1000

/-- A field passes its check when it is nonempty, short enough and free of the separator. -/
theorem KnowledgeLimits.fieldError_eq_none {limits : KnowledgeLimits} {value : Bytes} :
    limits.fieldError value = none ↔
      value ≠ [] ∧ value.length ≤ limits.fieldBytes ∧ unitSeparator ∉ value := by
  unfold KnowledgeLimits.fieldError
  split
  · simp_all
  · split
    · simp_all
    · split <;> simp_all

/-- `validate` accepts exactly the valid facts, and non-session facts only once a run has
begun. -/
theorem KnowledgeLimits.validate_eq_none {limits : KnowledgeLimits} {currentRun : Bytes}
    {fact : KnowledgeFact} :
    limits.validate currentRun fact = none ↔
      ValidFact limits fact ∧ (fact.scope = .session ∨ currentRun ≠ []) := by
  unfold KnowledgeLimits.validate
  constructor
  · intro h
    split at h
    · cases h
    · next hscope =>
      split at h
      · cases h
      · next hevidence =>
        split at h
        · cases h
        · next hfields =>
          split at h
          · cases h
          · split at h
            · cases h
            · split at h
              · cases h
              · next hattributes hpriority hrun =>
                refine ⟨⟨by tauto, by tauto, List.findSome?_eq_none_iff.1 hfields,
                  Nat.not_lt.1 hattributes, Nat.not_lt.1 hpriority⟩, by tauto⟩
  · rintro ⟨hvalid, hrun⟩
    have hscope := hvalid.scope
    have hevidence := hvalid.evidence
    rw [if_neg (by tauto), if_neg (by tauto), List.findSome?_eq_none_iff.2 hvalid.fields]
    dsimp only
    rw [if_neg (Nat.not_lt.2 hvalid.attributes), if_neg (Nat.not_lt.2 hvalid.priority),
      if_neg (by tauto)]

/-- No scope name holds the separator. -/
theorem KnowledgeScope.separator_notMem_name (scope : KnowledgeScope) :
    unitSeparator ∉ scope.name := by
  cases scope <;> simp only [KnowledgeScope.name] <;> decide

/-- Named scopes are determined by their names. -/
theorem KnowledgeScope.name_inj {s t : KnowledgeScope}
    (hs : s = .observation ∨ s = .run ∨ s = .session)
    (ht : t = .observation ∨ t = .run ∨ t = .session) (h : s.name = t.name) : s = t := by
  rcases hs with rfl | rfl | rfl <;> rcases ht with rfl | rfl | rfl <;>
    first
    | rfl
    | exact absurd h (by decide)

/-- The fields `identityKey` joins. -/
def KnowledgeFact.identityFields (fact : KnowledgeFact) : List Bytes :=
  [fact.runId, fact.scope.name, fact.id]

/-- The fields `key` joins. -/
def KnowledgeFact.keyFields (fact : KnowledgeFact) : List Bytes :=
  [fact.runId, fact.scope.name, fact.id, fact.subject, fact.relation, fact.object]

/-- `identityKey` joins its fields. -/
theorem KnowledgeFact.identityKey_eq (fact : KnowledgeFact) :
    fact.identityKey = [unitSeparator].intercalate fact.identityFields := by
  simp [identityKey, identityFields, List.intercalate]

/-- `key` joins its fields. -/
theorem KnowledgeFact.key_eq (fact : KnowledgeFact) :
    fact.key = [unitSeparator].intercalate fact.keyFields := by
  simp [key, keyFields, List.intercalate]

section
variable {limits : KnowledgeLimits} {f h : KnowledgeFact}

/-- No field of a valid fact that a key joins holds the separator. -/
theorem ValidFact.separator_notMem (hf : ValidFact limits f) :
    ∀ field ∈ f.keyFields, unitSeparator ∉ field := by
  have hfield : ∀ value ∈ [f.id, f.subject, f.relation, f.object, f.source, f.eventId, f.runId],
      unitSeparator ∉ value := fun value hvalue =>
    (KnowledgeLimits.fieldError_eq_none.1 (hf.fields value hvalue)).2.2
  have hname := f.scope.separator_notMem_name
  intro field hmem
  simp only [KnowledgeFact.keyFields, List.mem_cons, List.not_mem_nil, or_false] at hmem
  rcases hmem with rfl | rfl | rfl | rfl | rfl | rfl
  · exact hfield _ (by simp)
  · exact hname
  all_goals exact hfield _ (by simp)

/-- Two valid facts with one identity key have one run, scope and stable identifier. -/
theorem ValidFact.identityKey_inj (hf : ValidFact limits f) (hh : ValidFact limits h) :
    f.identityKey = h.identityKey ↔ f.runId = h.runId ∧ f.scope = h.scope ∧ f.id = h.id := by
  constructor
  · intro heq
    rw [KnowledgeFact.identityKey_eq, KnowledgeFact.identityKey_eq] at heq
    have hsub : ∀ fact : KnowledgeFact, ∀ x ∈ fact.identityFields, x ∈ fact.keyFields := by
      simp [KnowledgeFact.identityFields, KnowledgeFact.keyFields]
    have hfields := intercalate_inj
      (fun x hx => hf.separator_notMem x (hsub f x hx))
      (fun x hx => hh.separator_notMem x (hsub h x hx)) rfl heq
    simp only [KnowledgeFact.identityFields, List.cons.injEq, and_true] at hfields
    exact ⟨hfields.1, KnowledgeScope.name_inj hf.scope hh.scope hfields.2.1, hfields.2.2⟩
  · rintro ⟨hrun, hscope, hid⟩
    simp only [KnowledgeFact.identityKey, hrun, hscope, hid]

/-- Two valid facts with one key are versions of one proposition with equal labels and value. -/
theorem ValidFact.key_inj (hf : ValidFact limits f) (hh : ValidFact limits h) :
    f.key = h.key ↔ f.identityKey = h.identityKey ∧ f.subject = h.subject ∧
      f.relation = h.relation ∧ f.object = h.object := by
  constructor
  · intro heq
    rw [KnowledgeFact.key_eq, KnowledgeFact.key_eq] at heq
    have hfields := intercalate_inj hf.separator_notMem hh.separator_notMem rfl heq
    simp only [KnowledgeFact.keyFields, List.cons.injEq, and_true] at hfields
    obtain ⟨hrun, hname, hid, hsubject, hrelation, hobject⟩ := hfields
    refine ⟨?_, hsubject, hrelation, hobject⟩
    simp only [KnowledgeFact.identityKey, hrun, hname, hid]
  · rintro ⟨hid, hsubject, hrelation, hobject⟩
    have hkey : ∀ fact : KnowledgeFact, fact.key = fact.identityKey ++ [unitSeparator] ++
        fact.subject ++ [unitSeparator] ++ fact.relation ++ [unitSeparator] ++ fact.object :=
      fun _ => rfl
    rw [hkey, hkey, hid, hsubject, hrelation, hobject]

/-- Versions with one key are versions of one proposition. -/
theorem ValidFact.identityKey_eq_of_key_eq (hf : ValidFact limits f) (hh : ValidFact limits h)
    (heq : f.key = h.key) : f.identityKey = h.identityKey :=
  ((hf.key_inj hh).1 heq).1

/-- Valid facts with one key have the same scope. -/
theorem ValidFact.scope_eq_of_key_eq (hf : ValidFact limits f) (hh : ValidFact limits h)
    (heq : f.key = h.key) : f.scope = h.scope :=
  ((hf.identityKey_inj hh).1 (hf.identityKey_eq_of_key_eq hh heq)).2.1

end

end Jevt
