import Jevt.Library.Decimal
import Jevt.Library.OrderedMap
import Jevt.Text

/-!
# Keys of contexts

`context_key` of `include/jevt/experience.hpp`: the features of a context, in the order of their
names, each written as its name and its value behind their lengths. The key is a sequence of frames
(`contextKey_eq`), and these determine the names and values they hold.
-/

namespace Jevt.Experience

open Library

-- An insertion into a map needs these of its keys.
local instance features_lawfulBEq : LawfulBEq Bytes := inferInstance
local instance features_trichotomous : Std.Trichotomous (α := Bytes) (· < ·) := inferInstance
local instance features_trans : IsTrans Bytes (· < ·) := inferInstance

/-- `context_key`. -/
def contextKey (features : OrderedMap Bytes Bytes) : Bytes :=
  features.entries.foldl (fun key feature =>
    key ++ (decimal feature.1.length ++ lit ":" ++ feature.1 ++
      decimal feature.2.length ++ lit ":" ++ feature.2)) []

/-- The names and values of features, one after the other. -/
def featureTexts (entries : List (Bytes × Bytes)) : List Bytes :=
  entries.flatMap fun feature => [feature.1, feature.2]

/-- A key is the frames of the names and values. -/
theorem contextKey_eq (features : OrderedMap Bytes Bytes) :
    contextKey features = framed (featureTexts features.entries) := by
  have hrun : ∀ (entries : List (Bytes × Bytes)) (key : Bytes),
      entries.foldl (fun key feature =>
        key ++ (decimal feature.1.length ++ lit ":" ++ feature.1 ++
          decimal feature.2.length ++ lit ":" ++ feature.2)) key =
        key ++ framed (featureTexts entries) := by
    intro entries
    induction entries with
    | nil => simp [featureTexts, framed]
    | cons feature entries ih =>
      intro key
      rw [List.foldl_cons, ih, featureTexts, framed, featureTexts, framed]
      simp [frame, lit]
  rw [contextKey, hrun, List.nil_append]

/-- The texts determine the names and values. -/
theorem featureTexts_injective : Function.Injective featureTexts
  | [], [], _ => rfl
  | [], _ :: _, h | _ :: _, [], h => by simp [featureTexts] at h
  | (name, value) :: f, (name', value') :: g, h => by
      simp only [featureTexts, List.flatMap_cons, List.cons_append, List.nil_append,
        List.cons.injEq] at h
      obtain ⟨rfl, rfl, hrest⟩ := h
      rw [featureTexts_injective hrest]

/-- **Keys of contexts do not collide.** Two maps of features with one key are equal, a map is
determined by the value of each name, and features with distinct names have the same key in whatever
order they are inserted. -/
theorem contextKey_collisionFree :
    (∀ f g : OrderedMap Bytes Bytes, contextKey f = contextKey g → f = g) ∧
    (∀ f g : OrderedMap Bytes Bytes, (∀ name, f.find name = g.find name) →
      contextKey f = contextKey g) ∧
    ∀ entries entries' : List (Bytes × Bytes), (entries.map Prod.fst).Nodup →
      entries.Perm entries' →
      contextKey (.insertAll entries) = contextKey (.insertAll entries') := by
  refine ⟨fun f g h => ?_, fun f g h => ?_, fun entries entries' hkeys hperm => ?_⟩
  · rw [contextKey_eq, contextKey_eq] at h
    have hentries := featureTexts_injective (framed_injective h)
    cases f
    cases g
    simp_all
  · rw [OrderedMap.ext_find h]
  · rw [OrderedMap.insertAll_perm hkeys hperm]

/-- A separator in a name is told from the one behind it. -/
example : contextKey (.insertAll [(lit "a", lit "b:c")]) = lit "1:a3:b:c" ∧
    contextKey (.insertAll [(lit "a:b", lit "c")]) = lit "3:a:b1:c" := by
  decide +kernel

end Jevt.Experience
