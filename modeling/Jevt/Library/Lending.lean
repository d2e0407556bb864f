import Mathlib.Data.List.Perm.Basic
import Mathlib.Data.List.Range

/-!
# Resources that are lent

A pool of reusable resources: the idle ones are a stack of at most `limit`, and the others are held
by a user or gone. Resources are numbered as they are made. `Balanced limit held p` says that each
is in one place, where `held` are those that users hold, in any order; the rules say what a user may
do without upsetting the balance (`Balanced.take`, `Balanced.make`, `Balanced.give`,
`Balanced.discard`), and what follows from it: two users never hold the same resource
(`Balanced.exclusive`), and none is lost (`Balanced.length`).

The users are calls, each at a place of its own, and a place may hold a resource. `Tended` says what
is true of a resource at the place where it is. Its rules need to look at one call and at the
resource of this call only, because no other call holds it.

What happens to the resources is a log of events, each with the number of its resource. `phase` is
the state that an automaton is in behind the events of one resource, if they are in an order that it
knows.
-/

namespace Jevt.Library

variable {α β ε φ : Type*}

/-! ## Users -/

/-- What the users hold, when one of them holds something else than before. -/
theorem perm_filterMap_set {f : α → Option β} {l : List α} {k : ℕ} {a : α} (b : α)
    (h : l[k]? = some a) :
    ((f a).toList ++ (l.set k b).filterMap f).Perm ((f b).toList ++ l.filterMap f) := by
  have hcons : ∀ (x : α) (rest : List α),
      (x :: rest).filterMap f = (f x).toList ++ rest.filterMap f := by
    intro x rest
    cases hx : f x with
    | none => rw [List.filterMap_cons_none hx]; rfl
    | some y => rw [List.filterMap_cons_some hx]; rfl
  induction l generalizing k with
  | nil => cases h
  | cons x l ih =>
    cases k with
    | zero =>
      obtain rfl := Option.some.inj h
      rw [List.set_cons_zero, hcons, hcons, ← List.append_assoc, ← List.append_assoc]
      exact List.perm_append_comm.append_right _
    | succ k =>
      rw [List.set_cons_succ, hcons, hcons]
      -- what stands in front can be passed over
      have hpass : ∀ ys zs : List β, (ys ++ ((f x).toList ++ zs)).Perm
          ((f x).toList ++ (ys ++ zs)) := fun ys zs => by
        rw [← List.append_assoc, ← List.append_assoc]
        exact List.perm_append_comm.append_right _
      exact (hpass _ _).trans (((ih h).append_left _).trans (hpass _ _).symm)

/-- Where everything held is held once, its holder is determined. -/
theorem holder_unique {f : α → Option β} {l : List α} (hnodup : (l.filterMap f).Nodup) {i j : ℕ}
    {a b : α} {x : β} (hi : l[i]? = some a) (hj : l[j]? = some b) (ha : f a = some x)
    (hb : f b = some x) : i = j := by
  induction l generalizing i j with
  | nil => cases hi
  | cons y l ih =>
    have hmem : ∀ {k : ℕ} {c : α}, l[k]? = some c → f c = some x → x ∈ l.filterMap f :=
      fun hk hc => List.mem_filterMap.2 ⟨_, List.mem_of_getElem? hk, hc⟩
    -- a holder in front excludes one behind
    have hfront : f y = some x → x ∉ l.filterMap f := fun hy => by
      rw [List.filterMap_cons_some hy] at hnodup
      exact (List.nodup_cons.1 hnodup).1
    have hrest : (l.filterMap f).Nodup := by
      cases hy : f y with
      | none => rwa [List.filterMap_cons_none hy] at hnodup
      | some z =>
        rw [List.filterMap_cons_some hy] at hnodup
        exact (List.nodup_cons.1 hnodup).2
    cases i with
    | zero =>
      obtain rfl := Option.some.inj hi
      cases j with
      | zero => rfl
      | succ j => exact absurd (hmem hj hb) (hfront ha)
    | succ i =>
      cases j with
      | zero =>
        obtain rfl := Option.some.inj hj
        exact absurd (hmem hi ha) (hfront hb)
      | succ j => exact congrArg (· + 1) (ih hrest hi hj)

/-! ## The pool -/

/-- How many resources have been made, the idle ones, and those that are gone. -/
structure Lending where
  made : ℕ := 0
  idle : List ℕ := []
  gone : List ℕ := []
  deriving DecidableEq

namespace Lending

/-- A user takes the idle resource that was given back last. -/
def take (p : Lending) : Option (ℕ × Lending) :=
  p.idle.getLast?.map fun i => (i, { p with idle := p.idle.dropLast })

/-- A user makes a resource. -/
def make (p : Lending) : Lending := { p with made := p.made + 1 }

/-- A user gives a resource back, if there is room for it. -/
def give (limit : ℕ) (p : Lending) (i : ℕ) : Option Lending :=
  if p.idle.length < limit then some { p with idle := p.idle ++ [i] } else none

/-- A resource comes to its end. -/
def discard (p : Lending) (i : ℕ) : Lending := { p with gone := p.gone ++ [i] }

/-- The idle resources come to their end. -/
def clear (p : Lending) : Lending := { p with idle := [], gone := p.gone ++ p.idle }

variable {limit : ℕ} {held held' : List ℕ} {p p' : Lending} {i : ℕ}

/-- Every resource is idle, held or gone, and there is room for the idle ones. -/
structure Balanced (limit : ℕ) (held : List ℕ) (p : Lending) : Prop where
  once : (p.idle ++ held ++ p.gone).Perm (List.range p.made)
  bounded : p.idle.length ≤ limit

/-- Nothing has been made in the beginning. -/
theorem balanced_start (limit : ℕ) : Balanced limit [] {} :=
  ⟨.nil, Nat.zero_le _⟩

/-- The order of what is held does not matter. -/
theorem Balanced.perm (h : Balanced limit held p) (hheld : held'.Perm held) :
    Balanced limit held' p :=
  ⟨((hheld.append_left _).append_right _).trans h.once, h.bounded⟩

/-- The resource that is taken was the last idle one. -/
theorem take_eq_some (h : p.take = some (i, p')) :
    p.idle = p'.idle ++ [i] ∧ p'.made = p.made ∧ p'.gone = p.gone := by
  obtain ⟨j, hlast, heq⟩ := Option.map_eq_some_iff.1 h
  obtain ⟨rfl, rfl⟩ := Prod.mk.inj heq
  exact ⟨(List.dropLast_append_getLast? _ hlast).symm, rfl, rfl⟩

/-- **Taking an idle resource** keeps the balance. -/
theorem Balanced.take (h : Balanced limit held p) (htake : p.take = some (i, p')) :
    Balanced limit (i :: held) p' := by
  obtain ⟨hidle, hmade, hgone⟩ := take_eq_some htake
  have honce := h.once
  have hbounded := h.bounded
  rw [hidle, ← hmade, ← hgone] at honce
  rw [hidle, List.length_append] at hbounded
  rw [List.append_assoc p'.idle, List.singleton_append] at honce
  exact ⟨honce, (Nat.le_add_right _ _).trans hbounded⟩

/-- **Making a resource** keeps the balance. -/
theorem Balanced.make (h : Balanced limit held p) : Balanced limit (p.made :: held) p.make := by
  refine ⟨?_, h.bounded⟩
  show (p.idle ++ p.made :: held ++ p.gone).Perm (List.range (p.made + 1))
  rw [List.range_succ, List.append_assoc, List.cons_append]
  refine List.perm_middle.trans (.trans ?_ (List.perm_append_singleton _ _).symm)
  rw [← List.append_assoc]
  exact h.once.cons _

/-- **Giving a resource back** keeps the balance. -/
theorem Balanced.give (h : Balanced limit (i :: held) p) (hgive : p.give limit i = some p') :
    Balanced limit held p' := by
  unfold Lending.give at hgive
  split_ifs at hgive with hroom
  obtain rfl := Option.some.inj hgive
  refine ⟨?_, ?_⟩
  · have honce := h.once
    rwa [List.append_cons] at honce
  · rw [List.length_append]
    exact hroom

/-- **The end of a resource** keeps the balance. -/
theorem Balanced.discard (h : Balanced limit (i :: held) p) :
    Balanced limit held (p.discard i) := by
  refine ⟨.trans ?_ h.once, h.bounded⟩
  show (p.idle ++ held ++ (p.gone ++ [i])).Perm _
  rw [List.append_assoc, List.append_assoc, List.cons_append]
  refine (List.Perm.append_left _ ?_)
  rw [← List.append_assoc]
  exact List.perm_append_singleton _ _

/-- **The end of the idle resources** keeps the balance. -/
theorem Balanced.clear (h : Balanced limit held p) : Balanced limit held p.clear := by
  refine ⟨.trans ?_ h.once, Nat.zero_le _⟩
  show ([] ++ held ++ (p.gone ++ p.idle)).Perm _
  rw [List.nil_append, ← List.append_assoc, List.append_assoc p.idle]
  exact List.perm_append_comm

/-- Every resource is in one place only. -/
theorem Balanced.nodup (h : Balanced limit held p) : (p.idle ++ held ++ p.gone).Nodup :=
  h.once.nodup_iff.2 List.nodup_range

/-- **What is held is held once**, and neither idle nor gone. -/
theorem Balanced.exclusive (h : Balanced limit held p) :
    held.Nodup ∧ p.idle.Nodup ∧ (∀ i ∈ held, i ∉ p.idle) ∧ ∀ i ∈ p.gone, i ∉ held ∧ i ∉ p.idle := by
  obtain ⟨hfront, -, hgone⟩ := List.nodup_append.1 h.nodup
  obtain ⟨hidle, hheld, happart⟩ := List.nodup_append.1 hfront
  exact ⟨hheld, hidle, fun i hi hi' => happart i hi' i hi rfl, fun i hi =>
    ⟨fun hi' => hgone i (List.mem_append_right _ hi') i hi rfl,
      fun hi' => hgone i (List.mem_append_left _ hi') i hi rfl⟩⟩

/-- **No resource is lost.** -/
theorem Balanced.length (h : Balanced limit held p) :
    p.idle.length + held.length + p.gone.length = p.made := by
  have hlength := h.once.length_eq
  rwa [List.length_append, List.length_append, List.length_range] at hlength

/-- A resource has been made exactly if it is somewhere. -/
theorem Balanced.lt_iff (h : Balanced limit held p) :
    i < p.made ↔ i ∈ p.idle ∨ i ∈ held ∨ i ∈ p.gone := by
  rw [← List.mem_range, ← h.once.mem_iff, List.mem_append, List.mem_append, or_assoc]

end Lending

/-! ## Calls -/

/-- A list with an element in its own place. -/
theorem set_self {l : List α} {k : ℕ} {a : α} (h : l[k]? = some a) : l.set k a = l := by
  obtain ⟨hlt, rfl⟩ := List.getElem?_eq_some_iff.1 h
  exact List.set_getElem_self hlt

/-- An element of a list after one of them has been replaced. -/
theorem getElem?_set_cases {l : List α} {k i : ℕ} {a b c : α} (hk : l[k]? = some a)
    (h : (l.set k b)[i]? = some c) : i = k ∧ c = b ∨ i ≠ k ∧ l[i]? = some c := by
  have hlt := (List.getElem?_eq_some_iff.1 hk).1
  rw [List.getElem?_set] at h
  split_ifs at h with hki
  · exact .inl ⟨hki.symm, (Option.some.inj h).symm⟩
  · exact .inr ⟨fun heq => hki heq.symm, h⟩

/-- What is required of a resource: when it is idle, when the call `k` holds it at a place, when it
is gone, and before it is made. -/
structure Requirements (α χ : Type*) where
  holds : α → Option ℕ
  idle : χ → Prop
  held : ℕ → α → χ → Prop
  gone : χ → Prop
  unmade : χ → Prop

variable {χ : Type*} {R : Requirements α χ} {limit : ℕ}

/-- Every resource is in one place, and as it is required there. -/
structure Tended (R : Requirements α χ) (limit : ℕ) (p : Lending) (calls : List α)
    (view : ℕ → χ) : Prop where
  balanced : p.Balanced limit (calls.filterMap R.holds)
  idle : ∀ c ∈ p.idle, R.idle (view c)
  held : ∀ (k : ℕ) (a : α) (c : ℕ), calls[k]? = some a → R.holds a = some c → R.held k a (view c)
  gone : ∀ c ∈ p.gone, R.gone (view c)
  unmade : ∀ c, p.made ≤ c → R.unmade (view c)

namespace Tended

variable {p p' : Lending} {calls : List α} {view view' : ℕ → χ} {k c : ℕ} {a b : α}

/-- Nothing is made in the beginning. -/
theorem start (limit : ℕ) (hunmade : ∀ c, R.unmade (view c)) : Tended R limit {} [] view where
  balanced := Lending.balanced_start limit
  idle := nofun
  held := nofun
  gone := nofun
  unmade := fun c _ => hunmade c

/-- The resource of a call is held by it alone. -/
theorem alone (h : Tended R limit p calls view) (hk : calls[k]? = some a)
    (ha : R.holds a = some c) : c ∉ p.idle ∧ c ∉ p.gone ∧ c < p.made ∧
      ∀ (i : ℕ) (b : α), calls[i]? = some b → R.holds b = some c → i = k := by
  have hmem : c ∈ calls.filterMap R.holds :=
    List.mem_filterMap.2 ⟨a, List.mem_of_getElem? hk, ha⟩
  obtain ⟨hnodup, -, hidle, hgone⟩ := h.balanced.exclusive
  exact ⟨hidle c hmem, fun hc => (hgone c hc).1 hmem, h.balanced.lt_iff.2 (.inr (.inl hmem)),
    fun i b hi hb => holder_unique hnodup hi hk hb ha⟩

/-- What the calls hold after one of them has moved. -/
theorem perm_held (R : Requirements α χ) (b : α) (hk : calls[k]? = some a) :
    ((R.holds a).toList ++ (calls.set k b).filterMap R.holds).Perm
      ((R.holds b).toList ++ calls.filterMap R.holds) :=
  perm_filterMap_set b hk

/-- A new call holds nothing. -/
theorem enter (h : Tended R limit p calls view) (ha : R.holds a = none) :
    Tended R limit p (calls ++ [a]) view := by
  refine { h with balanced := ?_, held := fun i b c hi hb => ?_ }
  · rw [List.filterMap_append, List.filterMap_cons_none ha]
    exact (List.append_nil _).symm ▸ h.balanced
  · rw [List.getElem?_append] at hi
    split_ifs at hi with hlt
    · exact h.held i b c hi hb
    · obtain rfl := List.mem_singleton.1 (List.mem_of_getElem? hi)
      exact absurd (ha.symm.trans hb) nofun

/-- **A call uses its resource.** No other resource changes. -/
theorem use (h : Tended R limit p calls view) (hk : calls[k]? = some a) (ha : R.holds a = some c)
    (hb : R.holds b = some c) (hothers : ∀ d, d ≠ c → view' d = view d)
    (hheld : R.held k b (view' c)) : Tended R limit p (calls.set k b) view' := by
  obtain ⟨hidle, hgone, hlt, halone⟩ := h.alone hk ha
  have hperm := perm_held R b hk
  rw [ha, hb] at hperm
  refine
    { balanced := h.balanced.perm ((List.perm_append_left_iff _).1 hperm)
      idle := fun d hd => ?_
      held := fun i e d hi hd => ?_
      gone := fun d hd => ?_
      unmade := fun d hd => ?_ }
  · rw [hothers d fun heq => hidle (heq ▸ hd)]
    exact h.idle d hd
  · rcases getElem?_set_cases hk hi with ⟨rfl, rfl⟩ | ⟨hne, hi⟩
    · obtain rfl : c = d := Option.some.inj (hb.symm.trans hd)
      exact hheld
    · rw [hothers d fun heq => hne (halone i e hi (heq ▸ hd))]
      exact h.held i e d hi hd
  · rw [hothers d fun heq => hgone (heq ▸ hd)]
    exact h.gone d hd
  · rw [hothers d (hlt.trans_le hd).ne']
    exact h.unmade d hd

/-- **A call uses its resource** and stays where it is. -/
theorem stay (h : Tended R limit p calls view) (hk : calls[k]? = some a) (ha : R.holds a = some c)
    (hothers : ∀ d, d ≠ c → view' d = view d) (hheld : R.held k a (view' c)) :
    Tended R limit p calls view' := by
  have huse := h.use hk ha ha hothers hheld
  rwa [set_self hk] at huse

/-- **A call goes on**, and has what it had. -/
theorem pass (h : Tended R limit p calls view) (hk : calls[k]? = some a)
    (hholds : R.holds b = R.holds a)
    (hheld : ∀ d, R.holds a = some d → R.held k a (view d) → R.held k b (view d)) :
    Tended R limit p (calls.set k b) view := by
  have hperm := perm_held R b hk
  rw [hholds] at hperm
  refine { h with
    balanced := h.balanced.perm ((List.perm_append_left_iff _).1 hperm)
    held := fun i e d hi hd => ?_ }
  rcases getElem?_set_cases hk hi with ⟨rfl, rfl⟩ | ⟨-, hi⟩
  · have ha : R.holds a = some d := hholds.symm.trans hd
    exact hheld d ha (h.held i a d hk ha)
  · exact h.held i e d hi hd

/-- **A call takes an idle resource.** -/
theorem take (h : Tended R limit p calls view) (hk : calls[k]? = some a) (ha : R.holds a = none)
    (htake : p.take = some (c, p')) (hb : R.holds b = some c)
    (hheld : R.idle (view c) → R.held k b (view c)) : Tended R limit p' (calls.set k b) view := by
  obtain ⟨hidle, hmade, hgone⟩ := Lending.take_eq_some htake
  have hperm := perm_held R b hk
  rw [ha, hb] at hperm
  have hc : c ∈ p.idle := hidle ▸ List.mem_append_right _ (List.mem_singleton_self c)
  refine
    { balanced := (h.balanced.take htake).perm hperm
      idle := fun d hd => h.idle d (hidle ▸ List.mem_append_left _ hd)
      held := fun i e d hi hd => ?_
      gone := fun d hd => h.gone d (hgone ▸ hd)
      unmade := fun d hd => h.unmade d (hmade ▸ hd) }
  rcases getElem?_set_cases hk hi with ⟨rfl, rfl⟩ | ⟨-, hi⟩
  · obtain rfl : c = d := Option.some.inj (hb.symm.trans hd)
    exact hheld (h.idle c hc)
  · exact h.held i e d hi hd

/-- **A call makes a resource.** -/
theorem make (h : Tended R limit p calls view) (hk : calls[k]? = some a) (ha : R.holds a = none)
    (hb : R.holds b = some p.made) (hothers : ∀ d, d ≠ p.made → view' d = view d)
    (hheld : R.held k b (view' p.made)) : Tended R limit p.make (calls.set k b) view' := by
  have hperm := perm_held R b hk
  rw [ha, hb] at hperm
  -- what is anywhere has been made before
  have hold : ∀ {d : ℕ}, d ∈ p.idle ∨ d ∈ calls.filterMap R.holds ∨ d ∈ p.gone → d ≠ p.made :=
    fun hd heq => absurd (h.balanced.lt_iff.2 hd) (Nat.not_lt.2 heq.ge)
  refine
    { balanced := h.balanced.make.perm hperm
      idle := fun d hd => ?_
      held := fun i e d hi hd => ?_
      gone := fun d hd => ?_
      unmade := fun d hd => ?_ }
  · rw [hothers d (hold (.inl hd))]
    exact h.idle d hd
  · rcases getElem?_set_cases hk hi with ⟨rfl, rfl⟩ | ⟨-, hi⟩
    · obtain rfl : p.made = d := Option.some.inj (hb.symm.trans hd)
      exact hheld
    · have hmem : d ∈ calls.filterMap R.holds :=
        List.mem_filterMap.2 ⟨e, List.mem_of_getElem? hi, hd⟩
      rw [hothers d (hold (.inr (.inl hmem)))]
      exact h.held i e d hi hd
  · rw [hothers d (hold (.inr (.inr hd)))]
    exact h.gone d hd
  · rw [hothers d (Nat.lt_of_succ_le hd).ne']
    exact h.unmade d (Nat.le_of_succ_le hd)

/-- **A call gives its resource back.** -/
theorem give (h : Tended R limit p calls view) (hk : calls[k]? = some a) (ha : R.holds a = some c)
    (hb : R.holds b = none) (hgive : p.give limit c = some p')
    (hidle : R.held k a (view c) → R.idle (view c)) : Tended R limit p' (calls.set k b) view := by
  have hperm := perm_held R b hk
  rw [ha, hb] at hperm
  have hbalanced := (h.balanced.perm hperm).give hgive
  unfold Lending.give at hgive
  split_ifs at hgive
  obtain rfl := Option.some.inj hgive
  refine { h with balanced := hbalanced, idle := fun d hd => ?_, held := fun i e d hi hd => ?_ }
  · rcases List.mem_append.1 hd with hd | hd
    · exact h.idle d hd
    · obtain rfl := List.mem_singleton.1 hd
      exact hidle (h.held k a d hk ha)
  · rcases getElem?_set_cases hk hi with ⟨-, rfl⟩ | ⟨-, hi⟩
    · exact absurd (hb.symm.trans hd) nofun
    · exact h.held i e d hi hd

/-- **A call brings its resource to an end.** -/
theorem discard (h : Tended R limit p calls view) (hk : calls[k]? = some a)
    (ha : R.holds a = some c) (hb : R.holds b = none) (hothers : ∀ d, d ≠ c → view' d = view d)
    (hgone : R.gone (view' c)) : Tended R limit (p.discard c) (calls.set k b) view' := by
  obtain ⟨hcidle, hcgone, hlt, halone⟩ := h.alone hk ha
  have hperm := perm_held R b hk
  rw [ha, hb] at hperm
  refine
    { balanced := (h.balanced.perm hperm).discard
      idle := fun d hd => ?_
      held := fun i e d hi hd => ?_
      gone := fun d hd => ?_
      unmade := fun d hd => ?_ }
  · rw [hothers d fun heq => hcidle (heq ▸ hd)]
    exact h.idle d hd
  · rcases getElem?_set_cases hk hi with ⟨-, rfl⟩ | ⟨hne, hi⟩
    · exact absurd (hb.symm.trans hd) nofun
    · rw [hothers d fun heq => hne (halone i e hi (heq ▸ hd))]
      exact h.held i e d hi hd
  · rcases List.mem_append.1 hd with hd | hd
    · rw [hothers d fun heq => hcgone (heq ▸ hd)]
      exact h.gone d hd
    · obtain rfl := List.mem_singleton.1 hd
      exact hgone
  · rw [hothers d (hlt.trans_le hd).ne']
    exact h.unmade d hd

/-- **The idle resources come to their end**, and no call holds any. -/
theorem clear (h : Tended R limit p calls view) (hcalls : ∀ a ∈ calls, R.holds a = none)
    (hothers : ∀ d, d ∉ p.idle → view' d = view d) (hgone : ∀ d ∈ p.idle, R.gone (view' d)) :
    Tended R limit p.clear calls view' := by
  refine
    { balanced := h.balanced.clear
      idle := nofun
      held := fun i e d hi hd => ?_
      gone := fun d hd => ?_
      unmade := fun d hd => ?_ }
  · exact absurd ((hcalls e (List.mem_of_getElem? hi)).symm.trans hd) nofun
  · rcases List.mem_append.1 hd with hd | hd
    · rw [hothers d (h.balanced.exclusive.2.2.2 d hd).2]
      exact h.gone d hd
    · exact hgone d hd
  · have hidle : d ∉ p.idle := fun hmem =>
      absurd (h.balanced.lt_iff.2 (.inl hmem)) (Nat.not_lt.2 hd)
    rw [hothers d hidle]
    exact h.unmade d hd

/-- **No resource is lost**: those that are neither idle nor gone are held. -/
theorem made_le (h : Tended R limit p calls view) {n : ℕ}
    (hn : (calls.filterMap R.holds).length ≤ n) : p.made ≤ p.gone.length + limit + n := by
  have hlength := h.balanced.length
  have hbounded := h.balanced.bounded
  omega

/-- Without calls that hold something every resource is idle or gone. -/
theorem made_eq (h : Tended R limit p calls view) (hcalls : ∀ a ∈ calls, R.holds a = none) :
    p.made = p.gone.length + p.idle.length := by
  have hlength := h.balanced.length
  rw [List.filterMap_eq_nil_iff.2 hcalls, List.length_nil] at hlength
  omega

end Tended

/-! ## The life of a resource -/

/-- The state of an automaton behind the events of one resource. -/
def phase (next : φ → ε → Option φ) (start : φ) (log : List (ℕ × ε)) (i : ℕ) : Option φ :=
  ((log.filter fun e => e.1 = i).map Prod.snd).foldlM next start

variable {next : φ → ε → Option φ} {start : φ} {log : List (ℕ × ε)} {i j : ℕ}

/-- A resource without events. -/
theorem phase_nil (next : φ → ε → Option φ) (start : φ) (i : ℕ) :
    phase next start [] i = some start := rfl

/-- One more event of the resource. -/
theorem phase_concat_self {e : ε} {q : φ} (h : phase next start log i = some q) :
    phase next start (log ++ [(i, e)]) i = next q e := by
  unfold phase at h ⊢
  rw [List.filter_append, List.map_append, List.foldlM_append, h,
    List.filter_cons_of_pos (by simp)]
  exact bind_pure (next q e)

/-- An event of another resource. -/
theorem phase_concat_other {e : ε} (hne : j ≠ i) :
    phase next start (log ++ [(j, e)]) i = phase next start log i := by
  unfold phase
  rw [List.filter_append, List.filter_cons_of_neg (by simpa using hne), List.filter_nil,
    List.append_nil]

/-- The same event of several resources. -/
theorem phase_append_map {e : ε} {l : List ℕ} (hl : l.Nodup) {q : φ}
    (h : phase next start log i = some q) :
    phase next start (log ++ l.map fun j => (j, e)) i = if i ∈ l then next q e else some q := by
  induction l generalizing log q with
  | nil => rw [List.map_nil, List.append_nil, h, if_neg List.not_mem_nil]
  | cons j l ih =>
    obtain ⟨hj, hrest⟩ := List.nodup_cons.1 hl
    rw [List.map_cons, List.append_cons]
    by_cases hij : j = i
    · subst hij
      have hself := phase_concat_self (e := e) h
      rw [if_pos List.mem_cons_self]
      cases hnext : next q e with
      | some r => rw [ih hrest (hself.trans hnext), if_neg hj]
      | none =>
        -- the order has been broken, and stays so
        rw [hnext] at hself
        unfold phase at hself ⊢
        rw [List.filter_append, List.map_append, List.foldlM_append, hself]
        rfl
    · rw [ih hrest ((phase_concat_other hij).trans h)]
      have hmem : i ∈ j :: l ↔ i ∈ l := by
        rw [List.mem_cons, or_iff_right (Ne.symm hij)]
      simp only [hmem]

end Jevt.Library
