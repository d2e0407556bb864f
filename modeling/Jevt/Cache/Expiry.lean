import Jevt.Cache.Fencing
import Jevt.Library.Run

/-!
# Expiry

The expiry that `put` of `include/jevt/cache.hpp` gives an entry, in the 64-bit signed ticks of the
steady clock: `checkedExpiry` is `expiry` with the values on the way, and has no result where one of
them overflows. A ttl of `duration::max()` stands for no expiry and is not added to anything. Any
other ttl is compared with the time that is left after `now`, which is a tick of the clock from its
epoch on; before the epoch it wraps around, and the entry has no expiry either (`expiry_eq`).

An entry keeps its value and its expiry until something removes or replaces it (`Held`), a `get` at
or after its expiry among the things that remove it. `entries_expire` says when an accepted `put`
expires and what a `get` returns until then.
-/

namespace Jevt

open Library

/-- A tick count of the steady clock. -/
def IsTick (n : Int) : Prop :=
  -2 ^ 63 ≤ n ∧ n ≤ clockMax

instance (n : Int) : Decidable (IsTick n) :=
  inferInstanceAs (Decidable (_ ∧ _))

/-- The value of an expression on tick counts, if it does not overflow. -/
def checkedTick (n : Int) : Option Int :=
  if IsTick n then some n else none

/-- The expiry that `put` computes, if no value on the way overflows. -/
def checkedExpiry (ttl now : Int) : Option Int :=
  if ttl = clockMax then some clockMax
  else do
    let room ← checkedTick (clockMax - now)
    if room < ttl then some clockMax else checkedTick (now + ttl)

variable {ttl now : Int}

/-- A tick does not wrap around. -/
theorem wrapTick_of_isTick {n : Int} (h : IsTick n) : wrapTick n = n := by
  obtain ⟨hlow, hhigh⟩ := h
  unfold clockMax at hhigh
  unfold wrapTick
  exact Int.bmod_eq_of_le (by omega) (by omega)

/-- A value that does not overflow is the value of the expression. -/
theorem eq_of_checkedTick {n m : Int} (h : checkedTick n = some m) : n = m ∧ wrapTick n = m := by
  unfold checkedTick at h
  split at h
  · next htick =>
    obtain rfl := Option.some.inj h
    exact ⟨rfl, wrapTick_of_isTick htick⟩
  · cases h

/-- What is computed without an overflow is the expiry. -/
theorem expiry_of_checkedExpiry {expires : Int} (h : checkedExpiry ttl now = some expires) :
    expiry ttl now = expires := by
  unfold checkedExpiry at h
  unfold expiry
  split at h
  · next hmax =>
    rw [if_pos (.inl hmax)]
    exact Option.some.inj h
  · next hmax =>
    obtain ⟨room, hroom, h⟩ := Option.bind_eq_some_iff.1 h
    obtain ⟨-, hroom⟩ := eq_of_checkedTick hroom
    rw [hroom]
    split at h
    · next hlate =>
      rw [if_pos (.inr hlate)]
      exact Option.some.inj h
    · next hlate =>
      rw [if_neg (not_or.2 ⟨hmax, hlate⟩)]
      exact (eq_of_checkedTick h).2

/-- From the epoch on nothing overflows, and without an expiry nothing is computed. -/
theorem checkedExpiry_eq_some (hnow : IsTick now) (httl : IsTick ttl) (hpositive : 0 < ttl)
    (h : 0 ≤ now ∨ ttl = clockMax) :
    checkedExpiry ttl now =
      some (if ttl = clockMax then clockMax else min clockMax (now + ttl)) := by
  unfold checkedExpiry
  split
  · rfl
  · next hmax =>
    have hepoch := h.resolve_right hmax
    unfold IsTick clockMax at *
    have hroom : checkedTick (2 ^ 63 - 1 - now) = some (2 ^ 63 - 1 - now) :=
      if_pos ⟨by omega, by unfold clockMax; omega⟩
    rw [hroom, Option.bind_eq_bind, Option.bind_some]
    split
    · congr 1
      omega
    · have hsum : checkedTick (now + ttl) = some (now + ttl) :=
        if_pos ⟨by omega, by unfold clockMax; omega⟩
      rw [hsum]
      congr 1
      omega

/-- Before the epoch the time that is left overflows. -/
theorem checkedExpiry_eq_none (hnow : now < 0) (hmax : ttl ≠ clockMax) :
    checkedExpiry ttl now = none := by
  have hroom : checkedTick (clockMax - now) = none := if_neg fun htick => by
    have := htick.2
    omega
  rw [checkedExpiry, if_neg hmax, hroom]
  rfl

/-- **The expiry of an entry**: none without a ttl or before the epoch, where the time that is left
wraps around, and otherwise the sum of the tick and the ttl, but at most the last tick. -/
theorem expiry_eq (hnow : IsTick now) (httl : IsTick ttl) (hpositive : 0 < ttl) :
    expiry ttl now =
      if ttl = clockMax ∨ now < 0 then clockMax else min clockMax (now + ttl) := by
  by_cases hmax : ttl = clockMax
  · rw [if_pos (.inl hmax), expiry, if_pos (.inl hmax)]
  · by_cases hearly : now < 0
    · -- the difference is a tick again after one turn around the 64 bits
      have hroom : wrapTick (clockMax - now) = clockMax - now - 2 ^ 64 := by
        have hwrapped : wrapTick (clockMax - now - 2 ^ 64) = wrapTick (clockMax - now) :=
          mod_cast Int.sub_bmod_right (clockMax - now) (2 ^ 64)
        rw [← hwrapped]
        unfold IsTick clockMax at hnow
        refine wrapTick_of_isTick ⟨?_, ?_⟩ <;> unfold clockMax <;> omega
      have hlate : wrapTick (clockMax - now) < ttl := by
        rw [hroom]
        unfold IsTick clockMax at *
        omega
      rw [if_pos (.inr hearly), expiry, if_pos (.inr hlate)]
    · have hchecked := checkedExpiry_eq_some hnow httl hpositive (.inl (not_lt.1 hearly))
      rw [expiry_of_checkedExpiry hchecked, if_neg hmax, if_neg (not_or.2 ⟨hmax, hearly⟩)]

namespace RevisionedCache

variable {Value : Type} {c : RevisionedCache Value} {key : Bytes} {issued : Nat}
  {e : CacheEntry Value}

/-- A ticket is current and an entry is stored. -/
structure Held (key : Bytes) (issued : Nat) (e : CacheEntry Value) (c : RevisionedCache Value) :
    Prop where
  initialized : c.initialized = true
  generation : c.generation = issued
  entry : c.entries.lookup key = some e

/-- A call that neither removes nor replaces the entry of a key: the revisions stay, no `get` finds
the entry expired, and an accepted `put` is of another key and does not evict the entry. -/
def Undisturbed (key : Bytes) (expires : Int) (c : RevisionedCache Value) : CacheCall Value → Prop
  | .advance revisions => revisions = c.revisions
  | .get key' issued now => key' = key → issued = c.generation → now < expires
  | .put key' issued value valueBytes ttl now =>
    (c.put key' issued value valueBytes ttl now).2 = true →
      key' ≠ key ∧ key ∈ (c.put key' issued value valueBytes ttl now).1.entries
  | .invalidate => False

/-- A call that does not disturb an entry leaves it as it is. -/
theorem Held.apply (h : Held key issued e c) {call : CacheCall Value}
    (hcall : Undisturbed key e.expires c call) : Held key issued e (c.apply call) := by
  cases call with
  | invalidate => exact hcall.elim
  | advance revisions =>
    have hsame : ¬(c.initialized = false ∨ revisions ≠ c.revisions) := by
      simp [h.initialized, show revisions = c.revisions from hcall]
    simp only [RevisionedCache.apply, advance, if_neg hsame]
    exact h
  | get key' issued' now =>
    have hshrinks := (get_spec c key' issued' now).1
    refine ⟨hshrinks.initialized.trans h.initialized, hshrinks.generation.trans h.generation, ?_⟩
    simp only [RevisionedCache.apply, get]
    split
    · exact h.entry
    · next hcurrent =>
      split
      · exact h.entry
      · next found hfound =>
        split
        · next hexpired =>
          have hother : key' ≠ key := by
            rintro rfl
            obtain rfl := Option.some.inj (hfound.symm.trans h.entry)
            have hissued : issued' = c.generation := by
              by_contra hne
              exact hcurrent (.inr hne)
            have := hcall rfl hissued
            omega
          exact (AList.lookup_erase_ne hother.symm).trans h.entry
        · exact h.entry
  | put key' issued' value valueBytes ttl now =>
    rcases put_cases c key' issued' value valueBytes ttl now with
      ⟨-, hsame⟩ | ⟨-, v, roomy, -, hroomy, hfresh, hput⟩
    · have hinitialized := congrArg RevisionedCache.initialized hsame
      have hgeneration := congrArg RevisionedCache.generation hsame
      have hentries := congrArg RevisionedCache.entries hsame
      exact ⟨hinitialized.trans h.initialized, hgeneration.trans h.generation,
        (congrArg (AList.lookup key) hentries).trans h.entry⟩
    · obtain ⟨hother, hstored⟩ := hcall (by rw [hput])
      rw [hput] at hstored
      rw [RevisionedCache.apply, hput]
      have hentries : (roomy.emplace key' v (key'.length + valueBytes) (expiry ttl now)).entries =
          roomy.entries.insert key' ⟨v, key'.length + valueBytes, expiry ttl now, roomy.nextNode⟩ :=
        if_neg hfresh
      have hkept : key ∈ roomy.entries := by
        rw [hentries, AList.mem_insert] at hstored
        exact hstored.resolve_left hother.symm
      obtain ⟨e', he'⟩ := Option.isSome_iff_exists.1 (AList.lookup_isSome.2 hkept)
      obtain rfl := Option.some.inj ((hroomy.entries he').symm.trans h.entry)
      refine ⟨hroomy.initialized.trans h.initialized, hroomy.generation.trans h.generation, ?_⟩
      rw [hentries, AList.lookup_insert_ne hother.symm, he']

/-- An entry that nothing disturbs is still there. -/
theorem Held.execute (h : Held key issued e c) {calls : List (CacheCall Value)}
    (hcalls : Along RevisionedCache.apply (Undisturbed key e.expires) c calls) :
    Held key issued e (c.execute calls) :=
  hcalls.invariant (fun _ _ held hcall => held.apply hcall) h

/-- What is stored is returned until its expiry. -/
theorem Held.get (h : Held key issued e c) (now : Int) :
    (c.get key issued now).2 = if now < e.expires then some e.value else none := by
  have hcurrent : ¬(c.initialized = false ∨ issued ≠ c.generation) := by
    simp [h.initialized, h.generation]
  rw [RevisionedCache.get, if_neg hcurrent, h.entry]
  dsimp only
  split
  · rw [if_neg (by omega)]
  · rw [if_pos (by omega)]

/-- An accepted `put` has a positive ttl, and its entry is stored under the current ticket. -/
theorem held_of_put {v : Value} {valueBytes : Nat}
    (h : (c.put key issued (some v) valueBytes ttl now).2 = true) :
    0 < ttl ∧ ∃ position, Held key issued
      ⟨v, key.length + valueBytes, expiry ttl now, position⟩
      (c.put key issued (some v) valueBytes ttl now).1 := by
  have haccepted : 0 < ttl ∧ c.initialized = true := by
    unfold put at h
    dsimp only at h
    split at h
    · cases h
    · next hkey =>
      split at h
      · cases h
      · split at h
        · cases h
        · next hcurrent =>
          simp only [not_or, Bool.not_eq_false] at hkey hcurrent
          exact ⟨by omega, hcurrent.1⟩
  rcases put_cases c key issued (some v) valueBytes ttl now with
    ⟨hrefused, -⟩ | ⟨hissued, v', roomy, hvalue, hroomy, hfresh, hput⟩
  · rw [hrefused] at h
    cases h
  · obtain rfl := Option.some.inj hvalue
    refine ⟨haccepted.1, roomy.nextNode, ?_⟩
    rw [hput]
    refine ⟨hroomy.initialized.trans haccepted.2, hroomy.generation.trans hissued.symm, ?_⟩
    rw [emplace, if_neg hfresh]
    exact AList.lookup_insert _

/-- **Entries expire.** Let a `put` be accepted at a tick from the epoch on, or with a ttl that
stands for no expiry. No value on the way to the expiry overflows. The expiry is the last tick for
such a ttl, and the sum of the tick and the ttl otherwise, but at most the last tick. While nothing
removes or replaces the entry and the ticket stays current, a `get` returns the value exactly before
the expiry. -/
theorem entries_expire {v : Value} {valueBytes : Nat} (hnow : IsTick now) (httl : IsTick ttl)
    (hepoch : 0 ≤ now ∨ ttl = clockMax)
    (hput : (c.put key issued (some v) valueBytes ttl now).2 = true) :
    ∃ expires, checkedExpiry ttl now = some expires ∧
      expires = (if ttl = clockMax then clockMax else min clockMax (now + ttl)) ∧
      (0 ≤ now → expires = min clockMax (now + ttl)) ∧
      (∃ e, (c.put key issued (some v) valueBytes ttl now).1.entries.lookup key = some e ∧
        e.value = v ∧ e.expires = expires) ∧
      ∀ (calls : List (CacheCall Value)) (t : Int),
        Along RevisionedCache.apply (Undisturbed key expires)
          (c.put key issued (some v) valueBytes ttl now).1 calls →
        (((c.put key issued (some v) valueBytes ttl now).1.execute calls).get key issued t).2 =
          if t < expires then some v else none := by
  obtain ⟨hpositive, position, hheld⟩ := held_of_put hput
  have hchecked := checkedExpiry_eq_some hnow httl hpositive hepoch
  have hexpires := expiry_of_checkedExpiry hchecked
  refine ⟨_, hchecked, rfl, fun hlate => ?_, ⟨_, hheld.entry, rfl, hexpires⟩, ?_⟩
  · split
    · next hmax =>
      rw [hmax]
      omega
    · rfl
  · intro calls t hcalls
    rw [← hexpires] at hcalls ⊢
    exact (hheld.execute hcalls).get t

/-- Two entries that do not live as long as a sum of ticks says: one that was put before the epoch
without an expiry, and one that a `get` has found expired. -/
theorem expiry_is_not_a_sum :
    let c : RevisionedCache Nat := ({ limits := {} } : RevisionedCache Nat).execute [.advance {}]
    let endless := c.put (lit "k") 1 (some 7) 1 clockMax (-1)
    let early := c.put (lit "k") 1 (some 7) 1 10 0
    (endless.2 = true ∧ IsTick (-1) ∧ min clockMax (-1 + clockMax) = clockMax - 1 ∧
      (endless.1.get (lit "k") 1 (clockMax - 1)).2 = some 7) ∧
    early.2 = true ∧ ((early.1.execute [.get (lit "k") 1 20]).get (lit "k") 1 5).2 = none ∧
      (early.1.execute [.get (lit "k") 1 20]).counters.evictions = 0 := by
  decide +kernel

/-- A value with ten ticks to live, looked for in the last of them and after it. -/
theorem entries_expire_ten :
    let c : RevisionedCache Nat := ({ limits := {} } : RevisionedCache Nat).execute [.advance {}]
    let stored := (c.put (lit "k") 1 (some 7) 1 10 0).1
    (stored.get (lit "k") 1 9).2 = some 7 ∧ (stored.get (lit "k") 1 10).2 = none := by
  intro c stored
  have hput : (c.put (lit "k") 1 (some 7) 1 10 0).2 = true := by decide +kernel
  obtain ⟨expires, -, hexpires, -, -, hget⟩ :=
    entries_expire (by decide) (by decide) (.inl le_rfl) hput
  obtain rfl : expires = 10 := hexpires
  exact ⟨hget [] 9 trivial, hget [] 10 trivial⟩

end RevisionedCache

end Jevt
