import Jevt.Cache.Store

/-!
# Tickets fence late writes

A ticket is the generation in which it was issued. The generation moves on every change of the
revisions and on every explicit invalidation (`renews`), and the entries are cleared in the same
call, so an entry that is still there was stored in the current generation
(`storedBy_of_lookup`). The other calls leave the generation alone and, apart from a successful
put, only ever remove entries (`Shrinks`).

A ticket of an earlier generation stays unusable until the generation wraps around
(`generation_execute`), even if the revisions change back meanwhile.
-/

namespace Jevt.RevisionedCache

variable {Value : Type} {c c' : RevisionedCache Value}

/-- A call that begins a new generation. -/
def renews (c : RevisionedCache Value) : CacheCall Value → Bool
  | .advance revisions => !c.initialized || decide (revisions ≠ c.revisions)
  | .invalidate => true
  | .get .. | .put .. => false

/-- The number of generation changes among some calls. -/
def generationChanges (c : RevisionedCache Value) : List (CacheCall Value) → Nat
  | [] => 0
  | call :: rest => (if c.renews call then 1 else 0) + generationChanges (c.apply call) rest

@[simp] theorem execute_nil (c : RevisionedCache Value) : c.execute [] = c := rfl

@[simp] theorem execute_append (c : RevisionedCache Value) (calls calls' : List (CacheCall Value)) :
    c.execute (calls ++ calls') = (c.execute calls).execute calls' :=
  List.foldl_append

@[simp] theorem execute_cons (c : RevisionedCache Value) (call : CacheCall Value)
    (calls : List (CacheCall Value)) : c.execute (call :: calls) = (c.apply call).execute calls :=
  rfl

/-! ## Calls within a generation -/

/-- `c'` differs from `c` at most in what it no longer stores, in the recency list and in the
counters. -/
structure Shrinks (c c' : RevisionedCache Value) : Prop where
  revisions : c'.revisions = c.revisions
  initialized : c'.initialized = c.initialized
  generation : c'.generation = c.generation
  entries : ∀ {key : Bytes} {e : CacheEntry Value}, c'.entries.lookup key = some e →
    c.entries.lookup key = some e

/-- A cache shrinks to itself, whatever happens to its recency list and its counters. -/
theorem Shrinks.of_eq (hrevisions : c'.revisions = c.revisions)
    (hinitialized : c'.initialized = c.initialized) (hgeneration : c'.generation = c.generation)
    (hentries : c'.entries = c.entries) : Shrinks c c' :=
  ⟨hrevisions, hinitialized, hgeneration, fun h => hentries ▸ h⟩

/-- Shrinking twice. -/
theorem Shrinks.trans {d : RevisionedCache Value} (h : Shrinks c c') (h' : Shrinks c' d) :
    Shrinks c d :=
  ⟨h'.revisions.trans h.revisions, h'.initialized.trans h.initialized,
    h'.generation.trans h.generation, fun he => h.entries (h'.entries he)⟩

/-- Erasing an entry. -/
theorem shrinks_eraseLocked (c : RevisionedCache Value) (key : Bytes) (found : CacheEntry Value) :
    Shrinks c (c.eraseLocked key found) := by
  refine ⟨rfl, rfl, rfl, fun {key' e} he => ?_⟩
  change (c.entries.erase key).lookup key' = some e at he
  by_cases hkey : key' = key
  · rw [hkey, AList.lookup_erase] at he
    cases he
  · rwa [AList.lookup_erase_ne hkey] at he

/-- Evicting as many entries as the loop of `put` likes. -/
theorem shrinks_makeRoom (retained turns : Nat) (c : RevisionedCache Value) :
    Shrinks c (c.makeRoom retained turns) := by
  induction turns generalizing c with
  | zero => exact .of_eq rfl rfl rfl rfl
  | succ turns ih =>
    unfold makeRoom
    split
    · exact .of_eq rfl rfl rfl rfl
    · split
      · split
        · refine Shrinks.trans ?_ (ih _)
          exact .of_eq rfl rfl rfl rfl
        · next back _ found _ =>
          refine Shrinks.trans ?_ (ih _)
          exact (shrinks_eraseLocked c _ found).trans (.of_eq rfl rfl rfl rfl)
      · exact .of_eq rfl rfl rfl rfl

/-- A `get` stores nothing, and what it returns is stored under the current ticket. -/
theorem get_spec (c : RevisionedCache Value) (key : Bytes) (issued : Nat) (now : Int) :
    Shrinks c (c.get key issued now).1 ∧
    ∀ v, (c.get key issued now).2 = some v →
      issued = c.generation ∧ ∃ e, c.entries.lookup key = some e ∧ e.value = v := by
  unfold get
  split
  · exact ⟨.of_eq rfl rfl rfl rfl, nofun⟩
  · next hcurrent =>
    have hissued : issued = c.generation := by
      by_contra hne
      exact hcurrent (.inr hne)
    split
    · exact ⟨.of_eq rfl rfl rfl rfl, nofun⟩
    · next found hfound =>
      split
      · refine ⟨Shrinks.trans ?_ (shrinks_eraseLocked _ key found), nofun⟩
        exact .of_eq rfl rfl rfl rfl
      · refine ⟨.of_eq rfl rfl rfl rfl, fun v hv => ⟨hissued, found, hfound, ?_⟩⟩
        exact Option.some.inj hv

/-- Erasing the previous entry of a key. -/
theorem shrinks_replaced (c : RevisionedCache Value) (key : Bytes) :
    Shrinks c (c.replaced key) ∧ (c.replaced key).entries.lookup key = none := by
  unfold replaced
  split
  · next found _ => exact ⟨shrinks_eraseLocked c key found, AList.lookup_erase _ _⟩
  · next hnone => exact ⟨.of_eq rfl rfl rfl rfl, hnone⟩

/-- A `put` is refused and changes nothing but a counter, or its ticket is current, it makes room
and it stores its value under its own key. -/
theorem put_cases (c : RevisionedCache Value) (key : Bytes) (issued : Nat) (value : Option Value)
    (valueBytes : Nat) (ttl now : Int) :
    ((c.put key issued value valueBytes ttl now).2 = false ∧
      { (c.put key issued value valueBytes ttl now).1 with counters := c.counters } = c) ∨
    (issued = c.generation ∧ ∃ v roomy, value = some v ∧ Shrinks c roomy ∧ key ∉ roomy.entries ∧
      c.put key issued value valueBytes ttl now =
        (roomy.emplace key v (key.length + valueBytes) (expiry ttl now), true)) := by
  unfold put
  split
  · exact .inl ⟨rfl, rfl⟩
  · next value v =>
    split
    · exact .inl ⟨rfl, rfl⟩
    · split
      · exact .inl ⟨rfl, rfl⟩
      · split
        · exact .inl ⟨rfl, rfl⟩
        · next hcurrent =>
          have hissued : issued = c.generation := by
            by_contra hne
            exact hcurrent (.inr hne)
          obtain ⟨hshrinks, hgone⟩ := shrinks_replaced c key
          have hroom := shrinks_makeRoom (key.length + valueBytes) (c.replaced key).lru.length
            (c.replaced key)
          refine .inr ⟨hissued, v, _, rfl, hshrinks.trans hroom, fun hmem => ?_, rfl⟩
          obtain ⟨e, he⟩ := Option.isSome_iff_exists.1 (AList.lookup_isSome.2 hmem)
          rw [hroom.entries he] at hgone
          cases hgone

/-- A `put` with a ticket of another generation is refused and changes nothing but a counter. -/
theorem put_of_ne {issued : Nat} (h : issued ≠ c.generation) (key : Bytes) (value : Option Value)
    (valueBytes : Nat) (ttl now : Int) :
    (c.put key issued value valueBytes ttl now).2 = false ∧
    { (c.put key issued value valueBytes ttl now).1 with counters := c.counters } = c := by
  rcases put_cases c key issued value valueBytes ttl now with hrefused | ⟨hissued, -⟩
  · exact hrefused
  · exact absurd hissued h

/-! ## Changes of generation -/

/-- A call that begins a new generation clears the entries. -/
theorem apply_of_renews {call : CacheCall Value} (h : c.renews call = true) :
    (c.apply call).entries = ∅ ∧
    (c.apply call).generation = if c.generation = ticketMax then 1 else c.generation + 1 := by
  cases call with
  | get key issued now => cases h
  | put key issued value valueBytes ttl now => cases h
  | invalidate => exact ⟨rfl, rfl⟩
  | advance revisions =>
    have hcond : c.initialized = false ∨ revisions ≠ c.revisions := by
      simpa [renews] using h
    simp only [apply, advance, if_pos hcond]
    exact ⟨rfl, rfl⟩

/-- The other calls stay in their generation. -/
theorem apply_of_not_renews {call : CacheCall Value} (h : c.renews call = false) :
    (c.apply call).revisions = c.revisions ∧ (c.apply call).generation = c.generation ∧
    call ≠ .invalidate ∧ ∀ revisions, call = .advance revisions → revisions = c.revisions := by
  cases call with
  | get key issued now =>
    have hshrinks := (get_spec c key issued now).1
    exact ⟨hshrinks.revisions, hshrinks.generation, nofun, nofun⟩
  | put key issued value valueBytes ttl now =>
    rcases put_cases c key issued value valueBytes ttl now with
      ⟨-, hsame⟩ | ⟨-, v, roomy, -, hroomy, -, hput⟩
    · have hrevisions := congrArg RevisionedCache.revisions hsame
      have hgeneration := congrArg RevisionedCache.generation hsame
      exact ⟨hrevisions, hgeneration, nofun, nofun⟩
    · rw [apply, hput]
      exact ⟨hroomy.revisions, hroomy.generation, nofun, nofun⟩
  | invalidate => cases h
  | advance revisions =>
    have hcond : ¬(c.initialized = false ∨ revisions ≠ c.revisions) := by
      simpa [renews] using h
    simp only [apply, advance, if_neg hcond]
    refine ⟨trivial, trivial, nofun, fun r hr => ?_⟩
    cases hr
    by_contra hne
    exact hcond (.inr hne)

/-- As long as it does not wrap around, the generation counts its changes. -/
theorem generation_execute : ∀ {calls : List (CacheCall Value)} {c : RevisionedCache Value},
    c.generation + c.generationChanges calls ≤ ticketMax →
      (c.execute calls).generation = c.generation + c.generationChanges calls
  | [], _, _ => rfl
  | call :: rest, c, hle => by
      rw [generationChanges] at hle
      have hstep : (c.apply call).generation = c.generation + if c.renews call then 1 else 0 := by
        cases hrenews : c.renews call with
        | true =>
          rw [hrenews, if_pos rfl] at hle
          rw [(apply_of_renews hrenews).2, if_neg (by omega), if_pos rfl]
        | false => exact (apply_of_not_renews hrenews).2.1
      rw [execute_cons, generation_execute (by omega), hstep, generationChanges]
      omega

/-- The changes of a run are those of its two parts. -/
theorem generationChanges_append (calls calls' : List (CacheCall Value)) :
    ∀ c : RevisionedCache Value, c.generationChanges (calls ++ calls') =
      c.generationChanges calls + (c.execute calls).generationChanges calls' := by
  induction calls with
  | nil =>
    intro c
    rw [List.nil_append, generationChanges, Nat.zero_add, execute_nil]
  | cons call rest ih =>
    intro c
    rw [List.cons_append, generationChanges, generationChanges, ih, execute_cons, Nat.add_assoc]

/-- A change of generation makes the generation grow. -/
theorem generation_lt_of_changes {calls calls' : List (CacheCall Value)}
    (hle : c.generation + c.generationChanges (calls ++ calls') ≤ ticketMax)
    (hchanged : 0 < (c.execute calls).generationChanges calls') :
    (c.execute calls).generation < (c.execute (calls ++ calls')).generation := by
  rw [generationChanges_append] at hle
  have hfirst : (c.execute calls).generation = c.generation + c.generationChanges calls :=
    generation_execute (by omega)
  have hsecond : ((c.execute calls).execute calls').generation =
      (c.execute calls).generation + (c.execute calls).generationChanges calls' :=
    generation_execute (by omega)
  rw [execute_append, hsecond]
  omega

/-! ## What is stored -/

/-- After `calls`, the value last stored under `key` is `v`, and nothing has disturbed it: it was
put by the latest successful `put` of that key, with the ticket `issued`, in the revisions that
are still in force, and since then there was neither an invalidation nor an advance to other
revisions. -/
def StoredBy (c₀ : RevisionedCache Value) (calls : List (CacheCall Value)) (key : Bytes)
    (issued : Nat) (v : Value) : Prop :=
  ∃ before valueBytes ttl now after,
    calls = before ++ .put key issued (some v) valueBytes ttl now :: after ∧
    ((c₀.execute before).put key issued (some v) valueBytes ttl now).2 = true ∧
    (c₀.execute before).revisions = (c₀.execute calls).revisions ∧
    .invalidate ∉ after ∧
    (∀ revisions, .advance revisions ∈ after → revisions = (c₀.execute calls).revisions) ∧
    ∀ between issued' value' valueBytes' ttl' now' rest,
      after = between ++ .put key issued' value' valueBytes' ttl' now' :: rest →
      ((c₀.execute (before ++ .put key issued (some v) valueBytes ttl now :: between)).put
        key issued' value' valueBytes' ttl' now').2 = false

/-- A call that stays in the generation and is no successful `put` of the key leaves the record
of what is stored under it as it was. -/
theorem StoredBy.snoc {c₀ : RevisionedCache Value} {calls : List (CacheCall Value)} {key : Bytes}
    {issued : Nat} {v : Value} (h : StoredBy c₀ calls key issued v) {call : CacheCall Value}
    (hstays : (c₀.execute calls).renews call = false)
    (hput : ∀ issued' value' valueBytes' ttl' now',
      call = .put key issued' value' valueBytes' ttl' now' →
      ((c₀.execute calls).put key issued' value' valueBytes' ttl' now').2 = false) :
    StoredBy c₀ (calls ++ [call]) key issued v := by
  obtain ⟨before, valueBytes, ttl, now, after, rfl, hok, hrevisions, hinvalidate, hadvance,
      hlast⟩ :=
    h
  obtain ⟨hsame, -, hcall, hcall'⟩ := apply_of_not_renews hstays
  have hforce : (c₀.execute
      ((before ++ .put key issued (some v) valueBytes ttl now :: after) ++ [call])).revisions =
      (c₀.execute (before ++ .put key issued (some v) valueBytes ttl now :: after)).revisions := by
    rw [execute_append, execute_cons, execute_nil, hsame]
  refine ⟨before, valueBytes, ttl, now, after ++ [call], by simp, hok, hrevisions.trans hforce.symm,
    ?_, ?_, ?_⟩
  · rw [List.mem_append, List.mem_singleton]
    exact fun hmem => hmem.elim hinvalidate fun heq => hcall heq.symm
  · intro revisions hmem
    rw [hforce]
    rcases List.mem_append.1 hmem with hmem | hmem
    · exact hadvance revisions hmem
    · exact hcall' revisions (List.mem_singleton.1 hmem).symm
  · intro between issued' value' valueBytes' ttl' now' rest hsplit
    rcases List.eq_nil_or_concat rest with rfl | ⟨rest, last, rfl⟩
    · obtain ⟨rfl, hlastCall⟩ := List.append_inj' hsplit rfl
      exact hput _ _ _ _ _ (List.singleton_inj.1 hlastCall)
    · rw [List.concat_eq_append, ← List.cons_append, ← List.append_assoc] at hsplit
      exact hlast _ _ _ _ _ _ _ (List.append_inj' hsplit rfl).1

/-- **Every entry was stored in the current generation.** -/
theorem storedBy_of_lookup {limits : CacheLimits} {c₀ : RevisionedCache Value}
    (hcreate : create Value limits = .ok c₀) (calls : List (CacheCall Value)) :
    ∀ {key : Bytes} {e : CacheEntry Value}, (c₀.execute calls).entries.lookup key = some e →
      StoredBy c₀ calls key (c₀.execute calls).generation e.value := by
  induction calls using List.reverseRecOn with
  | nil =>
    intro key e he
    unfold create at hcreate
    split at hcreate
    · cases hcreate
    · cases hcreate
      cases he
  | append_singleton calls call ih =>
    intro key e he
    rw [execute_append, execute_cons, execute_nil] at he ⊢
    cases hrenews : (c₀.execute calls).renews call with
    | true =>
      rw [(apply_of_renews hrenews).1] at he
      cases he
    | false =>
      rw [(apply_of_not_renews hrenews).2.1]
      have hkeep : (c₀.execute calls).entries.lookup key = some e →
          (∀ issued' value' valueBytes' ttl' now',
            call = .put key issued' value' valueBytes' ttl' now' →
            ((c₀.execute calls).put key issued' value' valueBytes' ttl' now').2 = false) →
          StoredBy c₀ (calls ++ [call]) key (c₀.execute calls).generation e.value :=
        fun hold hput => (ih hold).snoc hrenews hput
      cases call with
      | invalidate => cases hrenews
      | advance revisions =>
        have hcond : ¬((c₀.execute calls).initialized = false ∨
            revisions ≠ (c₀.execute calls).revisions) := by simpa [renews] using hrenews
        simp only [apply, advance, if_neg hcond] at he
        exact hkeep he nofun
      | get key' issued now => exact hkeep ((get_spec _ key' issued now).1.entries he) nofun
      | put key' issued value valueBytes ttl now =>
        rcases put_cases (c₀.execute calls) key' issued value valueBytes ttl now with
          ⟨hrefused, hsame⟩ | ⟨rfl, v, roomy, rfl, hroomy, hfree, hput⟩
        · have hentries :
              ((c₀.execute calls).apply (.put key' issued value valueBytes ttl now)).entries =
                (c₀.execute calls).entries := congrArg (fun c => c.entries) hsame
          refine hkeep (hentries ▸ he) fun _ _ _ _ _ heq => ?_
          cases heq
          exact hrefused
        · simp only [apply, hput, emplace, if_neg hfree] at he
          by_cases hkey : key = key'
          · subst hkey
            rw [AList.lookup_insert] at he
            cases he
            refine ⟨calls, valueBytes, ttl, now, [], rfl, by rw [hput], ?_, by simp, by simp, ?_⟩
            · rw [execute_append, execute_cons, execute_nil, (apply_of_not_renews hrenews).1]
            · intro between _ _ _ _ _ rest hsplit
              simp at hsplit
          · rw [AList.lookup_insert_ne hkey] at he
            refine hkeep (hroomy.entries he) fun _ _ _ _ _ heq => ?_
            cases heq
            exact absurd rfl hkey

/-- **Tickets fence the cache.** Whatever calls its clients make, in whatever order they take the
lock: a value that `get` returns was stored by the latest successful `put` of its key, with the
ticket the reader presents and in the revisions that are still in force, with no invalidation and
no change of revisions since. And as long as the generation does not wrap around, a ticket that an
`advance` issued before a change of generation is refused by every `put` after it, which then
changes nothing but a counter, whatever the revisions are by then. -/
theorem tickets_fence {limits : CacheLimits} {c₀ : RevisionedCache Value}
    (hcreate : create Value limits = .ok c₀) (calls : List (CacheCall Value)) :
    (∀ key issued now v, ((c₀.execute calls).get key issued now).2 = some v →
      StoredBy c₀ calls key issued v) ∧
    (c₀.generationChanges calls < ticketMax →
      ∀ before revisions after, calls = before ++ .advance revisions :: after →
        0 < (c₀.execute (before ++ [.advance revisions])).generationChanges after →
        ∀ key value valueBytes ttl now,
          ((c₀.execute calls).put key ((c₀.execute before).advance revisions).2 value valueBytes
            ttl now).2 = false ∧
          { ((c₀.execute calls).put key ((c₀.execute before).advance revisions).2 value valueBytes
            ttl now).1 with counters := (c₀.execute calls).counters } = c₀.execute calls) := by
  constructor
  · intro key issued now v hv
    obtain ⟨rfl, e, he, rfl⟩ := (get_spec _ key issued now).2 v hv
    exact storedBy_of_lookup hcreate calls he
  · rintro hcount before revisions after rfl hchanged key value valueBytes ttl now
    have hzero : c₀.generation = 0 := by
      unfold create at hcreate
      split at hcreate
      · cases hcreate
      · cases hcreate
        rfl
    have hticket : ((c₀.execute before).advance revisions).2 =
        (c₀.execute (before ++ [.advance revisions])).generation := by
      rw [execute_append, execute_cons, execute_nil, apply, advance]
      split <;> rfl
    rw [List.append_cons] at hcount ⊢
    have hlt := generation_lt_of_changes (by rw [hzero]; omega) hchanged
    exact put_of_ne (by omega) key value valueBytes ttl now

/-- Two clients: the first stores a value and reads it; the revisions change and change back; the
second client's ticket is then of the third generation. -/
def backAndForth : List (CacheCall Nat) :=
  [.advance { model := lit "m1" },
    .put (lit "input") 1 (some 7) 8 clockMax 0,
    .get (lit "input") 1 0,
    .advance { model := lit "m2" },
    .advance { model := lit "m1" }]

/-- A hit before the revisions change, and a put that is too late when they have changed back. -/
theorem tickets_fence_backAndForth :
    (((({ limits := {} } : RevisionedCache Nat).execute (backAndForth.take 3)).get
      (lit "input") 1 0).2 = some 7 ∧
      StoredBy ({ limits := {} } : RevisionedCache Nat) (backAndForth.take 3) (lit "input") 1 7) ∧
    ((({ limits := {} } : RevisionedCache Nat).execute backAndForth).put
      (lit "late") 1 (some 9) 8 clockMax 0).2 = false :=
  have hcreate : create Nat {} = .ok { limits := {} } := rfl
  ⟨⟨by decide, (tickets_fence hcreate (backAndForth.take 3)).1 _ _ 0 _ (by decide)⟩,
    ((tickets_fence hcreate backAndForth).2 (by decide) [] _ _ rfl (by decide)
      (lit "late") (some 9) 8 clockMax 0).1⟩

end Jevt.RevisionedCache
