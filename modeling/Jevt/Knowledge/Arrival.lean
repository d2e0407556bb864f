import Mathlib.Data.List.Pairwise
import Jevt.Library.LastWriter
import Jevt.Knowledge.Reachable

/-!
# Out-of-order arrival

As long as nothing is evicted, the active versions of a graph are a map of last-writer-wins
registers, one for each proposition: `register g ι` is the tick, the labels, the value and the
expiry of the active version of the proposition with identity key `ι`, and an accepted or stale
ingest writes its own stamp to the register of its proposition and to no other
(`Arriving.register_ingestRecord`). The order in which facts of distinct ticks arrive therefore
does not matter (`arrival_order_irrelevant`).

The events of the facts must be new to the graph. A graph without facts need not have an empty
event window: restoring an empty session removes every session fact but forgets no event, and a
fact that repeats such an event is refused (`arrival_after_restore_refused`).
-/

namespace Jevt.KnowledgeGraph

open Library

variable {g : KnowledgeGraph} {fact f : KnowledgeFact}

/-- `f` is stored and not superseded. -/
def IsActive (g : KnowledgeGraph) (f : KnowledgeFact) : Prop :=
  f ∈ g.facts ∧ f.key ∉ g.superseded

/-- What a proposition currently says: the part of a fact that `query` ranks and presents. -/
def stamp (f : KnowledgeFact) : Nat × Bytes × Bytes × Bytes × Option Nat :=
  (f.tick, f.subject, f.relation, f.object, f.expiresAt)

/-- The register of a proposition: the stamp of its active version. -/
def register (g : KnowledgeGraph) (ι : Bytes) : Option (Nat × Bytes × Bytes × Bytes × Option Nat) :=
  (g.facts.find? fun f => f.identityKey = ι && decide (f.key ∉ g.superseded)).map stamp

/-- In a consistent graph the register holds the stamp of the one active version. -/
theorem Consistent.register_eq_some (h : g.Consistent) {ι : Bytes} (hf : g.IsActive f)
    (hid : f.identityKey = ι) : g.register ι = some (stamp f) := by
  unfold register
  cases hfind : g.facts.find? fun f => f.identityKey = ι && decide (f.key ∉ g.superseded) with
  | none =>
    have hnone := List.find?_eq_none.1 hfind f hf.1
    simp [hid, hf.2] at hnone
  | some f' =>
    have hf' := List.mem_of_find?_eq_some hfind
    have hcond := List.find?_some hfind
    simp only [Bool.and_eq_true, decide_eq_true_eq] at hcond
    rw [h.store.active f hf.1 f' hf' (hcond.1.trans hid.symm) hf.2 hcond.2]
    rfl

/-- A register with a value belongs to an active version. -/
theorem exists_of_register_eq_some {ι : Bytes} {s : Nat × Bytes × Bytes × Bytes × Option Nat}
    (h : g.register ι = some s) : ∃ f, g.IsActive f ∧ f.identityKey = ι ∧ stamp f = s := by
  obtain ⟨f, hfind, hs⟩ := Option.map_eq_some_iff.1 h
  have hcond := List.find?_some hfind
  simp only [Bool.and_eq_true, decide_eq_true_eq] at hcond
  exact ⟨f, ⟨List.mem_of_find?_eq_some hfind, hcond.2⟩, hcond.1, hs⟩

/-- An empty register has no active version. -/
theorem not_isActive_of_register_eq_none {ι : Bytes} (h : g.register ι = none)
    (hid : f.identityKey = ι) : ¬ g.IsActive f := by
  rintro ⟨hf, hact⟩
  have hnone := List.find?_eq_none.1 (Option.map_eq_none_iff.1 h) f hf
  simp [hid, hact] at hnone

/-- The register is determined by the active versions of the proposition. -/
theorem register_congr {g' : KnowledgeGraph} (h' : g'.Consistent) {ι : Bytes}
    (heq : ∀ f, f.identityKey = ι → (g'.IsActive f ↔ g.IsActive f)) :
    g'.register ι = g.register ι := by
  cases hreg : g.register ι with
  | some s =>
    obtain ⟨f, hf, hid, rfl⟩ := exists_of_register_eq_some hreg
    exact h'.register_eq_some ((heq f hid).2 hf) hid
  | none =>
    cases hreg' : g'.register ι with
    | none => rfl
    | some s =>
      obtain ⟨f, hf, hid, -⟩ := exists_of_register_eq_some hreg'
      exact absurd ((heq f hid).1 hf) (not_isActive_of_register_eq_none hreg hid)

/-! ## Storing a version where there is room -/

/-- Below capacity no room has to be made. -/
theorem makeRoom_of_lt (h : g.facts.length < g.limits.facts) : g.makeRoom = g :=
  if_neg (Nat.ne_of_lt h)

/-- The stored facts after a version was stored where there is room: the fact itself is there or
updates the version it repeats, and every fact of another version is there as before. -/
theorem Consistent.storeVersion_facts (h : g.Consistent) (hroom : g.facts.length < g.limits.facts)
    (hvalid : ValidFact g.limits fact) :
    (∃ x ∈ (g.storeVersion fact).1.facts, x.key = fact.key ∧ x.identityKey = fact.identityKey ∧
      stamp x = stamp fact) ∧
    (∀ x, x.key ≠ fact.key → (x ∈ (g.storeVersion fact).1.facts ↔ x ∈ g.facts)) ∧
    (g.storeVersion fact).1.facts.length ≤ g.facts.length + 1 := by
  rcases storeVersion_cases g fact with ⟨i, previous, hi, hkey, heq⟩ | ⟨hnone, heq⟩
  · have hmap := modify_eq_map h.store.keys hi (refresh · fact)
    rw [hkey] at hmap
    have hprev : previous ∈ g.facts := List.mem_of_getElem? hi
    obtain ⟨hid, hsubject, hrelation, hobject⟩ :=
      ((h.store.valid previous hprev).key_inj hvalid).1 hkey
    rw [heq]
    refine ⟨⟨refresh previous fact, ?_, ?_, ?_, ?_⟩, fun x hx => ?_, ?_⟩
    · show _ ∈ g.facts.modify i (refresh · fact)
      rw [hmap]
      exact List.mem_map.2 ⟨previous, hprev, if_pos hkey⟩
    · rw [refresh_key, hkey]
    · rw [refresh_identityKey, hid]
    · simp only [stamp, refresh_tick, refresh_expiresAt, refresh_subject, refresh_relation,
        refresh_object, hsubject, hrelation, hobject]
    · show x ∈ g.facts.modify i (refresh · fact) ↔ _
      rw [hmap, List.mem_map]
      constructor
      · rintro ⟨y, hy, rfl⟩
        split at hx
        · next hy' => exact absurd ((refresh_key y fact).trans hy') hx
        · next hy' => rwa [if_neg hy']
      · intro hxmem
        exact ⟨x, hxmem, if_neg hx⟩
    · show (g.facts.modify i (refresh · fact)).length ≤ _
      rw [List.length_modify]
      omega
  · rw [heq, makeRoom_of_lt (g := { g with superseded := (g.scanVersions fact).1 }) hroom]
    refine ⟨⟨fact, by simp [append], rfl, rfl, rfl⟩, fun x hx => ?_, ?_⟩
    · simp only [append, List.mem_append, List.mem_singleton]
      exact or_iff_left fun hxf => hx (hxf ▸ rfl)
    · simp only [append, List.length_append, List.length_singleton, Nat.le_refl]

/-- The marks after a version was stored where there is room. -/
theorem Consistent.storeVersion_superseded (h : g.Consistent)
    (hroom : g.facts.length < g.limits.facts) (hvalid : ValidFact g.limits fact) {k : Bytes} :
    k ∈ (g.storeVersion fact).1.superseded ↔ k ≠ fact.key ∧ (k ∈ g.superseded ∨
      ∃ f ∈ g.facts, f.identityKey = fact.identityKey ∧ f.key = k) := by
  have hscan : k ∈ (g.scanVersions fact).1 ↔ k ∈ g.superseded ∨
      ∃ f ∈ g.facts, f.identityKey = fact.identityKey ∧ f.key ≠ fact.key ∧ f.key = k :=
    mem_scanVersions_fst
  rcases storeVersion_cases g fact with ⟨i, previous, hi, hkey, heq⟩ | ⟨hnone, heq⟩
  · rw [heq, reactivate, Finset.mem_erase, hscan]
    refine and_congr_right fun hk => or_congr_right ?_
    constructor
    · rintro ⟨f, hf, hid, -, rfl⟩
      exact ⟨f, hf, hid, rfl⟩
    · rintro ⟨f, hf, hid, rfl⟩
      exact ⟨f, hf, hid, hk, rfl⟩
  · rw [heq, makeRoom_of_lt (g := { g with superseded := (g.scanVersions fact).1 }) hroom, append,
      hscan]
    constructor
    · rintro (hk | ⟨f, hf, hid, hne, rfl⟩)
      · obtain ⟨f, hf, rfl⟩ := h.store.marks k hk
        refine ⟨fun hkey => ?_, .inl hk⟩
        exact hnone f hf ((h.store.valid f hf).identityKey_eq_of_key_eq hvalid hkey) hkey
      · exact ⟨hne, .inr ⟨f, hf, hid, rfl⟩⟩
    · rintro ⟨hne, hk | ⟨f, hf, hid, rfl⟩⟩
      · exact .inl hk
      · exact .inr ⟨f, hf, hid, hne, rfl⟩

/-- What storing a version does to the active versions, where there is room: those of the other
propositions stay, and the proposition of the fact gets the stamp of the fact. -/
theorem Consistent.storeVersion_isActive (h : g.Consistent)
    (hroom : g.facts.length < g.limits.facts) (hvalid : ValidFact g.limits fact)
    (hrun : fact.scope ≠ .session → fact.runId = g.currentRun)
    (hfresh : ∀ f ∈ g.facts, f.identityKey = fact.identityKey → f.tick ≤ fact.tick) :
    (∃ x, (g.storeVersion fact).1.IsActive x ∧ x.identityKey = fact.identityKey ∧
      stamp x = stamp fact) ∧
    ∀ x, x.identityKey ≠ fact.identityKey →
      ((g.storeVersion fact).1.IsActive x ↔ g.IsActive x) := by
  obtain ⟨⟨x, hx, hkey, hid, hstamp⟩, hothers, -⟩ := h.storeVersion_facts hroom hvalid
  constructor
  · refine ⟨x, ⟨hx, fun hk => ?_⟩, hid, hstamp⟩
    exact ((h.storeVersion_superseded hroom hvalid).1 hk).1 hkey
  · intro y hy
    unfold IsActive
    constructor
    · rintro ⟨hmem, hact⟩
      by_cases hyk : y.key = fact.key
      · -- the version the fact updates has its identity
        have hkeys := (store_storeVersion h.positive.1 h.store hvalid hrun hfresh).keys
        obtain rfl := eq_of_key_eq hkeys hmem hx (hyk.trans hkey.symm)
        exact absurd hid hy
      · refine ⟨(hothers y hyk).1 hmem, fun hk => hact ?_⟩
        exact (h.storeVersion_superseded hroom hvalid).2 ⟨hyk, .inl hk⟩
    · rintro ⟨hmem, hact⟩
      have hyk : y.key ≠ fact.key := fun heq =>
        hy ((h.store.valid y hmem).identityKey_eq_of_key_eq hvalid heq)
      refine ⟨(hothers y hyk).2 hmem, fun hk => ?_⟩
      obtain ⟨-, hk | ⟨f, hf, hidf, hkf⟩⟩ := (h.storeVersion_superseded hroom hvalid).1 hk
      · exact hact hk
      · exact hy (eq_of_key_eq h.store.keys hf hmem hkf ▸ hidf)

/-! ## The simulation -/

/-- Where nothing was evicted, every stored proposition has an active version. -/
structure Arriving (g : KnowledgeGraph) : Prop where
  consistent : g.Consistent
  covered : ∀ f ∈ g.facts, ∃ x, g.IsActive x ∧ x.identityKey = f.identityKey

/-- The facts that pass every check of `ingest_record` apart from the one on ticks. -/
structure Admissible (g : KnowledgeGraph) (fact : KnowledgeFact) : Prop where
  valid : ValidFact g.limits fact
  begun : g.currentRun ≠ []
  run : fact.runId = g.currentRun
  expiry : fact.scope = .observation → observationExpires fact = true
  event : eventKey fact ∉ g.seenEvents

/-- An admissible fact is acceptable, or older than a stored version of its proposition. -/
theorem Admissible.acceptable_or_stale (h : g.Admissible fact) :
    g.Acceptable fact ∨ ∃ f ∈ g.facts, f.identityKey = fact.identityKey ∧ fact.tick < f.tick := by
  by_cases hstale : ∃ f ∈ g.facts, f.identityKey = fact.identityKey ∧ fact.tick < f.tick
  · exact .inr hstale
  · refine .inl ⟨h.valid, .inr h.begun, fun _ => h.run, h.expiry, fun f hf hid => ?_, h.event⟩
    by_contra hlt
    exact hstale ⟨f, hf, hid, Nat.not_le.1 hlt⟩

/-- **An ingest is a write to one register.** Below capacity, an admissible fact writes its stamp
to the register of its proposition, and no other register changes. -/
theorem Arriving.register_ingestRecord (h : g.Arriving) (hroom : g.facts.length < g.limits.facts)
    (hadm : g.Admissible fact) :
    (g.ingestRecord fact).1.Arriving ∧
    ∀ ι, (g.ingestRecord fact).1.register ι =
      if ι = fact.identityKey then write (g.register ι) (stamp fact) else g.register ι := by
  rcases hadm.acceptable_or_stale with hacc | ⟨f, hf, hid, hlt⟩
  · have hcons := h.consistent.ingestRecord fact
    rw [ingestRecord_of_acceptable hacc] at hcons ⊢
    have hrec : (g.recordEvent fact).Consistent :=
      ⟨h.consistent.positive, h.consistent.store, h.consistent.window.record hacc.event⟩
    obtain ⟨⟨x, hx, hxid, hxs⟩, hothers⟩ :=
      hrec.storeVersion_isActive hroom hacc.valid hacc.run hacc.fresh
    obtain ⟨-, hfacts, -⟩ := hrec.storeVersion_facts hroom hacc.valid
    refine ⟨⟨hcons, fun f hf => ?_⟩, fun ι => ?_⟩
    · by_cases hid : f.identityKey = fact.identityKey
      · exact ⟨x, hx, hxid.trans hid.symm⟩
      · have hfk : f.key ≠ fact.key := fun heq =>
          hid ((hcons.store.valid f hf).identityKey_eq_of_key_eq
            ((storeVersion_frame (g.recordEvent fact) fact).1 ▸ hacc.valid) heq)
        obtain ⟨y, hy, hyid⟩ := h.covered f ((hfacts f hfk).1 hf)
        exact ⟨y, (hothers y fun heq => hid (hyid.symm.trans heq)).2 hy, hyid⟩
    · split
      · next hι =>
        subst hι
        rw [hcons.register_eq_some hx hxid, hxs, write_of_le]
        intro c hc
        obtain ⟨y, hy, hyid, rfl⟩ := exists_of_register_eq_some hc
        exact hacc.fresh y hy.1 hyid
      · next hι =>
        exact register_congr hcons fun f hfid => hothers f (hfid ▸ hι)
  · have hrefused : g.refusal fact ≠ none := fun hnone =>
      absurd ((refusal_eq_none.1 hnone).fresh f hf hid) (Nat.not_le.2 hlt)
    obtain ⟨reason, hreason⟩ := Option.ne_none_iff_exists'.1 hrefused
    rw [ingestRecord_of_refusal hreason]
    refine ⟨h, fun ι => ?_⟩
    split
    · next hι =>
      obtain ⟨x, hx, hxid⟩ := h.covered f hf
      have hyoung : f.tick ≤ x.tick := h.consistent.store.latest x hx.1 f hf hxid.symm hx.2
      rw [h.consistent.register_eq_some hx (hxid.trans (hid.trans hι.symm)), write_of_lt]
      exact hlt.trans_le hyoung
    · rfl

/-! ## Runs of arrivals -/

/-- The entry point changes the evidence only. -/
theorem IngestPath.record_eq (path : IngestPath) (fact : KnowledgeFact) :
    (path.record fact).identityKey = fact.identityKey ∧
    stamp (path.record fact) = stamp fact ∧ eventKey (path.record fact) = eventKey fact ∧
    (path.record fact).runId = fact.runId ∧ (path.record fact).scope = fact.scope ∧
    (path.record fact).id = fact.id := by
  cases path <;> exact ⟨rfl, rfl, rfl, rfl, rfl, rfl⟩

/-- Cutting the window back remembers no event that was not recorded. -/
theorem mem_of_mem_trimEvents_snd {limit : Nat} {e : Bytes} :
    ∀ {order : List Bytes} {seen : Finset Bytes}, e ∈ (trimEvents limit order seen).2 → e ∈ seen
  | [], _, h => h
  | front :: rest, seen, h => by
      unfold trimEvents at h
      split at h
      · exact Finset.mem_of_mem_erase (mem_of_mem_trimEvents_snd h)
      · exact h

/-- What `ingest_record` leaves alone, and how far it can change the store and the window. -/
theorem Arriving.ingestRecord_frame (h : g.Arriving) (hroom : g.facts.length < g.limits.facts)
    (hadm : g.Admissible fact) :
    (g.ingestRecord fact).1.limits = g.limits ∧
    (g.ingestRecord fact).1.currentRun = g.currentRun ∧
    (g.ingestRecord fact).1.facts.length ≤ g.facts.length + 1 ∧
    ∀ e ∈ (g.ingestRecord fact).1.seenEvents, e = eventKey fact ∨ e ∈ g.seenEvents := by
  cases hrefusal : g.refusal fact with
  | some reason =>
    rw [ingestRecord_of_refusal hrefusal]
    exact ⟨rfl, rfl, Nat.le_succ _, fun e he => .inr he⟩
  | none =>
    have hacc := refusal_eq_none.1 hrefusal
    have hrec : (g.recordEvent fact).Consistent :=
      ⟨h.consistent.positive, h.consistent.store, h.consistent.window.record hacc.event⟩
    rw [ingestRecord_of_acceptable hacc]
    obtain ⟨hlimits, hrun, -, hseen, -⟩ := storeVersion_frame (g.recordEvent fact) fact
    refine ⟨hlimits, hrun, (hrec.storeVersion_facts hroom hadm.valid).2.2, fun e he => ?_⟩
    rw [hseen] at he
    exact Finset.mem_insert.1 (mem_of_mem_trimEvents_snd he)

/-- **Arrivals write to the registers.** A list of admissible facts that fits in the store and
repeats no event writes the stamps of each proposition to its register, in the order of
arrival. -/
theorem Arriving.register_foldl :
    ∀ {arrivals : List (IngestPath × KnowledgeFact)} {g : KnowledgeGraph}, g.Arriving →
      g.facts.length + arrivals.length ≤ g.limits.facts →
      (∀ a ∈ arrivals, a.1.Permitted a.2 ∧ g.Admissible (a.1.record a.2)) →
      (arrivals.map fun a => eventKey a.2).Nodup →
      (arrivals.foldl (fun g a => g.apply (a.1.op a.2)) g).Arriving ∧
      ∀ ι, (arrivals.foldl (fun g a => g.apply (a.1.op a.2)) g).register ι =
        ((arrivals.filter fun a => a.2.identityKey = ι).map fun a => stamp a.2).foldl write
          (g.register ι)
  | [], _, h, _, _, _ => ⟨h, fun _ => rfl⟩
  | (path, fact) :: rest, g, h, hlen, hadm, hevents => by
      rw [List.length_cons] at hlen
      obtain ⟨hnew, hevents⟩ := List.nodup_cons.1 (List.map_cons (f := fun a :
        IngestPath × KnowledgeFact => eventKey a.2) ▸ hevents)
      obtain ⟨hpermitted, hfact⟩ := hadm (path, fact) List.mem_cons_self
      obtain ⟨hid, hstamp, hevent, -⟩ := path.record_eq fact
      obtain ⟨hstep, hregister⟩ := h.register_ingestRecord (by omega) hfact
      obtain ⟨hlimits, hrun, hcount, hseen⟩ := h.ingestRecord_frame (by omega) hfact
      have hrest : ∀ a ∈ rest, a.1.Permitted a.2 ∧
          (g.ingestRecord (path.record fact)).1.Admissible (a.1.record a.2) := by
        intro a ha
        obtain ⟨hp, hok⟩ := hadm a (List.mem_cons_of_mem _ ha)
        refine ⟨hp, hlimits ▸ hok.valid, hrun ▸ hok.begun, hrun ▸ hok.run, hok.expiry, fun he => ?_⟩
        rcases hseen _ he with heq | he
        · rw [hevent, (a.1.record_eq a.2).2.2.1] at heq
          exact hnew (List.mem_map.2 ⟨a, ha, heq⟩)
        · exact hok.event he
      obtain ⟨hfinal, hwrites⟩ :=
        Arriving.register_foldl hstep (by rw [hlimits]; omega) hrest hevents
      rw [List.foldl_cons, apply_op hpermitted]
      refine ⟨hfinal, fun ι => ?_⟩
      rw [hwrites, hregister, hid, hstamp, List.filter_cons]
      by_cases hι : fact.identityKey = ι
      · simp only [hι, decide_true, if_true, List.map_cons, List.foldl_cons]
      · simp only [hι, decide_false, Bool.false_eq_true, if_false, if_neg (Ne.symm hι)]

/-- Two facts are versions of one proposition: they have one run, scope and stable identifier. -/
def SameProposition (f h : KnowledgeFact) : Prop :=
  f.runId = h.runId ∧ f.scope = h.scope ∧ f.id = h.id

/-- A fact that may arrive in the state `g`, as its entry point records it: valid, of the current
run, with an expiry where one is needed, and new to the event window. -/
structure Arrives (g : KnowledgeGraph) (path : IngestPath) (fact : KnowledgeFact) : Prop where
  permitted : path.Permitted fact
  valid : ValidFact g.limits (path.record fact)
  run : fact.runId = g.currentRun
  expiry : fact.scope = .observation → observationExpires fact = true
  event : eventKey fact ∉ g.seenEvents

/-- A fact that arrives in a begun run is admissible. -/
theorem Arrives.admissible {path : IngestPath} (hbegun : g.currentRun ≠ [])
    (h : g.Arrives path fact) : g.Admissible (path.record fact) := by
  obtain ⟨-, hstamp, hevent, hrun, hscope, -⟩ := path.record_eq fact
  have hexpires : (path.record fact).expiresAt = fact.expiresAt :=
    congrArg (fun s => s.2.2.2.2) hstamp
  have htick : (path.record fact).tick = fact.tick := congrArg Prod.fst hstamp
  refine ⟨h.valid, hbegun, hrun.trans h.run, fun ho => ?_, hevent ▸ h.event⟩
  have hok := h.expiry (hscope ▸ ho)
  unfold observationExpires at hok ⊢
  rwa [hexpires, htick]

/-- Arriving facts are versions of one proposition when their identity keys agree. -/
theorem Arrives.identityKey_inj {path path' : IngestPath} (h : g.Arrives path fact)
    (h' : g.Arrives path' f) : fact.identityKey = f.identityKey ↔ SameProposition fact f := by
  obtain ⟨hid, -, -, hrun, hscope, hfid⟩ := path.record_eq fact
  obtain ⟨hid', -, -, hrun', hscope', hfid'⟩ := path'.record_eq f
  rw [← hid, ← hid', h.valid.identityKey_inj h'.valid, hrun, hscope, hfid, hrun', hscope', hfid']
  rfl

/-- A valid fact is a version of the proposition of an arriving fact when their identity keys
agree. -/
theorem Arrives.identityKey_eq_iff {path : IngestPath} (h : g.Arrives path fact)
    (hf : ValidFact g.limits f) : f.identityKey = fact.identityKey ↔ SameProposition f fact := by
  obtain ⟨hid, -, -, hrun, hscope, hfid⟩ := path.record_eq fact
  rw [← hid, hf.identityKey_inj h.valid, hrun, hscope, hfid]
  rfl

section Arrivals

variable {arrivals order : List (IngestPath × KnowledgeFact)}

/-- Ingesting facts does not change the limits. -/
theorem limits_foldl (g : KnowledgeGraph) (order : List (IngestPath × KnowledgeFact)) :
    (order.foldl (fun g a => g.apply (a.1.op a.2)) g).limits = g.limits := by
  have hrun : Run step g (order.map fun a => a.1.op a.2)
      (order.foldl (fun g a => g.apply (a.1.op a.2)) g) := by
    have hops := run_foldl g (order.map fun a => a.1.op a.2)
    rwa [List.foldl_map] at hops
  exact Run.invariant (I := fun k => k.limits = g.limits) (P := fun _ => True)
    (fun s op t hs _ hstep => (Option.some.inj hstep ▸ apply_limits s op).trans hs)
    (fun _ _ => trivial) rfl hrun

/-- Arriving facts with distinct events have distinct event keys, in every order. -/
theorem nodup_eventKeys (harrives : ∀ a ∈ arrivals, g.Arrives a.1 a.2)
    (hevents : (arrivals.map fun a => a.2.eventId).Nodup) (horder : order.Perm arrivals) :
    (order.map fun a => eventKey a.2).Nodup := by
  have hnodup : order.Nodup := horder.nodup_iff.2 hevents.of_map
  refine hnodup.map_on fun a ha b hb heq => ?_
  have ha' := horder.mem_iff.1 ha
  have hb' := horder.mem_iff.1 hb
  have hid : a.2.eventId = b.2.eventId := by
    unfold eventKey at heq
    rw [(harrives a ha').run, (harrives b hb').run] at heq
    exact List.append_cancel_left heq
  exact List.inj_on_of_nodup_map hevents ha' hb' hid

/-- The youngest of the arriving versions of a proposition has a younger tick than all others. -/
theorem tick_lt_of_youngest (harrives : ∀ a ∈ arrivals, g.Arrives a.1 a.2)
    (hticks : arrivals.Pairwise fun a b => SameProposition a.2 b.2 → a.2.tick ≠ b.2.tick)
    {a b : IngestPath × KnowledgeFact} (ha : a ∈ arrivals) (hb : b ∈ arrivals)
    (hmax : ∀ b ∈ arrivals, SameProposition b.2 a.2 → b.2.tick ≤ a.2.tick)
    (hid : b.2.identityKey = a.2.identityKey) (hne : stamp b.2 ≠ stamp a.2) :
    b.2.tick < a.2.tick := by
  have hprop := ((harrives b hb).identityKey_inj (harrives a ha)).1 hid
  refine lt_of_le_of_ne (hmax b hb hprop) fun htick => ?_
  have hba : b ≠ a := fun heq => hne (heq ▸ rfl)
  have hsymm : Std.Symm (α := IngestPath × KnowledgeFact) fun a b =>
      SameProposition a.2 b.2 → a.2.tick ≠ b.2.tick :=
    ⟨fun c d hcd hdc heq =>
      hcd ⟨hdc.1.symm, hdc.2.1.symm, hdc.2.2.symm⟩ heq.symm⟩
  exact hticks.forall hb ha hba hprop htick

end Arrivals

/-- **The order of arrival does not matter.** Let a reachable graph have a run and no facts, and
let a list of facts of that run fit in it, repeat no event, not even one of the window, and give
the versions of a proposition distinct ticks. In whatever order they are ingested, each proposition
of the list ends up with exactly one active version, which says what the youngest fact of the
proposition says; and nothing else is stored. -/
theorem arrival_order_irrelevant {limits : KnowledgeLimits} (hg : IsReachable limits g)
    (hbegun : g.currentRun ≠ []) (hempty : g.facts = [])
    {arrivals : List (IngestPath × KnowledgeFact)} (harrives : ∀ a ∈ arrivals, g.Arrives a.1 a.2)
    (hcount : arrivals.length ≤ limits.facts) (hevents : (arrivals.map fun a => a.2.eventId).Nodup)
    (hticks : arrivals.Pairwise fun a b => SameProposition a.2 b.2 → a.2.tick ≠ b.2.tick)
    {order : List (IngestPath × KnowledgeFact)} (horder : order.Perm arrivals) :
    (∀ a ∈ arrivals, (∀ b ∈ arrivals, SameProposition b.2 a.2 → b.2.tick ≤ a.2.tick) →
      ∃ x, (order.foldl (fun g a => g.apply (a.1.op a.2)) g).IsActive x ∧ SameProposition x a.2 ∧
        (∀ y, (order.foldl (fun g a => g.apply (a.1.op a.2)) g).IsActive y →
          SameProposition y a.2 → y = x) ∧
        x.subject = a.2.subject ∧ x.relation = a.2.relation ∧ x.object = a.2.object ∧
        x.tick = a.2.tick ∧ x.expiresAt = a.2.expiresAt) ∧
    ∀ x ∈ (order.foldl (fun g a => g.apply (a.1.op a.2)) g).facts,
      ∃ a ∈ arrivals, SameProposition x a.2 := by
  obtain ⟨hcons, rfl⟩ := hg.consistent
  have hmem : ∀ a, a ∈ order ↔ a ∈ arrivals := fun a => horder.mem_iff
  have hstart : g.Arriving := ⟨hcons, by simp [hempty]⟩
  obtain ⟨hfinal, hregister⟩ := hstart.register_foldl
    (by rw [hempty, List.length_nil, horder.length_eq, Nat.zero_add]; exact hcount)
    (fun a ha => ⟨(harrives a ((hmem a).1 ha)).permitted,
      (harrives a ((hmem a).1 ha)).admissible hbegun⟩) (nodup_eventKeys harrives hevents horder)
  have hlimits := limits_foldl g order
  set final := order.foldl (fun g a => g.apply (a.1.op a.2)) g with hfinal_def
  have hinit : ∀ ι, g.register ι = none := fun ι => by simp [register, hempty]
  have hsame : ∀ x ∈ final.facts, ∀ a ∈ arrivals,
      (x.identityKey = a.2.identityKey ↔ SameProposition x a.2) := fun x hx a ha =>
    (harrives a ha).identityKey_eq_iff (hlimits ▸ hfinal.consistent.store.valid x hx)
  constructor
  · intro a ha hmax
    have hyoungest : ∀ v ∈ (order.filter fun b => b.2.identityKey = a.2.identityKey).map
        (fun b => stamp b.2), v ≠ stamp a.2 → v.1 < (stamp a.2).1 := by
      intro v hv hne
      obtain ⟨b, hb, rfl⟩ := List.mem_map.1 hv
      obtain ⟨hb, hid⟩ := List.mem_filter.1 hb
      exact tick_lt_of_youngest harrives hticks ha ((hmem b).1 hb) hmax (by simpa using hid) hne
    have hwin : final.register a.2.identityKey = some (stamp a.2) := by
      rw [hregister, hinit]
      refine foldl_write_eq ?_ hyoungest (by simp)
      exact List.mem_map.2 ⟨a, List.mem_filter.2 ⟨(hmem a).2 ha, by simp⟩, rfl⟩
    obtain ⟨x, hx, hid, hstamp⟩ := exists_of_register_eq_some hwin
    have hstamp' := hstamp
    simp only [stamp, Prod.mk.injEq] at hstamp'
    refine ⟨x, hx, (hsame x hx.1 a ha).1 hid, fun y hy hprop => ?_, hstamp'.2.1, hstamp'.2.2.1,
      hstamp'.2.2.2.1, hstamp'.1, hstamp'.2.2.2.2⟩
    exact hfinal.consistent.store.active x hx.1 y hy.1
      (((hsame y hy.1 a ha).2 hprop).trans hid.symm) hx.2 hy.2
  · intro x hx
    obtain ⟨y, hy, hid⟩ := hfinal.covered x hx
    have hsome := hfinal.consistent.register_eq_some hy hid
    rw [hregister, hinit] at hsome
    cases hfilter : order.filter fun a => a.2.identityKey = x.identityKey with
    | nil =>
      rw [hfilter] at hsome
      cases hsome
    | cons a rest =>
      have ha : a ∈ order.filter fun a => a.2.identityKey = x.identityKey := by simp [hfilter]
      obtain ⟨ha, haid⟩ := List.mem_filter.1 ha
      exact ⟨a, (hmem a).1 ha, (hsame x hx a ((hmem a).1 ha)).1 ((of_decide_eq_true haid).symm)⟩

/-- A graph that has begun the run of `motionFact` and stores nothing. -/
def begunRun : KnowledgeGraph :=
  KnowledgeGraph.apply { limits := {} } (.beginRun (lit "run-1") true)

/-- The later of two observations is active though it arrives first. -/
theorem arrival_order_irrelevant_reversed :
    ∃ x, ([(IngestPath.ingestRamObservation, motionFact (lit "0.2 px/frame") (lit "event-b") 2),
        (IngestPath.ingest, motionFact (lit "0.8 px/frame") (lit "event-a") 1)].foldl
          (fun g a => g.apply (a.1.op a.2)) begunRun).IsActive x ∧ x.object = lit "0.2 px/frame" :=
  have hg : IsReachable {} begunRun := ⟨{ limits := {} }, rfl, _, run_foldl _ [_]⟩
  have hvalid : ∀ fact, begunRun.limits.validate begunRun.currentRun fact = none →
      ValidFact begunRun.limits fact := fun _ h => (KnowledgeLimits.validate_eq_none.1 h).1
  have harrives : ∀ a ∈ [(IngestPath.ingest, motionFact (lit "0.8 px/frame") (lit "event-a") 1),
      (IngestPath.ingestRamObservation, motionFact (lit "0.2 px/frame") (lit "event-b") 2)],
      begunRun.Arrives a.1 a.2 := by
    intro a ha
    simp only [List.mem_cons, List.not_mem_nil, or_false] at ha
    rcases ha with rfl | rfl
    · exact ⟨fun _ => rfl, hvalid _ (by decide), by decide, by decide, by decide⟩
    · exact ⟨nofun, hvalid _ (by decide), by decide, by decide, by decide⟩
  have hticks : [(IngestPath.ingest, motionFact (lit "0.8 px/frame") (lit "event-a") 1),
      (IngestPath.ingestRamObservation, motionFact (lit "0.2 px/frame") (lit "event-b") 2)].Pairwise
        fun a b => SameProposition a.2 b.2 → a.2.tick ≠ b.2.tick := by
    simp [motionFact]
  have ⟨x, hx, _, _, _, _, hobject, _⟩ :=
    (arrival_order_irrelevant hg (by decide) (by decide) harrives (by decide) (by decide) hticks
      (List.Perm.swap _ _ _)).1 _ (List.mem_cons_of_mem _ List.mem_cons_self)
        (by simp [motionFact])
  ⟨x, hx, hobject⟩

/-- A graph that has forgotten every fact but no event. -/
def restoredEmpty : KnowledgeGraph :=
  (begunRun.apply (.ingestRamObservation (motionFact (lit "0.8 px/frame") (lit "event-a") 1))).apply
    (.restoreSessionSnapshot [])

/-- Without facts, but with an event in its window, a graph refuses a valid fact of its run. -/
theorem arrival_after_restore_refused :
    restoredEmpty.currentRun ≠ [] ∧ restoredEmpty.facts = [] ∧
    restoredEmpty.limits.validate restoredEmpty.currentRun
      (motionFact (lit "0.2 px/frame") (lit "event-a") 2) = none ∧
    (motionFact (lit "0.2 px/frame") (lit "event-a") 2).runId = restoredEmpty.currentRun ∧
    ¬∃ x, (restoredEmpty.apply (IngestPath.ingest.op
      (motionFact (lit "0.2 px/frame") (lit "event-a") 2))).IsActive x := by
  have hfacts : (restoredEmpty.apply (IngestPath.ingest.op
      (motionFact (lit "0.2 px/frame") (lit "event-a") 2))).facts = [] := by decide
  refine ⟨by decide, by decide, by decide, by decide, ?_⟩
  rintro ⟨x, hx, -⟩
  rw [hfacts] at hx
  cases hx

end Jevt.KnowledgeGraph
