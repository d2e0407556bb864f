import Mathlib.Data.List.Basic

/-!
# Regular expressions that backtrack

Regular expressions whose repetitions are those of a class of characters, matched by greedy
backtracking: `Regex.run` has what is left of a text behind each match of a prefix of it, in the
order in which the matches are tried. A prefix is matched when the language of the expression has
it (`mem_run_iff`). Which match is the first is followed along the expression (`Regex.Leads`).

`captureAt` is what a group captures in the first match at the start of a text, and `search` goes
through the suffixes of a text.
-/

namespace Jevt.Library

variable {α β : Type*}

/-- Regular expressions; a repetition and an option prefer to take more. -/
inductive Regex (α : Type*) where
  | empty
  | char (p : α → Bool)
  | many (p : α → Bool)
  | opt (r : Regex α)
  | seq (r s : Regex α)

/-- What is left behind each number of characters of a class, the most first. -/
def manyRests (p : α → Bool) : List α → List (List α)
  | [] => [[]]
  | a :: l => if p a then manyRests p l ++ [a :: l] else [a :: l]

namespace Regex

/-- What is left of a text behind each match, in the order in which they are tried. -/
def run : Regex α → List α → List (List α)
  | empty, l => [l]
  | char _, [] => []
  | char p, a :: l => if p a then [l] else []
  | many p, l => manyRests p l
  | opt r, l => r.run l ++ [l]
  | seq r s, l => (r.run l).flatMap s.run

section
variable (p : α → Bool) (r s : Regex α) (a : α) (l : List α)

/-- The rests behind repetitions that start with a letter. -/
theorem manyRests_cons :
    manyRests p (a :: l) = if p a then manyRests p l ++ [a :: l] else [a :: l] :=
  rfl

/-- The rest behind a letter. -/
theorem run_char_cons : (char p).run (a :: l) = if p a then [l] else [] :=
  rfl

/-- The rests behind repetitions. -/
theorem run_many : (many p).run l = manyRests p l :=
  rfl

/-- The rests behind an option. -/
theorem run_opt : (opt r).run l = r.run l ++ [l] :=
  rfl

/-- The rests behind a sequence. -/
theorem run_seq : (seq r s).run l = (r.run l).flatMap s.run :=
  rfl

end

/-- One or more characters of a class. -/
def plus (p : α → Bool) : Regex α :=
  seq (char p) (many p)

/-- The texts an expression stands for. -/
def Accepts : Regex α → List α → Prop
  | empty, w => w = []
  | char p, w => ∃ a, w = [a] ∧ p a = true
  | many p, w => ∀ a ∈ w, p a = true
  | opt r, w => r.Accepts w ∨ w = []
  | seq r s, w => ∃ u v, w = u ++ v ∧ r.Accepts u ∧ s.Accepts v

/-- A repetition takes any number of characters of its class. -/
theorem mem_manyRests_iff {p : α → Bool} {l m : List α} :
    m ∈ manyRests p l ↔ ∃ w, l = w ++ m ∧ ∀ a ∈ w, p a = true := by
  induction l generalizing m with
  | nil =>
    show m ∈ [[]] ↔ _
    rw [List.mem_singleton]
    constructor
    · rintro rfl
      exact ⟨[], rfl, fun _ ha => nomatch ha⟩
    · rintro ⟨w, hw, -⟩
      exact (List.append_eq_nil_iff.1 hw.symm).2
  | cons b l ih =>
    have hstay : (∃ w, b :: l = w ++ m ∧ ∀ a ∈ w, p a = true) ↔
        m = b :: l ∨ p b = true ∧ ∃ w, l = w ++ m ∧ ∀ a ∈ w, p a = true := by
      constructor
      · rintro ⟨w, hw, hall⟩
        cases w with
        | nil => exact .inl hw.symm
        | cons c w =>
          obtain ⟨rfl, rfl⟩ := List.cons.inj hw
          obtain ⟨hb, hrest⟩ := List.forall_mem_cons.1 hall
          exact .inr ⟨hb, w, rfl, hrest⟩
      · rintro (rfl | ⟨hb, w, rfl, hall⟩)
        · exact ⟨[], rfl, fun _ ha => nomatch ha⟩
        · exact ⟨b :: w, rfl, List.forall_mem_cons.2 ⟨hb, hall⟩⟩
    rw [hstay, manyRests_cons]
    split
    · next hb => rw [List.mem_append, List.mem_singleton, ih, or_comm, and_iff_right hb]
    · next hb => rw [List.mem_singleton, or_iff_left fun h => hb h.1]

/-- **A prefix is matched when the language of the expression has it.** -/
theorem mem_run_iff {r : Regex α} {l m : List α} :
    m ∈ r.run l ↔ ∃ w, l = w ++ m ∧ r.Accepts w := by
  induction r generalizing l m with
  | empty =>
    show m ∈ [l] ↔ _
    rw [List.mem_singleton]
    constructor
    · rintro rfl
      exact ⟨[], rfl, rfl⟩
    · rintro ⟨w, hl, rfl⟩
      exact hl.symm
  | char p =>
    cases l with
    | nil =>
      constructor
      · intro h
        cases h
      · rintro ⟨w, hl, a, rfl, -⟩
        cases hl
    | cons b l =>
      rw [run_char_cons]
      constructor
      · intro h
        split at h
        · next hb =>
          obtain rfl := List.mem_singleton.1 h
          exact ⟨[b], rfl, b, rfl, hb⟩
        · cases h
      · rintro ⟨w, hl, a, rfl, ha⟩
        obtain ⟨rfl, rfl⟩ := List.cons.inj hl
        rw [if_pos ha]
        exact List.mem_singleton.2 rfl
  | many p => exact mem_manyRests_iff
  | opt r ih =>
    rw [run_opt, List.mem_append, List.mem_singleton, ih]
    constructor
    · rintro (⟨w, hl, hw⟩ | rfl)
      · exact ⟨w, hl, .inl hw⟩
      · exact ⟨[], rfl, .inr rfl⟩
    · rintro ⟨w, hl, hw | rfl⟩
      · exact .inl ⟨w, hl, hw⟩
      · exact .inr hl.symm
  | seq r s ihr ihs =>
    rw [run_seq, List.mem_flatMap]
    constructor
    · rintro ⟨k, hk, hm⟩
      obtain ⟨u, rfl, hu⟩ := ihr.1 hk
      obtain ⟨v, rfl, hv⟩ := ihs.1 hm
      exact ⟨u ++ v, (List.append_assoc u v m).symm, u, v, rfl, hu, hv⟩
    · rintro ⟨w, rfl, u, v, rfl, hu, hv⟩
      exact ⟨v ++ m, ihr.2 ⟨u, List.append_assoc u v m, hu⟩, ihs.2 ⟨v, rfl, hv⟩⟩

/-- Nothing is matched when no prefix is in the language. -/
theorem run_eq_nil_iff {r : Regex α} {l : List α} :
    r.run l = [] ↔ ∀ w m, l = w ++ m → ¬r.Accepts w := by
  rw [List.eq_nil_iff_forall_not_mem]
  constructor
  · rintro h w m rfl hw
    exact h m (mem_run_iff.2 ⟨w, rfl, hw⟩)
  · intro h m hm
    obtain ⟨w, hl, hw⟩ := mem_run_iff.1 hm
    exact h w m hl hw

/-- Whether a text is in the language is decided by its matches. -/
instance [DecidableEq α] (r : Regex α) (w : List α) : Decidable (r.Accepts w) :=
  decidable_of_iff ([] ∈ r.run w) (by
    rw [mem_run_iff]
    constructor
    · rintro ⟨v, rfl, hv⟩
      rwa [List.append_nil]
    · exact fun hw => ⟨w, (List.append_nil w).symm, hw⟩)

/-- A character is not matched where the text has another. -/
theorem run_char_eq_nil {p : α → Bool} {l : List α} (h : ∀ a ∈ l.head?, p a = false) :
    (char p).run l = [] := by
  cases l with
  | nil => rfl
  | cons a l =>
    have ha := h a rfl
    rw [run_char_cons, if_neg (by rw [ha]; exact Bool.false_ne_true)]

/-- A sequence is not matched where its first part is not. -/
theorem run_seq_eq_nil {r : Regex α} {l : List α} (h : r.run l = []) (s : Regex α) :
    (seq r s).run l = [] := by
  rw [run_seq, h, List.flatMap_nil]

/-! ## The first match -/

/-- The first match of an expression leaves a rest. -/
def Leads (r : Regex α) (l m : List α) : Prop :=
  (r.run l).head? = some m

/-- The first match of a character takes it. -/
theorem leads_char {p : α → Bool} {a : α} (h : p a = true) (l : List α) :
    Leads (char p) (a :: l) l := by
  rw [Leads, run_char_cons, if_pos h, List.head?_cons]

/-- The first match of a repetition takes all characters of its class. -/
theorem leads_many {p : α → Bool} {w : List α} (hw : ∀ a ∈ w, p a = true) {rest : List α}
    (hrest : ∀ a ∈ rest.head?, p a = false) : Leads (many p) (w ++ rest) rest := by
  induction w with
  | nil =>
    cases rest with
    | nil => rfl
    | cons b rest =>
      have hb := hrest b rfl
      rw [Leads, run_many, List.nil_append, manyRests_cons,
        if_neg (by rw [hb]; exact Bool.false_ne_true), List.head?_cons]
  | cons b w ih =>
    obtain ⟨hb, hw⟩ := List.forall_mem_cons.1 hw
    have hlead : (manyRests p (w ++ rest)).head? = some rest := ih hw
    rw [Leads, run_many, List.cons_append, manyRests_cons, if_pos hb, List.head?_append, hlead,
      Option.some_or]

/-- The first match of a repetition of at least one takes all characters of its class. -/
theorem leads_plus {p : α → Bool} {w : List α} (hne : w ≠ []) (hw : ∀ a ∈ w, p a = true)
    {rest : List α} (hrest : ∀ a ∈ rest.head?, p a = false) : Leads (plus p) (w ++ rest) rest := by
  cases w with
  | nil => exact absurd rfl hne
  | cons b w =>
    obtain ⟨hb, hw⟩ := List.forall_mem_cons.1 hw
    have hmany : (manyRests p (w ++ rest)).head? = some rest := leads_many hw hrest
    rw [Leads, plus, run_seq, List.cons_append, run_char_cons, if_pos hb, List.flatMap_singleton]
    exact hmany

/-- The first match of a sequence is made of the first matches of its parts. -/
theorem Leads.seq {r s : Regex α} {l m n : List α} (hr : Leads r l m) (hs : Leads s m n) :
    Leads (seq r s) l n := by
  obtain ⟨rest, hrun⟩ := List.head?_eq_some_iff.1 hr
  have hfirst : (s.run m).head? = some n := hs
  rw [Leads, run_seq, hrun, List.flatMap_cons, List.head?_append, hfirst, Option.some_or]

/-- An option is taken where it can be. -/
theorem Leads.opt {r : Regex α} {l m : List α} (h : Leads r l m) : Leads (opt r) l m := by
  have hfirst : (r.run l).head? = some m := h
  rw [Leads, run_opt, List.head?_append, hfirst, Option.some_or]

/-- An option is left out where it cannot be taken. -/
theorem leads_opt_of_nil {r : Regex α} {l : List α} (h : r.run l = []) : Leads (opt r) l l := by
  rw [Leads, run_opt, h, List.nil_append, List.head?_cons]

end Regex

/-! ## Captures and searches -/

/-- What a group captures in the first match at the start of a text. -/
def captureAt (before group after : Regex α) (l : List α) : Option (List α) :=
  ((before.run l).flatMap fun m => (group.run m).filterMap fun n =>
    if (after.run n).isEmpty then none else some (m.take (m.length - n.length))).head?

/-- The result at the first suffix of a text that has one. -/
def search (f : List α → Option β) : List α → Option β
  | [] => f []
  | a :: l => (f (a :: l)).or (search f l)

/-- Nothing is captured where what is before the group does not match. -/
theorem captureAt_eq_none {before group after : Regex α} {l : List α} (h : before.run l = []) :
    captureAt before group after l = none := by
  rw [captureAt, h, List.flatMap_nil, List.head?_nil]

/-- The first matches of the parts capture what is between them. -/
theorem captureAt_of_leads {before group after : Regex α} {l w n : List α}
    (hbefore : before.Leads l (w ++ n)) (hgroup : group.Leads (w ++ n) n)
    (hafter : after.run n ≠ []) : captureAt before group after l = some w := by
  obtain ⟨ms, hms⟩ := List.head?_eq_some_iff.1 hbefore
  obtain ⟨ns, hns⟩ := List.head?_eq_some_iff.1 hgroup
  have hcaptured : (w ++ n).take ((w ++ n).length - n.length) = w := by
    rw [List.length_append, Nat.add_sub_cancel, List.take_left]
  have hnonempty : ¬(after.run n).isEmpty = true := fun h => hafter (List.isEmpty_iff.1 h)
  rw [captureAt, hms, List.flatMap_cons, hns, List.filterMap_cons, if_neg hnonempty, hcaptured]
  rfl

/-- A search ends where there is a result. -/
theorem search_of_eq_some {f : List α → Option β} {l : List α} {b : β} (h : f l = some b) :
    search f l = some b := by
  cases l with
  | nil => exact h
  | cons a l => rw [search, h, Option.some_or]

/-- A search goes on where there is none. -/
theorem search_cons_of_none {f : List α → Option β} {a : α} {l : List α} (h : f (a :: l) = none) :
    search f (a :: l) = search f l := by
  rw [search, h, Option.none_or]

/-- A search skips characters at which no result starts. -/
theorem search_append {f : List α → Option β} {w : List α}
    (h : ∀ a ∈ w, ∀ l, f (a :: l) = none) (rest : List α) :
    search f (w ++ rest) = search f rest := by
  induction w with
  | nil => rfl
  | cons a w ih =>
    obtain ⟨ha, hw⟩ := List.forall_mem_cons.1 h
    rw [List.cons_append, search_cons_of_none (ha _), ih hw]

end Jevt.Library
