import Jevt.Experience.Moments
import Jevt.Library.Distinct
import Mathlib.Data.Set.List
import Mathlib.Tactic.Linarith

/-!
# The shadow estimator

`shadow_mean` of `include/jevt/experience.hpp`: the running mean of the observed values, clamped
between two bounds, as a candidate forecast. From the fifth accepted observation on, the candidate
and the prior forecast are scored against the value before the mean learns it, and a window has the
newest scores. The candidate is used in place of the prior while it does better in the window.

In arithmetic that does not round, the window is a function of the accepted observations
(`ShadowMean.Follows`): the score of each of them compares it with the mean of the ones before it
(`scored`). `shadow_mean_prequential` says so for every run, and what follows for the promotion.
-/

namespace Jevt.Experience

open Library

/-- `error_pair`. -/
structure ErrorPair where
  prior : Floating
  candidate : Floating
  deriving DecidableEq

/-- `shadow_mean`. -/
structure ShadowMean where
  observed : Moments := {}
  checks : List ErrorPair := []
  lower : Floating
  upper : Floating
  deriving DecidableEq

/-- The arguments of `observe`. -/
structure Observation where
  value : Floating
  prior : Floating
  admissible : Bool := true
  deriving DecidableEq

namespace ShadowMean

/-- `window`. -/
def window : Nat := 32

/-- The constructor. -/
def new (lower upper : Floating) : Except StdException ShadowMean :=
  if lower == .nan || upper == .nan || upper.lt lower then
    .error (.invalidArgument (lit "invalid shadow estimator bounds"))
  else .ok { lower, upper }

/-- `candidate`. -/
def candidate (s : ShadowMean) : Floating :=
  s.observed.mean.clamp s.lower s.upper

/-- Puts a score into the window. -/
def push (check : ErrorPair) (checks : List ErrorPair) : List ErrorPair :=
  if window < (checks ++ [check]).length then (checks ++ [check]).tail else checks ++ [check]

/-- `observe`. -/
def observe (arith : Arithmetic) (o : Observation) (s : ShadowMean) : Bool × ShadowMean :=
  if !o.admissible || !o.value.isFinite || !o.prior.isFinite then (false, s)
  else
    match s.observed.observe arith o.value with
    | (false, _) => (false, s)
    | (true, next) =>
      if 4 ≤ s.observed.samples then
        let check : ErrorPair :=
          { prior := (Floating.sub arith.double o.value o.prior).abs
            candidate := (Floating.sub arith.double o.value s.candidate).abs }
        if !check.prior.isFinite || !check.candidate.isFinite then (false, s)
        else (true, { s with observed := next, checks := push check s.checks })
      else (true, { s with observed := next })

/-- The mean of errors, as `prior_error` and `candidate_error` compute it. -/
def meanError (arith : Arithmetic) (errors : List Floating) : Floating :=
  let sum := errors.foldl (Floating.add arith.double) .zero
  if errors.isEmpty then .zero else Floating.div arith.double sum (arith.double errors.length)

/-- `prior_error`. -/
def priorError (arith : Arithmetic) (s : ShadowMean) : Floating :=
  meanError arith (s.checks.map ErrorPair.prior)

/-- `candidate_error`. -/
def candidateError (arith : Arithmetic) (s : ShadowMean) : Floating :=
  meanError arith (s.checks.map ErrorPair.candidate)

/-- `promoted`. -/
def promoted (arith : Arithmetic) (s : ShadowMean) : Bool :=
  let wins := s.checks.countP fun p => p.candidate.lt p.prior
  s.checks.length == window && decide (24 ≤ wins) &&
    (Floating.add arith.double (s.candidateError arith) (arith.double (1 / 1000000))).lt
      (Floating.mul arith.double (s.priorError arith) (arith.double (9 / 10)))

/-- `value_or`. -/
def valueOr (arith : Arithmetic) (prior : Floating) (s : ShadowMean) : Floating :=
  if s.promoted arith then s.candidate else prior

/-- A call of `observe` on an estimator with the observations that were accepted before. -/
def step (arith : Arithmetic) (state : ShadowMean × List Observation) (o : Observation) :
    ShadowMean × List Observation :=
  match state.1.observe arith o with
  | (true, s) => (s, state.2 ++ [o])
  | (false, s) => (s, state.2)

/-- Calls of `observe` on an estimator, with the observations it accepts. -/
def run (arith : Arithmetic) (s : ShadowMean) (observations : List Observation) :
    ShadowMean × List Observation :=
  observations.foldl (step arith) (s, [])

end ShadowMean

/-! ## Scores of a log -/

/-- An entry of a log as the arguments of a call. -/
def Observation.ofEntry (entry : ℚ × ℚ) : Observation :=
  ⟨.finite entry.1, .finite entry.2, true⟩

/-- The forecast that values seen so far support. -/
def forecast (lower upper : Floating) (earlier : List (ℚ × ℚ)) : Floating :=
  (Floating.finite (sampleMean (earlier.map Prod.fst))).clamp lower upper

/-- The score of a value and its prior, after the observations before it. -/
def score (lower upper : Floating) (earlier : List (ℚ × ℚ)) (entry : ℚ × ℚ) : ErrorPair where
  prior := .finite |entry.1 - entry.2|
  candidate := (Floating.sub .finite (.finite entry.1) (forecast lower upper earlier)).abs

/-- The scores of a log of values and priors: of every entry with at least four before it. -/
def scored (lower upper : Floating) (log : List (ℚ × ℚ)) : List ErrorPair :=
  (List.range' 4 (log.length - 4)).filterMap fun k =>
    log[k]?.map (score lower upper (log.take k))

section
variable {lower upper : Floating} {log : List (ℚ × ℚ)}

/-- One more entry is scored after the others, which keep their scores. -/
theorem scored_concat (lower upper : Floating) (log : List (ℚ × ℚ)) (entry : ℚ × ℚ) :
    scored lower upper (log ++ [entry]) =
      scored lower upper log ++ if 4 ≤ log.length then [score lower upper log entry] else [] := by
  have hold : ∀ k ∈ List.range' 4 (log.length - 4),
      (log ++ [entry])[k]?.map (score lower upper ((log ++ [entry]).take k)) =
        log[k]?.map (score lower upper (log.take k)) := by
    intro k hk
    rw [List.mem_range'_1] at hk
    rw [List.getElem?_append_left (by omega), List.take_append_of_le_length (by omega)]
  unfold scored
  rw [List.length_append, List.length_singleton]
  split
  · next h =>
    have hsize : log.length + 1 - 4 = log.length - 4 + 1 := by omega
    have hlast : 4 + (log.length - 4) = log.length := by omega
    rw [hsize, List.range'_1_concat, hlast, List.filterMap_append, List.filterMap_congr hold]
    simp
  · next h =>
    have hsize : log.length + 1 - 4 = 0 := by omega
    have hold : log.length - 4 = 0 := by omega
    simp [hsize, hold]

/-- The first four entries have no score. -/
theorem length_scored (lower upper : Floating) (log : List (ℚ × ℚ)) :
    (scored lower upper log).length = log.length - 4 := by
  induction log using List.reverseRecOn with
  | nil => rfl
  | append_singleton log entry ih =>
    rw [scored_concat, List.length_append, ih, List.length_append, List.length_singleton]
    split
    · simp only [List.length_singleton]
      omega
    · simp only [List.length_nil]
      omega

end

namespace ShadowMean

variable {arith : Arithmetic} {lower upper : Floating} {s t : ShadowMean} {log : List (ℚ × ℚ)}

/-- The bounds a constructor accepts are numbers in order. -/
theorem new_eq_ok (h : new lower upper = .ok s) :
    s = { lower, upper } ∧ lower ≠ .nan ∧ upper ≠ .nan ∧ upper.lt lower = false := by
  unfold new at h
  split at h
  · cases h
  · next hvalid => simp_all

/-- What is not admissible changes nothing. -/
theorem observe_inadmissible (arith : Arithmetic) (s : ShadowMean) {o : Observation}
    (h : o.admissible = false) : s.observe arith o = (false, s) := by
  simp [observe, h]

/-- A refused observation changes nothing. -/
theorem observe_refused {o : Observation} (h : (s.observe arith o).1 = false) :
    (s.observe arith o).2 = s := by
  unfold observe at h ⊢
  split
  · rfl
  · split
    · rfl
    · dsimp only at h ⊢
      split
      · split
        · rfl
        · simp_all
      · simp_all

/-! ## Exact arithmetic -/

/-- An estimator has learned from a log of values and priors, and scored it. -/
structure Follows (lower upper : Floating) (s : ShadowMean) (log : List (ℚ × ℚ)) : Prop where
  observed : s.observed.Describes (log.map Prod.fst)
  checks : s.checks = (scored lower upper log).rtake window
  finite : ∀ check ∈ scored lower upper log,
    ∃ prior candidate : ℚ, check = ⟨.finite prior, .finite candidate⟩
  lower : s.lower = lower
  upper : s.upper = upper

/-- A new estimator has an empty log. -/
theorem follows_nil : Follows lower upper { lower, upper } [] where
  observed := Moments.describes_nil
  checks := rfl
  finite := by simp [scored]
  lower := rfl
  upper := rfl

/-- The candidate is the forecast that the log supports. -/
theorem Follows.candidate (h : Follows lower upper s log) :
    s.candidate = forecast lower upper log := by
  rw [ShadowMean.candidate, forecast, h.observed.mean, h.lower, h.upper]

/-- The window takes the score of the next entry in. -/
theorem push_rtake (check : ErrorPair) (checks : List ErrorPair) :
    push check (checks.rtake window) = (checks ++ [check]).rtake window :=
  trim_rtake_concat (by decide) checks check

/-- What is accepted is an admissible value with a prior. -/
theorem observe_accepted {o : Observation} (h : s.observe arith o = (true, t)) :
    ∃ entry : ℚ × ℚ, o = ⟨.finite entry.1, .finite entry.2, true⟩ := by
  obtain ⟨value, prior, admissible⟩ := o
  unfold observe at h
  split at h
  · cases h
  · next hadmitted =>
    simp only [Bool.not_eq_true', Bool.or_eq_true, not_or, Bool.not_eq_false] at hadmitted
    obtain ⟨⟨rfl, hvalue⟩, hprior⟩ := hadmitted
    cases value with
    | nan | infinite => cases hvalue
    | finite x =>
      cases prior with
      | nan | infinite => cases hprior
      | finite p => exact ⟨(x, p), rfl⟩

/-- An admissible value is learned, and scored once there are four before it, unless its score is
not a number. -/
theorem Follows.observe_eq (hexact : arith.Exact) (h : Follows lower upper s log) (x p : ℚ) :
    s.observe arith ⟨.finite x, .finite p, true⟩ =
      match s.observed.observe arith (.finite x) with
      | (false, _) => (false, s)
      | (true, next) =>
        if 4 ≤ log.length then
          let check := score lower upper log (x, p)
          if !check.candidate.isFinite then (false, s)
          else (true, { s with observed := next, checks := push check s.checks })
        else (true, { s with observed := next }) := by
  have hsamples : s.observed.samples = log.length := by rw [h.observed.samples, List.length_map]
  unfold ShadowMean.observe
  rw [h.candidate, hsamples, hexact.double]
  simp [score, Floating.isFinite, Floating.sub, Floating.add, Floating.neg, Floating.abs,
    ← sub_eq_add_neg]

/-- An accepted observation extends the log. -/
theorem Follows.concat (hexact : arith.Exact) (h : Follows lower upper s log) {x p : ℚ}
    (haccepted : s.observe arith ⟨.finite x, .finite p, true⟩ = (true, t)) :
    Follows lower upper t (log ++ [(x, p)]) := by
  rw [h.observe_eq hexact, h.observed.observe hexact] at haccepted
  have hlearned := Moments.describes_concat (log.map Prod.fst) x
  split at haccepted
  · cases haccepted
  · next next heq =>
    obtain rfl : _ = next := by
      split at heq
      · cases heq
      · exact (Prod.ext_iff.1 heq).2
    split at haccepted
    · next hsize =>
      dsimp only at haccepted
      split at haccepted
      · cases haccepted
      · next hfinite =>
        cases haccepted
        refine ⟨by simpa using hlearned, ?_, ?_, h.lower, h.upper⟩
        · rw [scored_concat, if_pos hsize, ← push_rtake, ← h.checks]
        · rw [scored_concat, if_pos hsize]
          intro check hcheck
          rcases List.mem_append.1 hcheck with hcheck | hcheck
          · exact h.finite check hcheck
          · obtain rfl := List.mem_singleton.1 hcheck
            cases hcandidate : (score lower upper log (x, p)).candidate with
            | nan | infinite => simp [hcandidate, Floating.isFinite] at hfinite
            | finite c => exact ⟨|x - p|, c, by rw [← hcandidate]; rfl⟩
    · next hsize =>
      cases haccepted
      refine ⟨by simpa using hlearned, ?_, ?_, h.lower, h.upper⟩
      · rw [scored_concat, if_neg hsize, List.append_nil, ← h.checks]
      · rw [scored_concat, if_neg hsize, List.append_nil]
        exact h.finite

/-- The estimator after calls follows the accepted observations. -/
theorem follows_run (hexact : arith.Exact) (lower upper : Floating)
    (observations : List Observation) :
    ∃ log : List (ℚ × ℚ),
      (run arith { lower, upper } observations).2 = log.map Observation.ofEntry ∧
      Follows lower upper (run arith { lower, upper } observations).1 log := by
  induction observations using List.reverseRecOn with
  | nil => exact ⟨[], rfl, follows_nil⟩
  | append_singleton observations o ih =>
    obtain ⟨log, hlog, hfollows⟩ := ih
    have hstate : observations.foldl (step arith) ({ lower, upper }, []) =
        ((run arith { lower, upper } observations).1, log.map Observation.ofEntry) :=
      Prod.ext rfl hlog
    rw [run, List.foldl_append, List.foldl_cons, List.foldl_nil, hstate]
    cases hobserve : (run arith { lower, upper } observations).1.observe arith o with
    | mk accepted t =>
      cases accepted with
      | false =>
        have hsame := observe_refused (congrArg Prod.fst hobserve)
        rw [hobserve] at hsame
        refine ⟨log, by simp [step, hobserve], ?_⟩
        simpa [step, hobserve, show t = _ from hsame] using hfollows
      | true =>
        obtain ⟨entry, rfl⟩ := observe_accepted hobserve
        refine ⟨log ++ [entry], by simp [step, hobserve, Observation.ofEntry], ?_⟩
        simpa [step, hobserve] using hfollows.concat hexact hobserve

/-! ## Promotion -/

/-- The promotion is a function of the scores in the window. -/
theorem promoted_congr (arith : Arithmetic) (h : s.checks = t.checks) :
    s.promoted arith = t.promoted arith := by
  simp only [promoted, candidateError, priorError, h]

/-- The window has at least the entries that were scored and are not too old. -/
theorem Follows.length_checks (h : Follows lower upper s log) :
    s.checks.length = min window (log.length - 4) := by
  rw [h.checks, List.rtake, List.length_drop, length_scored]
  omega

/-- Nothing is promoted before the window is full. -/
theorem Follows.promoted_eq_false (h : Follows lower upper s log) (hsize : log.length < 36) :
    s.promoted arith = false := by
  have hlength := h.length_checks
  have hopen : s.checks.length ≠ window := by
    simp only [window] at hlength ⊢
    omega
  simp [promoted, hopen]

/-- The scores in the window are numbers. -/
theorem Follows.exists_pairs (h : Follows lower upper s log) :
    ∃ pairs : List (ℚ × ℚ), s.checks = pairs.map fun p => ⟨.finite p.1, .finite p.2⟩ := by
  have hfinite : ∀ check ∈ s.checks,
      check ∈ Set.range fun p : ℚ × ℚ => (⟨.finite p.1, .finite p.2⟩ : ErrorPair) := by
    intro check hcheck
    rw [h.checks] at hcheck
    obtain ⟨prior, candidate, rfl⟩ := h.finite check (List.mem_of_mem_drop hcheck)
    exact ⟨(prior, candidate), rfl⟩
  obtain ⟨pairs, hpairs⟩ := (Set.ext_iff.1 (Set.range_list_map _) s.checks).2 hfinite
  exact ⟨pairs, hpairs.symm⟩

/-- The mean of errors that are numbers. -/
theorem meanError_finite (hexact : arith.Exact) (errors : List ℚ) :
    meanError arith (errors.map .finite) = .finite (sampleMean errors) := by
  unfold meanError
  rw [hexact.double, Floating.zero, Floating.foldl_add_finite]
  cases errors with
  | nil => simp [sampleMean]
  | cons q errors =>
    have hsize : (((q :: errors).length : ℕ) : ℚ) ≠ 0 := Nat.cast_ne_zero.2 (by simp)
    simp only [List.length_map, Floating.div, if_pos hsize, zero_add]
    rfl

/-- A promoted candidate has less than nine tenths of the error of the prior. -/
theorem improves_of_promoted (hexact : arith.Exact) {pairs : List (ℚ × ℚ)}
    (hpairs : s.checks = pairs.map fun p => ⟨.finite p.1, .finite p.2⟩)
    (h : s.promoted arith = true) :
    pairs.length = window ∧
      sampleMean (pairs.map Prod.snd) < 9 / 10 * sampleMean (pairs.map Prod.fst) := by
  have hprior : s.priorError arith = .finite (sampleMean (pairs.map Prod.fst)) := by
    rw [priorError, hpairs, ← meanError_finite hexact, List.map_map, List.map_map]
    rfl
  have hcandidate : s.candidateError arith = .finite (sampleMean (pairs.map Prod.snd)) := by
    rw [candidateError, hpairs, ← meanError_finite hexact, List.map_map, List.map_map]
    rfl
  simp only [promoted, hprior, hcandidate, hexact.double, Bool.and_eq_true, beq_iff_eq,
    Floating.add, Floating.mul, Floating.lt, decide_eq_true_eq] at h
  obtain ⟨⟨hlength, -⟩, hlt⟩ := h
  refine ⟨by rw [← hlength, hpairs, List.length_map], ?_⟩
  linarith

/-- The value in use is the prior or lies between the bounds. -/
theorem Follows.valueOr (h : Follows lower upper s log) (hlower : lower ≠ .nan)
    (hupper : upper ≠ .nan) (hbounds : upper.lt lower = false) (prior : Floating) :
    s.valueOr arith prior = prior ∨
      lower.le (s.valueOr arith prior) = true ∧ (s.valueOr arith prior).le upper = true := by
  unfold ShadowMean.valueOr
  split
  · rw [h.candidate]
    exact .inr (Floating.clamp_mem (by simp) hlower hupper hbounds)
  · exact .inl rfl

end ShadowMean

/-! ## Runs -/

/-- **The shadow estimator is a prequential gate.** In arithmetic that does not round, for the
bounds a constructor accepts and any calls of `observe`:

- the window has the newest 32 of the scores of the accepted observations that at least four
  accepted ones came before, each with the distance of its value from its prior and from the clamped
  mean of the accepted values before it;
- nothing is promoted before 36 observations are accepted, and what is promoted has a mean error in
  the window below nine tenths of the prior's;
- the value in use is the prior or lies between the bounds;
- two estimators with the same window are promoted alike, whatever came before;
- an observation that is not admissible, or is refused, changes nothing, however the arithmetic
  rounds. -/
theorem shadow_mean_prequential (arith : Arithmetic) (hexact : arith.Exact) :
    (∀ (lower upper : Floating) (new : ShadowMean), ShadowMean.new lower upper = .ok new →
      ∀ observations : List Observation, ∃ log : List (ℚ × ℚ), ∃ pairs : List (ℚ × ℚ),
        (ShadowMean.run arith new observations).2 = log.map Observation.ofEntry ∧
        (ShadowMean.run arith new observations).1.checks = (scored lower upper log).rtake 32 ∧
        (ShadowMean.run arith new observations).1.checks =
          pairs.map (fun p => ⟨.finite p.1, .finite p.2⟩) ∧
        (log.length < 36 → (ShadowMean.run arith new observations).1.promoted arith = false) ∧
        ((ShadowMean.run arith new observations).1.promoted arith = true → pairs.length = 32 ∧
          sampleMean (pairs.map Prod.snd) < 9 / 10 * sampleMean (pairs.map Prod.fst)) ∧
        ∀ prior, (ShadowMean.run arith new observations).1.valueOr arith prior = prior ∨
          lower.le ((ShadowMean.run arith new observations).1.valueOr arith prior) = true ∧
          ((ShadowMean.run arith new observations).1.valueOr arith prior).le upper = true) ∧
    (∀ s t : ShadowMean, s.checks = t.checks → s.promoted arith = t.promoted arith) ∧
    ∀ (rounding : Arithmetic) (s : ShadowMean) (o : Observation),
      (o.admissible = false → s.observe rounding o = (false, s)) ∧
      ((s.observe rounding o).1 = false → (s.observe rounding o).2 = s) := by
  refine ⟨?_, fun s t => ShadowMean.promoted_congr arith, fun rounding s o =>
    ⟨ShadowMean.observe_inadmissible rounding s, ShadowMean.observe_refused⟩⟩
  intro lower upper new hnew observations
  obtain ⟨rfl, hlower, hupper, hbounds⟩ := ShadowMean.new_eq_ok hnew
  obtain ⟨log, hlog, h⟩ := ShadowMean.follows_run hexact lower upper observations
  obtain ⟨pairs, hpairs⟩ := h.exists_pairs
  exact ⟨log, pairs, hlog, h.checks, hpairs, h.promoted_eq_false,
    ShadowMean.improves_of_promoted hexact hpairs, h.valueOr hlower hupper hbounds⟩

/-- Forty observations of one value that the prior misses promote the estimator. -/
theorem shadow_mean_forty :
    (ShadowMean.run .exact { lower := .infinite true, upper := .infinite false }
      (List.replicate 40 ⟨.finite (2 / 5), .finite (4 / 5), true⟩)).1.promoted .exact = true ∧
    ∃ pairs : List (ℚ × ℚ), pairs.length = 32 ∧
      sampleMean (pairs.map Prod.snd) < 9 / 10 * sampleMean (pairs.map Prod.fst) := by
  have hpromoted : (ShadowMean.run .exact { lower := .infinite true, upper := .infinite false }
      (List.replicate 40 ⟨.finite (2 / 5), .finite (4 / 5), true⟩)).1.promoted .exact = true := by
    decide +kernel
  obtain ⟨-, pairs, -, -, -, -, himproves, -⟩ := (shadow_mean_prequential .exact ⟨rfl, rfl⟩).1
    (.infinite true) (.infinite false) _ rfl
    (List.replicate 40 ⟨.finite (2 / 5), .finite (4 / 5), true⟩)
  exact ⟨hpromoted, pairs, himproves hpromoted⟩

end Jevt.Experience
