import Jevt.Diagnostics.Summary
import Jevt.Library.Quantile

/-!
# Percentiles do not understate the tail

A call is put into the bucket of its latency when it is recorded, and `percentile` scans the counts
of the buckets when a snapshot is taken. The scan stops in the bucket of the nearest-rank quantile
(`percentile_eq`): the first buckets hold as many calls as the rank asks for exactly when the
quantile is in one of them. What is reported is therefore the smallest bound that is not below the
quantile, or the greatest latency when there is no such bound (`snapshot_percentiles`).

Latencies are compared as they are recorded, and the ranks are assumed to be computed exactly.
-/

namespace Jevt

open Library

/-! ## Latencies in order -/

namespace Floating

variable {a b c : Floating}

/-- At most is transitive. -/
theorem le_trans (hab : a.le b = true) (hbc : b.le c = true) : a.le c = true := by
  rcases a with _ | (_ | _) | x <;> rcases b with _ | (_ | _) | y <;>
    rcases c with _ | (_ | _) | z <;> simp_all [le, lt, eq]
  grind

/-- What is less is at most. -/
theorem le_of_lt (h : a.lt b = true) : a.le b = true := by
  simp [le, h]

/-- A number is at most itself. -/
theorem le_refl (ha : a ≠ nan) : a.le a = true := by
  rcases a with _ | (_ | _) | x <;> simp_all [le, lt, eq]

/-- Less than at most is less. -/
theorem lt_of_lt_of_le (hab : a.lt b = true) (hbc : b.le c = true) : a.lt c = true := by
  rw [le, Bool.or_eq_true] at hbc
  rcases hbc with hbc | hbc
  · exact lt_trans hab hbc
  · cases b with
    | nan => simp [eq] at hbc
    | infinite negative =>
      obtain rfl : infinite negative = c := by simpa [eq] using hbc
      exact hab
    | finite x =>
      obtain rfl : finite x = c := by simpa [eq] using hbc
      exact hab

/-- Not less is at most the other way round. -/
theorem le_of_not_lt (ha : a ≠ nan) (hb : b ≠ nan) (h : b.lt a = false) : a.le b = true :=
  (le_iff_not_lt ha hb).2 h

/-- The order in which values are sorted: what is not a number goes last. -/
def SortsBefore (a b : Floating) : Prop :=
  b = nan ∨ a.le b = true

instance : DecidableRel SortsBefore := fun a b =>
  inferInstanceAs (Decidable (b = nan ∨ a.le b = true))

instance : Std.Total SortsBefore where
  total a b := by
    by_cases ha : a = nan
    · exact .inr (.inl ha)
    · by_cases hb : b = nan
      · exact .inl (.inl hb)
      · cases hlt : b.lt a with
        | true => exact .inr (.inr (le_of_lt hlt))
        | false => exact .inl (.inr (le_of_not_lt ha hb hlt))

instance : IsTrans Floating SortsBefore where
  trans a b c := by
    rintro hab (rfl | hbc)
    · exact .inl rfl
    · rcases hab with rfl | hab
      · simp [le, lt, eq] at hbc
      · exact .inr (le_trans hab hbc)

end Floating

/-! ## Specification -/

/-- The recorded latencies of calls. -/
def latenciesOf (arith : Arithmetic) (calls : List RecordedCall) : List Floating :=
  calls.map fun call => latencyMs arith call.latency

/-- A value that is reported for a quantile of latencies: the smallest bound that is not below the
sample quantile, or the greatest latency when every bound is. -/
structure ReportsQuantile (boundsMs latencies : List Floating) (q : ℚ)
    (sample value : Floating) : Prop where
  sample_eq : nearestRank Floating.SortsBefore q latencies = some sample
  bounded : (∃ bound ∈ boundsMs, sample.le bound = true) →
    value ∈ boundsMs ∧ ∀ bound ∈ boundsMs, sample.le bound = true → value.le bound = true
  overflow : (∀ bound ∈ boundsMs, bound.lt sample = true) →
    value ∈ latencies ∧ ∀ latency ∈ latencies, latency.le value = true
  conservative : sample.le value = true

/-- The three percentiles of a snapshot report the quantiles of latencies, in their order. -/
structure ReportsPercentiles (boundsMs latencies : List Floating) (stats : CounterSnapshot) :
    Prop where
  p50 : ∃ sample, ReportsQuantile boundsMs latencies (50 / 100) sample stats.latencyP50Ms
  p95 : ∃ sample, ReportsQuantile boundsMs latencies (95 / 100) sample stats.latencyP95Ms
  p99 : ∃ sample, ReportsQuantile boundsMs latencies (99 / 100) sample stats.latencyP99Ms
  p50_le_p95 : stats.latencyP50Ms.le stats.latencyP95Ms = true
  p95_le_p99 : stats.latencyP95Ms.le stats.latencyP99Ms = true

/-- The ranks of the three percentiles among a number of calls are computed exactly. -/
def RanksExactly (arith : Arithmetic) (calls : Nat) : Prop :=
  ∀ q ∈ [(50 / 100 : ℚ), 95 / 100, 99 / 100],
    ceilCount (.mul arith.double (arith.double q) (arith.double calls)) = rank q calls

/-- Arithmetic that does not round computes every rank exactly. -/
theorem Arithmetic.Exact.ranksExactly {arith : Arithmetic} (h : arith.Exact) (calls : Nat) :
    RanksExactly arith calls := by
  intro q _
  rw [h.double]
  rfl

/-! ## Buckets -/

section
variable {boundsMs : List Floating} {a b sample : Floating}

/-- A smaller latency is in no later bucket. -/
theorem bucketOf_mono (h : a.le b = true) : bucketOf boundsMs a ≤ bucketOf boundsMs b := by
  induction boundsMs with
  | nil => exact Nat.le_refl _
  | cons bound boundsMs ih =>
    simp only [bucketOf, List.findIdx_cons] at ih ⊢
    cases ha : bound.lt a with
    | false => simp
    | true =>
      have hb := Floating.lt_of_lt_of_le ha h
      simpa [hb] using ih

/-- Every bound before the bucket of a latency is less. -/
theorem lt_of_lt_bucketOf {i : Nat} (hi : i < bucketOf boundsMs sample)
    (hlt : i < boundsMs.length) : boundsMs[i].lt sample = true := by
  have hnot := List.not_of_lt_findIdx hi
  simpa using hnot

/-- The bound of the bucket of a latency is not less. -/
theorem not_lt_getElem_bucketOf (hlt : bucketOf boundsMs sample < boundsMs.length) :
    (boundsMs[bucketOf boundsMs sample]).lt sample = false := by
  have hfound := List.findIdx_getElem (w := hlt)
  rwa [Bool.not_eq_true'] at hfound

end

section
variable (arith : Arithmetic) (boundsMs : List Floating) (calls : List RecordedCall)

/-- The first buckets count the calls up to the last of them. -/
theorem sum_take_buckets {i : Nat} (hi : i ≤ boundsMs.length) :
    ((countersOf arith boundsMs calls).buckets.take (i + 1)).sum =
      calls.countP fun call => bucketOf boundsMs (latencyMs arith call.latency) ≤ i := by
  induction i with
  | zero =>
    have hfirst := countersOf_buckets_getElem? arith boundsMs calls hi
    rw [List.take_add_one, List.take_zero, hfirst]
    simp
  | succ i ih =>
    have hnext := countersOf_buckets_getElem? arith boundsMs calls hi
    rw [List.take_add_one, List.sum_append, ih (by omega), hnext, Option.toList_some,
      List.sum_singleton]
    clear ih hnext
    induction calls with
    | nil => rfl
    | cons call calls ih =>
      simp only [List.countP_cons, decide_eq_true_eq] at ih ⊢
      rw [← ih]
      split_ifs <;> omega

/-- A latency is not negative. -/
theorem latencyMs_lt_zero (latency : Int) : (latencyMs arith latency).lt .zero = false := by
  rw [latencyMs, Floating.max]
  split
  · next hlt =>
    refine Bool.eq_false_iff.2 fun hneg => ?_
    exact absurd (Floating.lt_trans hlt hneg) (Bool.eq_false_iff.1 (Floating.lt_irrefl _))
  · exact Floating.lt_irrefl _

/-- The greatest latency is one of the recorded ones, and none exceeds it. -/
theorem countersOf_latencyMaxMs (hne : calls ≠ []) :
    (countersOf arith boundsMs calls).latencyMaxMs ∈ latenciesOf arith calls ∧
      ∀ latency ∈ latenciesOf arith calls,
        latency.le (countersOf arith boundsMs calls).latencyMaxMs = true := by
  -- zero stands for no call yet: no latency is less
  have hrun : ∀ calls : List RecordedCall,
      let greatest := (countersOf arith boundsMs calls).latencyMaxMs
      (greatest = .zero ∨ greatest ∈ latenciesOf arith calls) ∧ greatest ≠ .nan ∧
        ∀ latency ∈ latenciesOf arith calls, latency.le greatest = true := by
    intro calls
    induction calls using List.reverseRecOn with
    | nil => exact ⟨.inl rfl, nofun, nofun⟩
    | append_singleton calls call ih =>
      obtain ⟨hmem, hnumber, hbound⟩ := ih
      have hlatency := latencyMs_ne_nan arith call.latency
      have happend : latenciesOf arith (calls ++ [call]) =
          latenciesOf arith calls ++ [latencyMs arith call.latency] := List.map_append
      rw [countersOf_concat, Counters.update, happend]
      simp only [Floating.max]
      cases hlt : (countersOf arith boundsMs calls).latencyMaxMs.lt
        (latencyMs arith call.latency) with
      | true =>
        refine ⟨.inr (by simp), hlatency, fun latency hmem => ?_⟩
        rcases List.mem_append.1 hmem with hmem | hmem
        · exact Floating.le_trans (hbound latency hmem) (Floating.le_of_lt hlt)
        · obtain rfl := List.mem_singleton.1 hmem
          exact Floating.le_refl hlatency
      | false =>
        refine ⟨hmem.imp id (List.mem_append_left _), hnumber, fun latency hmem => ?_⟩
        rcases List.mem_append.1 hmem with hmem | hmem
        · exact hbound latency hmem
        · obtain rfl := List.mem_singleton.1 hmem
          exact Floating.le_of_not_lt hlatency hnumber hlt
  obtain ⟨hmem, -, hbound⟩ := hrun calls
  refine ⟨hmem.elim (fun hzero => ?_) id, hbound⟩
  obtain ⟨call, hcall⟩ := List.exists_mem_of_ne_nil calls hne
  have hrecorded : latencyMs arith call.latency ∈ latenciesOf arith calls :=
    List.mem_map_of_mem hcall
  have hle := hbound _ hrecorded
  rw [hzero, Floating.le, latencyMs_lt_zero, Bool.false_or] at hle
  have heq : latencyMs arith call.latency = .zero := by
    have hnumber := latencyMs_ne_nan arith call.latency
    revert hle hnumber
    cases latencyMs arith call.latency <;> simp [Floating.eq]
  rwa [hzero, ← heq]

end

/-! ## The scan -/

/-- The loop of `percentile` stops at the first bucket up to which there are as many calls as the
rank asks for. -/
theorem percentileFrom_eq {boundsMs : List Floating} {latencyMaxMs : Floating} {rank k : Nat}
    {counts : List Nat} (i cumulative : Nat) (hk : k < counts.length)
    (hbefore : ∀ j < k, cumulative + (counts.take (j + 1)).sum < rank)
    (hat : rank ≤ cumulative + (counts.take (k + 1)).sum) :
    percentileFrom boundsMs latencyMaxMs rank i cumulative counts =
      boundsMs.getD (i + k) latencyMaxMs := by
  induction counts generalizing i cumulative k with
  | nil => simp at hk
  | cons count counts ih =>
    rw [percentileFrom]
    cases k with
    | zero =>
      rw [if_pos (by simpa using hat), Nat.add_zero]
    | succ k =>
      have hfirst := hbefore 0 (Nat.succ_pos k)
      simp only [List.take_succ_cons, List.take_zero, List.sum_cons, List.sum_nil,
        Nat.add_zero] at hfirst
      rw [if_neg (by omega), ih (i + 1) (cumulative + count) (by simpa using hk) ?_ ?_]
      · congr 1
        omega
      · intro j hj
        have hnext := hbefore (j + 1) (by omega)
        rw [List.take_succ_cons, List.sum_cons] at hnext
        omega
      · rw [List.take_succ_cons, List.sum_cons] at hat
        omega

section
variable {arith : Arithmetic} {boundsMs : List Floating} {calls : List RecordedCall}

/-- **The scan stops in the bucket of the quantile.** -/
theorem percentile_eq {q : ℚ} {sample : Floating}
    (hrank : ceilCount (.mul arith.double (arith.double q) (arith.double calls.length)) =
      rank q calls.length)
    (hq : 0 < q) (hone : q ≤ 1) (hne : calls ≠ [])
    (hsample : nearestRank Floating.SortsBefore q (latenciesOf arith calls) = some sample) :
    percentile arith (countersOf arith boundsMs calls) boundsMs (arith.double q) =
      boundsMs.getD (bucketOf boundsMs sample)
        (countersOf arith boundsMs calls).latencyMaxMs := by
  have hcalls : (countersOf arith boundsMs calls).calls = calls.length :=
    (countersOf_counts arith boundsMs calls).1
  have hpos : 0 < calls.length := List.length_pos_iff.2 hne
  have hlength : (latenciesOf arith calls).length = calls.length := List.length_map _
  have hrank_pos : 1 ≤ rank q calls.length := (rank_bounds hq hone hpos).1
  have hnumber : sample ≠ .nan := by
    obtain ⟨call, -, rfl⟩ := List.mem_map.1 (mem_of_nearestRank hsample)
    exact latencyMs_ne_nan arith call.latency
  -- the buckets up to number `i` hold as many calls as the rank exactly from that of the sample on
  have hcount : ∀ i ≤ boundsMs.length, rank q calls.length ≤
      ((countersOf arith boundsMs calls).buckets.take (i + 1)).sum ↔
        bucketOf boundsMs sample ≤ i := by
    intro i hi
    have hdown : ∀ a b : Floating, a.SortsBefore b →
        decide (b ≠ .nan ∧ bucketOf boundsMs b ≤ i) = true →
        decide (a ≠ .nan ∧ bucketOf boundsMs a ≤ i) = true := by
      intro a b hab hb
      obtain ⟨hbnan, hbi⟩ := of_decide_eq_true hb
      have hle : a.le b = true := hab.resolve_left hbnan
      exact decide_eq_true ⟨(Floating.ne_nan_of_le hle).1, (bucketOf_mono hle).trans hbi⟩
    have hiff := rank_le_countP_iff hdown (hlength ▸ hrank_pos) hsample
    rw [hlength, latenciesOf, List.countP_map] at hiff
    rw [sum_take_buckets arith boundsMs calls hi]
    have hsame : calls.countP (fun call => bucketOf boundsMs (latencyMs arith call.latency) ≤ i) =
        calls.countP ((fun a => decide (a ≠ .nan ∧ bucketOf boundsMs a ≤ i)) ∘
          fun call => latencyMs arith call.latency) := by
      refine List.countP_congr fun call _ => ?_
      simp [latencyMs_ne_nan arith call.latency]
    rw [hsame, hiff, decide_eq_true_eq, and_iff_right hnumber]
  have hbucket := bucketOf_le_length boundsMs sample
  rw [percentile, hcalls, if_neg hpos.ne', hrank]
  rw [percentileFrom_eq 0 0 (k := bucketOf boundsMs sample), Nat.zero_add]
  · rw [countersOf_buckets_length]
    omega
  · intro j hj
    rw [Nat.zero_add, ← Nat.not_le, hcount j (by omega)]
    omega
  · rw [Nat.zero_add, hcount _ hbucket]

/-- What is found for the bucket of a quantile reports the quantile. -/
theorem reportsQuantile_getD (hvalid : ValidBounds boundsMs) {q : ℚ} {sample : Floating}
    (hne : calls ≠ [])
    (hsample : nearestRank Floating.SortsBefore q (latenciesOf arith calls) = some sample) :
    ReportsQuantile boundsMs (latenciesOf arith calls) q sample
      (boundsMs.getD (bucketOf boundsMs sample)
        (countersOf arith boundsMs calls).latencyMaxMs) := by
  have hmem := mem_of_nearestRank hsample
  have hnumber : sample ≠ .nan := by
    obtain ⟨call, -, rfl⟩ := List.mem_map.1 hmem
    exact latencyMs_ne_nan arith call.latency
  obtain ⟨hmax, hgreatest⟩ := countersOf_latencyMaxMs arith boundsMs calls hne
  rcases (bucketOf_le_length boundsMs sample).lt_or_eq with hlt | heq
  · have hvalue : boundsMs.getD (bucketOf boundsMs sample)
        (countersOf arith boundsMs calls).latencyMaxMs = boundsMs[bucketOf boundsMs sample] := by
      rw [List.getD_eq_getElem?_getD, List.getElem?_eq_getElem hlt, Option.getD_some]
    have hfinite := hvalid.ne_nan (List.getElem_mem hlt)
    have hle : sample.le boundsMs[bucketOf boundsMs sample] = true :=
      Floating.le_of_not_lt hnumber hfinite (not_lt_getElem_bucketOf hlt)
    rw [hvalue]
    refine ⟨hsample, fun _ => ⟨List.getElem_mem hlt, fun bound hbound hsmall => ?_⟩,
      fun hall => ?_, hle⟩
    · -- a bound before the bucket would be less than the sample
      obtain ⟨j, hj, rfl⟩ := List.getElem_of_mem hbound
      rcases Nat.lt_trichotomy j (bucketOf boundsMs sample) with hbefore | rfl | hafter
      · have hless := Floating.lt_of_lt_of_le (lt_of_lt_bucketOf hbefore hj) hsmall
        exact absurd hless (Bool.eq_false_iff.1 (Floating.lt_irrefl _))
      · exact Floating.le_refl hfinite
      · exact Floating.le_of_lt (List.pairwise_iff_getElem.1 hvalid.increasing _ _ hlt hj hafter)
    · have hless := hall _ (List.getElem_mem hlt)
      rw [not_lt_getElem_bucketOf hlt] at hless
      cases hless
  · have hvalue : boundsMs.getD (bucketOf boundsMs sample)
        (countersOf arith boundsMs calls).latencyMaxMs =
          (countersOf arith boundsMs calls).latencyMaxMs := by
      rw [List.getD_eq_getElem?_getD, heq, List.getElem?_length, Option.getD_none]
    rw [hvalue]
    refine ⟨hsample, fun ⟨bound, hbound, hsmall⟩ => ?_, fun _ => ⟨hmax, hgreatest⟩,
      hgreatest sample hmem⟩
    obtain ⟨j, hj, rfl⟩ := List.getElem_of_mem hbound
    have hless := Floating.lt_of_lt_of_le (lt_of_lt_bucketOf (heq ▸ hj) hj) hsmall
    exact absurd hless (Bool.eq_false_iff.1 (Floating.lt_irrefl _))

/-- Larger quantiles are reported by larger values. -/
theorem ReportsQuantile.mono {latencies : List Floating} (hvalid : ValidBounds boundsMs)
    {q q' : ℚ} {sample sample' value value' : Floating}
    (h : ReportsQuantile boundsMs latencies q sample value)
    (h' : ReportsQuantile boundsMs latencies q' sample' value') (hq : q ≤ q') :
    value.le value' = true := by
  have hnumber : sample' ≠ .nan := (Floating.ne_nan_of_le h'.conservative).1
  have hsamples : sample.le sample' = true :=
    (nearestRank_mono hq h.sample_eq h'.sample_eq).resolve_left hnumber
  have hbelow : ∀ {s : Floating}, s ≠ .nan → (¬ ∃ bound ∈ boundsMs, s.le bound = true) →
      ∀ bound ∈ boundsMs, bound.lt s = true := by
    intro s hs hnone bound hbound
    by_contra hge
    exact hnone ⟨bound, hbound,
      Floating.le_of_not_lt hs (hvalid.ne_nan hbound) (Bool.eq_false_iff.2 hge)⟩
  have hsample : sample ≠ .nan := (Floating.ne_nan_of_le hsamples).1
  by_cases hin' : ∃ bound ∈ boundsMs, sample'.le bound = true
  · -- the bound reported for the larger quantile is not below the smaller one
    have hvalue' := (h'.bounded hin').1
    have hle := Floating.le_trans hsamples h'.conservative
    exact (h.bounded ⟨value', hvalue', hle⟩).2 value' hvalue' hle
  · obtain ⟨-, hgreatest⟩ := h'.overflow (hbelow hnumber hin')
    by_cases hin : ∃ bound ∈ boundsMs, sample.le bound = true
    · have hless := hbelow hnumber hin' value (h.bounded hin).1
      exact Floating.le_trans (Floating.le_of_lt hless) h'.conservative
    · exact hgreatest value (h.overflow (hbelow hsample hin)).1

/-- The counters of a log with a call report its percentiles. -/
theorem reportsPercentiles_countersOf (hvalid : ValidBounds boundsMs) (hne : calls ≠ [])
    (hrank : RanksExactly arith calls.length) :
    ReportsPercentiles boundsMs (latenciesOf arith calls)
      (makeSnapshot arith (countersOf arith boundsMs calls) boundsMs) := by
  have hlatencies : latenciesOf arith calls ≠ [] := by
    rw [latenciesOf, ne_eq, List.map_eq_nil_iff]
    exact hne
  have hreport : ∀ q ∈ [(50 / 100 : ℚ), 95 / 100, 99 / 100], 0 < q → q ≤ 1 →
      ∃ sample, ReportsQuantile boundsMs (latenciesOf arith calls) q sample
        (percentile arith (countersOf arith boundsMs calls) boundsMs (arith.double q)) := by
    intro q hmem hq hone
    obtain ⟨sample, hsample⟩ : ∃ sample,
        nearestRank Floating.SortsBefore q (latenciesOf arith calls) = some sample :=
      exists_nearestRank hq hone hlatencies
    refine ⟨sample, ?_⟩
    rw [percentile_eq (hrank q hmem) hq hone hne hsample]
    exact reportsQuantile_getD hvalid hne hsample
  obtain ⟨sample₅₀, h₅₀⟩ := hreport (50 / 100) (by simp) (by norm_num) (by norm_num)
  obtain ⟨sample₉₅, h₉₅⟩ := hreport (95 / 100) (by simp) (by norm_num) (by norm_num)
  obtain ⟨sample₉₉, h₉₉⟩ := hreport (99 / 100) (by simp) (by norm_num) (by norm_num)
  exact ⟨⟨sample₅₀, h₅₀⟩, ⟨sample₉₅, h₉₅⟩, ⟨sample₉₉, h₉₉⟩, h₅₀.mono hvalid h₉₅ (by norm_num),
    h₉₅.mono hvalid h₉₉ (by norm_num)⟩

end

/-- **Percentiles do not understate the tail.** With exactly computed ranks a snapshot reports the
percentiles of the latencies recorded since the last reset, in total and for each decision. -/
theorem snapshot_percentiles (arith : Arithmetic) {options : DiagnosticsOptions} {d : Diagnostics}
    (hcreate : Diagnostics.create options = .ok d) (ops : List DiagnosticsOp) (now : Int)
    (hrank : ∀ count ≤ (callsSinceReset ops).length, RanksExactly arith count) :
    (callsSinceReset ops ≠ [] →
      ReportsPercentiles options.histogramBoundsMs (latenciesOf arith (callsSinceReset ops))
        ((ops.foldl (Diagnostics.apply arith) d).snapshot arith now).total) ∧
      ∀ entry ∈ ((ops.foldl (Diagnostics.apply arith) d).snapshot arith now).decisions,
        ReportsPercentiles options.histogramBoundsMs
          (latenciesOf arith (callsOf entry.decision (callsSinceReset ops))) entry.stats := by
  obtain ⟨hvalid, hempty⟩ : ValidBounds options.histogramBoundsMs ∧ d.Tracks arith options [] :=
    Diagnostics.create_eq_ok hcreate
  have htracks := hempty.foldl ops
  refine ⟨fun hne => ?_, fun entry hentry => ?_⟩
  · rw [Diagnostics.snapshot, htracks.total_eq, htracks.options_eq]
    exact reportsPercentiles_countersOf hvalid hne (hrank _ (Nat.le_refl _))
  · obtain ⟨tracked, htracked, rfl⟩ := List.mem_map.1 hentry
    rw [htracks.options_eq, htracks.table.counters tracked htracked]
    -- a tracked decision has been recorded
    have hname : tracked.1 ∈ (callsSinceReset ops).map RecordedCall.decision :=
      mem_of_mem_trackedNames
        (htracks.table.names.mem_iff.1 (List.mem_map_of_mem htracked))
    obtain ⟨call, hcall, hdecision⟩ := List.mem_map.1 hname
    refine reportsPercentiles_countersOf hvalid ?_ (hrank _ (List.length_filter_le _ _))
    exact List.ne_nil_of_mem (List.mem_filter.2 ⟨hcall, decide_eq_true hdecision⟩)

/-- Three latencies of which one is above all bounds, in exact arithmetic. -/
theorem snapshot_percentiles_narrow :
    ReportsPercentiles [.finite 1, .finite 5] (latenciesOf .exact (callsSinceReset narrowOps))
      ((narrowOps.foldl (Diagnostics.apply .exact)
        { options := narrowOptions, total := .empty [.finite 1, .finite 5] }).snapshot
          .exact 9).total :=
  (snapshot_percentiles .exact
    (by decide : Diagnostics.create narrowOptions =
      .ok { options := narrowOptions, total := .empty [.finite 1, .finite 5] })
    narrowOps 9 fun count _ => Arithmetic.Exact.ranksExactly ⟨rfl, rfl⟩ count).1 (by decide)

end Jevt
