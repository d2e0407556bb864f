import Mathlib.Data.UInt
import Jevt.Diagnostics.Registry
import Jevt.Library.Distinct

/-!
# A snapshot summarises the log

A registry is a function of the calls recorded since the last reset (`Diagnostics.Tracks`): its
counters are those of all calls, the table holds the counters of the calls of each of the first
`max_decisions` distinct names, the dropped calls are those of all other names, and the recent
calls are the newest of the sampled ones. A snapshot therefore says of the log exactly what
`Summarises` says, for the whole log and for each name (`snapshot_summarises`).

Nothing here depends on how results are rounded: a latency is always a number, since it is the
greater of zero and the quotient, and the bounds of a valid histogram increase.
-/

namespace Jevt

open Library

/-! ## Histograms -/

/-- The bounds of a valid histogram. -/
structure ValidBounds (boundsMs : List Floating) : Prop where
  finite : ∀ bound ∈ boundsMs, bound.isFinite = true
  increasing : boundsMs.Pairwise fun a b => a.lt b = true

/-- Whether a latency is in the bucket with number `i`: above the bound before it, and not above
its own. -/
def inBucket (boundsMs : List Floating) (i : Nat) (latency : Floating) : Bool :=
  (i = 0 || boundsMs[i - 1]?.all fun below => below.lt latency) &&
    boundsMs[i]?.all fun bound => latency.le bound

/-- A latency is a number. -/
theorem latencyMs_ne_nan (arith : Arithmetic) (latency : Int) : latencyMs arith latency ≠ .nan :=
  Floating.max_zero_ne_nan _

/-- Finite bounds are numbers. -/
theorem ValidBounds.ne_nan {boundsMs : List Floating} (h : ValidBounds boundsMs) {bound : Floating}
    (hbound : bound ∈ boundsMs) : bound ≠ .nan := by
  rintro rfl
  exact absurd (h.finite _ hbound) (by decide)

/-- In valid bounds the lower bound of a number is its bucket. -/
theorem ValidBounds.bucketOf_eq_iff {boundsMs : List Floating} (h : ValidBounds boundsMs)
    {latency : Floating} (hlatency : latency ≠ .nan) {i : Nat} (hi : i ≤ boundsMs.length) :
    bucketOf boundsMs latency = i ↔ inBucket boundsMs i latency = true := by
  -- Everything below a bound that is less than the latency is less than the latency.
  have hbelow : (∀ j (hj : j < i), (boundsMs.get ⟨j, by omega⟩).lt latency = true) ↔
      (i = 0 || boundsMs[i - 1]?.all fun below => below.lt latency) = true := by
    cases i with
    | zero => simp
    | succ i =>
      have hget : boundsMs[i]? = some boundsMs[i] := List.getElem?_eq_getElem hi
      simp only [Nat.add_sub_cancel, hget, Option.all_some, Nat.add_one_ne_zero, decide_false,
        Bool.false_or]
      constructor
      · intro hall
        exact hall i (Nat.lt_succ_self i)
      · intro hlast j hj
        rcases Nat.lt_or_eq_of_le (Nat.le_of_lt_succ hj) with hlt | rfl
        · exact Floating.lt_trans (List.pairwise_iff_getElem.1 h.increasing j i _ _ hlt) hlast
        · exact hlast
  rw [inBucket, Bool.and_eq_true, ← hbelow, bucketOf]
  rcases Nat.lt_or_eq_of_le hi with hlt | rfl
  · have hle := Floating.le_iff_not_lt hlatency (h.ne_nan (List.getElem_mem hlt))
    rw [List.findIdx_eq hlt, List.getElem?_eq_getElem hlt]
    simp only [Bool.not_eq_true', Bool.not_eq_false', Option.all_some, hle]
    exact and_comm
  · rw [List.findIdx_eq_length]
    simp only [Bool.not_eq_false', List.getElem?_length, Option.all_none, and_true,
      List.get_eq_getElem]
    rw [List.forall_mem_iff_getElem]

/-! ## The counters of a log -/

/-- The counters of the calls of a log. -/
def countersOf (arith : Arithmetic) (boundsMs : List Floating) (calls : List RecordedCall) :
    Counters :=
  calls.foldl (Counters.update arith boundsMs) (.empty boundsMs)

/-- What a snapshot of the counters of a log says of the log. -/
structure Summarises (arith : Arithmetic) (boundsMs : List Floating) (calls : List RecordedCall)
    (stats : CounterSnapshot) : Prop where
  calls_eq : stats.calls = calls.length
  successes_eq : stats.successes = calls.countP fun call => call.outcome = .success
  errors_eq : stats.errors = calls.countP fun call => call.outcome = .error
  abstains_eq : stats.abstains = calls.countP fun call => call.outcome = .abstain
  outcomes_eq : stats.successes + stats.errors + stats.abstains = stats.calls
  bounds_eq : stats.latencyHistogram.boundsMs = boundsMs
  counts_length : stats.latencyHistogram.counts.length = boundsMs.length + 1
  counts_eq : ∀ i ≤ boundsMs.length, stats.latencyHistogram.counts[i]? =
    some (calls.countP fun call => inBucket boundsMs i (latencyMs arith call.latency))
  counts_sum : stats.latencyHistogram.counts.sum = stats.calls
  inputTokens_eq : stats.inputTokens = (calls.map fun call => call.usage.inputTokens).sum
  outputTokens_eq : stats.outputTokens = (calls.map fun call => call.usage.outputTokens).sum

section
variable (arith : Arithmetic) (boundsMs : List Floating) (calls : List RecordedCall)
  (call : RecordedCall)

/-- One more call updates the counters. -/
theorem countersOf_concat : countersOf arith boundsMs (calls ++ [call]) =
    (countersOf arith boundsMs calls).update arith boundsMs call := by
  rw [countersOf, List.foldl_append]
  rfl

/-- A call is counted in one bucket. -/
theorem bucketOf_le_length (latency : Floating) : bucketOf boundsMs latency ≤ boundsMs.length :=
  List.findIdx_le_length

/-- There is one bucket for each bound and one above all bounds. -/
theorem countersOf_buckets_length :
    (countersOf arith boundsMs calls).buckets.length = boundsMs.length + 1 := by
  induction calls using List.reverseRecOn with
  | nil => exact List.length_replicate
  | append_singleton calls call ih =>
    rw [countersOf_concat, Counters.update, List.length_modify, ih]

/-- A bucket counts the calls whose latency it is found for. -/
theorem countersOf_buckets_getElem? {i : Nat} (hi : i ≤ boundsMs.length) :
    (countersOf arith boundsMs calls).buckets[i]? =
      some (calls.countP fun call => bucketOf boundsMs (latencyMs arith call.latency) = i) := by
  induction calls using List.reverseRecOn with
  | nil => exact List.getElem?_replicate_of_lt (by omega)
  | append_singleton calls call ih =>
    rw [countersOf_concat, Counters.update, List.getElem?_modify, ih, List.countP_append,
      List.countP_singleton]
    split <;> simp_all

/-- The buckets count every call once. -/
theorem countersOf_buckets_sum : (countersOf arith boundsMs calls).buckets.sum = calls.length := by
  induction calls using List.reverseRecOn with
  | nil => simp [countersOf, Counters.empty]
  | append_singleton calls call ih =>
    have hbucket : bucketOf boundsMs (latencyMs arith call.latency) <
        (countersOf arith boundsMs calls).buckets.length := by
      rw [countersOf_buckets_length]
      exact Nat.lt_succ_of_le (bucketOf_le_length boundsMs _)
    rw [countersOf_concat, Counters.update, sum_modify_succ hbucket, ih, List.length_append]
    rfl

/-- The numbers of calls, and of the calls with each outcome. -/
theorem countersOf_counts :
    (countersOf arith boundsMs calls).calls = calls.length ∧
    (countersOf arith boundsMs calls).successes =
      calls.countP (fun call => call.outcome = .success) ∧
    (countersOf arith boundsMs calls).errors = calls.countP (fun call => call.outcome = .error) ∧
    (countersOf arith boundsMs calls).abstains =
      calls.countP fun call => call.outcome = .abstain := by
  induction calls using List.reverseRecOn with
  | nil => exact ⟨rfl, rfl, rfl, rfl⟩
  | append_singleton calls call ih =>
    obtain ⟨hcalls, hsuccesses, herrors, habstains⟩ := ih
    rw [countersOf_concat, Counters.update]
    simp [hcalls, hsuccesses, herrors, habstains, List.countP_append, List.countP_singleton]

/-- The sums of the usages. -/
theorem countersOf_tokens :
    (countersOf arith boundsMs calls).inputTokens =
      (calls.map fun call => call.usage.inputTokens).sum ∧
    (countersOf arith boundsMs calls).outputTokens =
      (calls.map fun call => call.usage.outputTokens).sum := by
  induction calls using List.reverseRecOn with
  | nil => exact ⟨rfl, rfl⟩
  | append_singleton calls call ih =>
    rw [countersOf_concat, Counters.update, ih.1, ih.2]
    simp

/-- Every call has one of the three outcomes. -/
theorem countP_outcomes :
    calls.countP (fun call => call.outcome = .success) +
      calls.countP (fun call => call.outcome = .error) +
      calls.countP (fun call => call.outcome = .abstain) = calls.length := by
  induction calls with
  | nil => rfl
  | cons call calls ih =>
    rw [List.length_cons, ← ih]
    cases h : call.outcome <;> simp [h] <;> omega

end

/-- **The counters of a log.** Their snapshot summarises it. -/
theorem summarises_countersOf (arith : Arithmetic) {boundsMs : List Floating}
    (hvalid : ValidBounds boundsMs) (calls : List RecordedCall) :
    Summarises arith boundsMs calls (makeSnapshot arith (countersOf arith boundsMs calls) boundsMs)
    := by
  obtain ⟨hcalls, hsuccesses, herrors, habstains⟩ := countersOf_counts arith boundsMs calls
  obtain ⟨hinput, houtput⟩ := countersOf_tokens arith boundsMs calls
  refine ⟨hcalls, hsuccesses, herrors, habstains, ?_, rfl,
    countersOf_buckets_length arith boundsMs calls, fun i hi => ?_, ?_, hinput, houtput⟩
  · simp only [makeSnapshot, hcalls, hsuccesses, herrors, habstains, countP_outcomes]
  · have hbucket := countersOf_buckets_getElem? arith boundsMs calls hi
    rw [makeSnapshot, hbucket]
    refine congrArg some (List.countP_congr fun call _ => ?_)
    rw [decide_eq_true_eq, hvalid.bucketOf_eq_iff (latencyMs_ne_nan arith _) hi]
  · exact (countersOf_buckets_sum arith boundsMs calls).trans hcalls.symm

/-! ## The table and the window -/

/-- The calls recorded since the last reset. -/
def callsSinceReset (ops : List DiagnosticsOp) : List RecordedCall :=
  ops.foldl (fun calls op => match op with
    | .recordCall call => calls ++ [call]
    | .reset => []) []

/-- The decisions the table holds: the first `max_decisions` distinct names. -/
def trackedNames (options : DiagnosticsOptions) (calls : List RecordedCall) : List Bytes :=
  (calls.map RecordedCall.decision).eraseDups.take options.maxDecisions

/-- The calls number `1`, `1 + N`, `1 + 2N`, …, each with its number. -/
def sampledCalls (every : Nat) (calls : List RecordedCall) : List (RecordedCall × Nat) :=
  (calls.zipIdx 1).filter fun numbered => every ∣ numbered.2 - 1

/-- The recent calls: the newest sampled ones, newest first. -/
def recentOf (arith : Arithmetic) (options : DiagnosticsOptions) (calls : List RecordedCall) :
    List RecentCall :=
  if options.recentCapacity = 0 ∨ options.recentSampleEvery = 0 then []
  else
    let sampled := sampledCalls options.recentSampleEvery calls
    (sampled.reverse.map fun numbered =>
      Diagnostics.recentCall arith options numbered.1 numbered.2).take options.recentCapacity

/-- The calls of one decision. -/
def callsOf (name : Bytes) (calls : List RecordedCall) : List RecordedCall :=
  calls.filter fun call => call.decision = name

/-- What a snapshot says of the calls since the last reset. -/
structure SnapshotOf (arith : Arithmetic) (options : DiagnosticsOptions)
    (calls : List RecordedCall) (report : DiagnosticsSnapshot) : Prop where
  total : Summarises arith options.histogramBoundsMs calls report.total
  sorted : (report.decisions.map DecisionSnapshot.decision).Pairwise (· < ·)
  names : (report.decisions.map DecisionSnapshot.decision).Perm (trackedNames options calls)
  decisions : ∀ entry ∈ report.decisions,
    Summarises arith options.histogramBoundsMs (callsOf entry.decision calls) entry.stats
  dropped : report.droppedDecisions =
    calls.countP fun call => call.decision ∉ trackedNames options calls
  accounted : (report.decisions.map fun entry => entry.stats.calls).sum +
    report.droppedDecisions = report.total.calls
  recent : report.recentCalls = recentOf arith options calls

/-- A table that holds the counters of the first decisions of a log, and the number of the calls
it leaves out. -/
structure TableOf (arith : Arithmetic) (options : DiagnosticsOptions) (calls : List RecordedCall)
    (entries : List (Bytes × Counters)) (dropped : Nat) : Prop where
  sorted : (entries.map Prod.fst).Pairwise (· < ·)
  names : (entries.map Prod.fst).Perm (trackedNames options calls)
  counters : ∀ entry ∈ entries,
    entry.2 = countersOf arith options.histogramBoundsMs (callsOf entry.1 calls)
  dropped : dropped = calls.countP fun call => call.decision ∉ trackedNames options calls

/-- A registry with the counters, the table and the window of a log. -/
structure Diagnostics.Tracks (arith : Arithmetic) (options : DiagnosticsOptions)
    (calls : List RecordedCall) (d : Diagnostics) : Prop where
  options_eq : d.options = options
  total_eq : d.total = countersOf arith options.histogramBoundsMs calls
  table : TableOf arith options calls d.decisions d.droppedDecisions
  recent_eq : d.recent = recentOf arith options calls

section
variable {arith : Arithmetic} {options : DiagnosticsOptions} {calls : List RecordedCall}
  {call : RecordedCall} {d : Diagnostics} {name : Bytes} {counters : Counters}
  {entries : List (Bytes × Counters)}

/-- The tracked names are distinct. -/
theorem nodup_trackedNames (options : DiagnosticsOptions) (calls : List RecordedCall) :
    (trackedNames options calls).Nodup :=
  (nodup_eraseDups _).sublist (List.take_sublist _ _)

/-- A tracked name has been recorded. -/
theorem mem_of_mem_trackedNames (h : name ∈ trackedNames options calls) :
    name ∈ calls.map RecordedCall.decision :=
  List.mem_eraseDups.1 (List.mem_of_mem_take h)

/-- The calls of a decision after one more call. -/
theorem callsOf_concat (name : Bytes) (calls : List RecordedCall) (call : RecordedCall) :
    callsOf name (calls ++ [call]) =
      if call.decision = name then callsOf name calls ++ [call] else callsOf name calls := by
  rw [callsOf, List.filter_append, List.filter_singleton]
  split <;> simp_all [callsOf]

/-- The names of the table after a new entry. -/
theorem emplace_perm (name : Bytes) (counters : Counters) (entries : List (Bytes × Counters)) :
    (Diagnostics.emplace name counters entries).Perm ((name, counters) :: entries) := by
  induction entries with
  | nil => exact .refl _
  | cons entry entries ih =>
    rw [Diagnostics.emplace]
    split
    · exact .refl _
    · exact (ih.cons entry).trans (.swap _ _ _)

/-- A new entry goes to its place. -/
theorem emplace_sorted (hnew : name ∉ entries.map Prod.fst)
    (h : (entries.map Prod.fst).Pairwise (· < ·)) :
    ((Diagnostics.emplace name counters entries).map Prod.fst).Pairwise (· < ·) := by
  induction entries with
  | nil => simp [Diagnostics.emplace]
  | cons entry entries ih =>
    rw [List.map_cons, List.pairwise_cons] at h
    rw [List.map_cons, List.mem_cons, not_or] at hnew
    rw [Diagnostics.emplace]
    split
    · next hlt =>
      simp only [List.map_cons, List.pairwise_cons, List.mem_cons, forall_eq_or_imp]
      exact ⟨⟨hlt, fun other hother => List.lt_trans hlt (h.1 other hother)⟩, h⟩
    · next hge =>
      have hgt : entry.1 < name := by
        rcases Std.lt_trichotomy name entry.1 with hlt | heq | hgt
        · exact absurd hlt hge
        · exact absurd heq hnew.1
        · exact hgt
      rw [List.map_cons, List.pairwise_cons]
      refine ⟨fun other hother => ?_, ih hnew.2 h.2⟩
      rw [((emplace_perm name counters entries).map Prod.fst).mem_iff, List.map_cons,
        List.mem_cons] at hother
      rcases hother with rfl | hother
      · exact hgt
      · exact h.1 other hother

/-- A call of a decision of the table updates its counters. -/
theorem TableOf.found {dropped : Nat} (h : TableOf arith options calls entries dropped)
    (hfound : call.decision ∈ entries.map Prod.fst) :
    TableOf arith options (calls ++ [call])
      (entries.map fun entry => if entry.1 = call.decision
        then (entry.1, entry.2.update arith options.histogramBoundsMs call) else entry)
      dropped := by
  have htracked : call.decision ∈ trackedNames options calls := h.names.mem_iff.1 hfound
  have hnames : trackedNames options (calls ++ [call]) = trackedNames options calls := by
    rw [trackedNames, List.map_append]
    exact take_eraseDups_of_mem (mem_of_mem_trackedNames htracked)
  have hkeys : (entries.map fun entry => if entry.1 = call.decision
      then (entry.1, entry.2.update arith options.histogramBoundsMs call) else entry).map Prod.fst =
        entries.map Prod.fst := by
    rw [List.map_map]
    refine List.map_congr_left fun entry _ => ?_
    rw [Function.comp_apply]
    split <;> rfl
  refine ⟨hkeys ▸ h.sorted, ?_, fun entry hentry => ?_, ?_⟩
  · rw [hkeys, hnames]
    exact h.names
  · obtain ⟨old, hold, rfl⟩ := List.mem_map.1 hentry
    rcases eq_or_ne old.1 call.decision with heq | hne
    · rw [if_pos heq, callsOf_concat, if_pos heq.symm, countersOf_concat, h.counters old hold]
    · rw [if_neg hne, callsOf_concat, if_neg hne.symm, h.counters old hold]
  · rw [hnames, h.dropped, List.countP_append, List.countP_singleton,
      if_neg (by simpa using htracked), Nat.add_zero]

/-- A call of a new decision enters the table while there is room. -/
theorem TableOf.enter {dropped : Nat} (h : TableOf arith options calls entries dropped)
    (hnew : call.decision ∉ entries.map Prod.fst) (hroom : entries.length < options.maxDecisions) :
    TableOf arith options (calls ++ [call])
      (Diagnostics.emplace call.decision
        ((Counters.empty options.histogramBoundsMs).update arith options.histogramBoundsMs call)
        entries) dropped := by
  have hlength : (trackedNames options calls).length < options.maxDecisions := by
    rw [← h.names.length_eq, List.length_map]
    exact hroom
  rw [trackedNames, List.length_take, inf_lt_left, not_le] at hlength
  have hall : trackedNames options calls = (calls.map RecordedCall.decision).eraseDups :=
    List.take_of_length_le hlength.le
  have hunseen : call.decision ∉ calls.map RecordedCall.decision := by
    rwa [h.names.mem_iff, hall, List.mem_eraseDups] at hnew
  have hnames : trackedNames options (calls ++ [call]) =
      trackedNames options calls ++ [call.decision] := by
    rw [trackedNames, List.map_append]
    exact take_eraseDups_of_room hlength hunseen
  have hperm := emplace_perm call.decision
    ((Counters.empty options.histogramBoundsMs).update arith options.histogramBoundsMs call) entries
  refine ⟨emplace_sorted hnew h.sorted, ?_, fun entry hentry => ?_, ?_⟩
  · rw [hnames]
    exact (hperm.map Prod.fst).trans ((h.names.cons _).trans (List.perm_append_singleton _ _).symm)
  · rcases List.mem_cons.1 (hperm.mem_iff.1 hentry) with rfl | hold
    · have hnone : callsOf call.decision calls = [] := by
        refine List.filter_eq_nil_iff.2 fun other hother => ?_
        rw [decide_eq_true_eq]
        exact fun heq => hunseen (heq ▸ List.mem_map_of_mem hother)
      rw [callsOf_concat, if_pos rfl, hnone]
      rfl
    · have hne : call.decision ≠ entry.1 := fun heq => hnew (heq ▸ List.mem_map_of_mem hold)
      rw [callsOf_concat, if_neg hne]
      exact h.counters entry hold
  · rw [h.dropped, hnames, List.countP_append, List.countP_singleton, if_neg (by simp),
      Nat.add_zero]
    refine List.countP_congr fun other hother => ?_
    have hne : other.decision ≠ call.decision :=
      fun heq => hunseen (heq ▸ List.mem_map_of_mem hother)
    simp [hne]

/-- A call of a new decision is only counted as dropped when the table is full. -/
theorem TableOf.drop {dropped : Nat} (h : TableOf arith options calls entries dropped)
    (hnew : call.decision ∉ entries.map Prod.fst) (hfull : options.maxDecisions ≤ entries.length) :
    TableOf arith options (calls ++ [call]) entries (dropped + 1) := by
  have hlength : options.maxDecisions ≤ (trackedNames options calls).length := by
    rw [← h.names.length_eq, List.length_map]
    exact hfull
  rw [trackedNames, List.length_take, le_inf_iff] at hlength
  have hnames : trackedNames options (calls ++ [call]) = trackedNames options calls := by
    rw [trackedNames, List.map_append]
    exact take_eraseDups_of_full hlength.2
  refine ⟨h.sorted, hnames ▸ h.names, fun entry hentry => ?_, ?_⟩
  · have hne : call.decision ≠ entry.1 := fun heq => hnew (heq ▸ List.mem_map_of_mem hentry)
    rw [callsOf_concat, if_neg hne]
    exact h.counters entry hentry
  · have huntracked : call.decision ∉ trackedNames options calls :=
      fun hmem => hnew (h.names.mem_iff.2 hmem)
    rw [hnames, h.dropped, List.countP_append, List.countP_singleton, if_pos (by simpa)]

/-- The sampled calls after one more call. -/
theorem sampledCalls_concat (every : Nat) (calls : List RecordedCall) (call : RecordedCall) :
    sampledCalls every (calls ++ [call]) = sampledCalls every calls ++
      if every ∣ calls.length then [(call, calls.length + 1)] else [] := by
  rw [sampledCalls, List.zipIdx_append, List.filter_append, List.zipIdx_singleton,
    List.filter_singleton, sampledCalls, Nat.add_comm 1, Nat.add_sub_cancel]
  split <;> simp_all

/-- A counted call enters the window when it is sampled. -/
theorem keepRecent_recent (hoptions : d.options = options)
    (hcalls : d.total.calls = calls.length + 1)
    (hrecent : d.recent = recentOf arith options calls) :
    (d.keepRecent arith call).recent = recentOf arith options (calls ++ [call]) := by
  rw [Diagnostics.keepRecent, hoptions, hcalls, hrecent, Nat.add_sub_cancel]
  by_cases hoff : options.recentCapacity = 0 ∨ options.recentSampleEvery = 0
  · rw [if_neg (by tauto), hrecent, recentOf, recentOf, if_pos hoff, if_pos hoff]
  · rw [recentOf, recentOf, if_neg hoff, if_neg hoff, sampledCalls_concat]
    simp only [Nat.dvd_iff_mod_eq_zero]
    split
    · next hsampled =>
      rw [if_pos hsampled.2.2, List.reverse_append, List.map_append, List.reverse_singleton,
        List.map_singleton, List.singleton_append]
      exact trim_cons_take (Nat.pos_of_ne_zero hsampled.1) _ _
    · next hskipped =>
      rw [if_neg (by tauto), List.append_nil, hrecent, recentOf, if_neg hoff]

/-- What `record_call` does to the table. -/
theorem TableOf.countDecision (hoptions : d.options = options)
    (h : TableOf arith options calls d.decisions d.droppedDecisions) :
    TableOf arith options (calls ++ [call]) (d.countDecision arith call).decisions
      (d.countDecision arith call).droppedDecisions := by
  rw [Diagnostics.countDecision, hoptions]
  cases hfind : d.decisions.find? fun entry => entry.1 = call.decision with
  | some entry =>
    have hname : entry.1 = call.decision := by simpa using List.find?_some hfind
    exact h.found (hname ▸ List.mem_map_of_mem (List.mem_of_find?_eq_some hfind))
  | none =>
    have hnew : call.decision ∉ d.decisions.map Prod.fst := by
      rintro hmem
      obtain ⟨entry, hentry, hname⟩ := List.mem_map.1 hmem
      exact List.find?_eq_none.1 hfind entry hentry (decide_eq_true hname)
    by_cases hroom : d.decisions.length < options.maxDecisions
    · simp only [if_pos hroom]
      exact h.enter hnew hroom
    · simp only [if_neg hroom]
      exact h.drop hnew (Nat.not_lt.1 hroom)

/-- Counting a decision changes the table and the number of dropped calls only. -/
theorem countDecision_frame (arith : Arithmetic) (d : Diagnostics) (call : RecordedCall) :
    (d.countDecision arith call).options = d.options ∧
      (d.countDecision arith call).total = d.total ∧
      (d.countDecision arith call).recent = d.recent := by
  unfold Diagnostics.countDecision
  dsimp only
  split
  · exact ⟨rfl, rfl, rfl⟩
  · split <;> exact ⟨rfl, rfl, rfl⟩

/-- Keeping a call changes the window only. -/
theorem keepRecent_frame (arith : Arithmetic) (d : Diagnostics) (call : RecordedCall) :
    (d.keepRecent arith call).options = d.options ∧ (d.keepRecent arith call).total = d.total ∧
      (d.keepRecent arith call).decisions = d.decisions ∧
      (d.keepRecent arith call).droppedDecisions = d.droppedDecisions := by
  unfold Diagnostics.keepRecent
  split <;> exact ⟨rfl, rfl, rfl, rfl⟩

/-- A registry tracks the log through `record_call`. -/
theorem Diagnostics.Tracks.recordCall (h : Tracks arith options calls d) (call : RecordedCall) :
    Tracks arith options (calls ++ [call]) (d.recordCall arith call) := by
  have htotal : d.total.update arith options.histogramBoundsMs call =
      countersOf arith options.histogramBoundsMs (calls ++ [call]) := by
    rw [countersOf_concat, h.total_eq]
  let counted := { d with total := d.total.update arith d.options.histogramBoundsMs call }
  obtain ⟨hoptions, hcounted, hwindow⟩ := countDecision_frame arith counted call
  obtain ⟨hoptions', htotal', hdecisions, hdropped⟩ :=
    keepRecent_frame arith (counted.countDecision arith call) call
  refine ⟨hoptions'.trans (hoptions.trans h.options_eq), ?_, ?_, ?_⟩
  · rw [Diagnostics.recordCall, htotal', hcounted, ← htotal, ← h.options_eq]
  · rw [Diagnostics.recordCall, hdecisions, hdropped]
    exact TableOf.countDecision h.options_eq h.table
  · refine keepRecent_recent (hoptions.trans h.options_eq) ?_ (hwindow.trans h.recent_eq)
    rw [hcounted]
    exact congrArg (· + 1) (h.total_eq ▸ (countersOf_counts arith _ calls).1)

/-- A registry without a call. -/
theorem Diagnostics.Tracks.empty (hoptions : d.options = options)
    (htotal : d.total = .empty options.histogramBoundsMs) (hdecisions : d.decisions = [])
    (hrecent : d.recent = []) (hdropped : d.droppedDecisions = 0) : Tracks arith options [] d := by
  refine ⟨hoptions, htotal, ⟨?_, ?_, ?_, ?_⟩, ?_⟩
  · simp [hdecisions]
  · simp [hdecisions, trackedNames]
  · simp [hdecisions]
  · simp [hdropped]
  · simp [hrecent, recentOf, sampledCalls]

/-- A registry tracks the calls since the last reset through every operation. -/
theorem Diagnostics.Tracks.foldl (h : Tracks arith options [] d) (ops : List DiagnosticsOp) :
    Tracks arith options (callsSinceReset ops) (ops.foldl (Diagnostics.apply arith) d) := by
  induction ops using List.reverseRecOn with
  | nil => exact h
  | append_singleton ops op ih =>
    rw [callsSinceReset, List.foldl_append, List.foldl_append]
    cases op with
    | recordCall call => exact ih.recordCall call
    | reset =>
      refine .empty ih.options_eq ?_ rfl rfl rfl
      change Counters.empty (ops.foldl (Diagnostics.apply arith) d).options.histogramBoundsMs = _
      rw [ih.options_eq]

/-- **One snapshot.** A registry that tracks a log reports it. -/
theorem Diagnostics.Tracks.snapshotOf (h : Tracks arith options calls d)
    (hvalid : ValidBounds options.histogramBoundsMs) (now : Int) :
    SnapshotOf arith options calls (d.snapshot arith now) := by
  have hnames : (d.snapshot arith now).decisions.map DecisionSnapshot.decision =
      d.decisions.map Prod.fst := List.map_map
  have hentries : ∀ entry ∈ d.decisions,
      Summarises arith options.histogramBoundsMs (callsOf entry.1 calls)
        (makeSnapshot arith entry.2 d.options.histogramBoundsMs) := by
    intro entry hentry
    rw [h.table.counters entry hentry, h.options_eq]
    exact summarises_countersOf arith hvalid _
  refine ⟨?_, hnames ▸ h.table.sorted, hnames ▸ h.table.names, ?_, h.table.dropped, ?_, h.recent_eq⟩
  · rw [Diagnostics.snapshot, h.total_eq, h.options_eq]
    exact summarises_countersOf arith hvalid calls
  · intro entry hentry
    obtain ⟨tracked, htracked, rfl⟩ := List.mem_map.1 hentry
    exact hentries tracked htracked
  · -- Every call is one of a tracked name or dropped.
    have hcalls : ((d.snapshot arith now).decisions.map fun entry => entry.stats.calls) =
        (d.decisions.map Prod.fst).map fun name =>
          calls.countP fun call => call.decision = name := by
      rw [Diagnostics.snapshot, List.map_map, List.map_map]
      refine List.map_congr_left fun entry hentry => ?_
      exact (hentries entry hentry).calls_eq.trans List.countP_eq_length_filter.symm
    have hnodup := h.table.names.nodup_iff.2 (nodup_trackedNames options calls)
    have hlength := List.length_eq_countP_add_countP (l := calls)
      fun call => decide (call.decision ∈ trackedNames options calls)
    have htotal : (d.snapshot arith now).total.calls = calls.length :=
      (congrArg Counters.calls h.total_eq).trans (countersOf_counts arith _ calls).1
    rw [hcalls, sum_countP_eq RecordedCall.decision hnodup, htotal, hlength]
    simp [Diagnostics.snapshot, h.table.dropped, h.table.names.mem_iff]

end

/-! ## Construction -/

/-- Sorted bounds without equal neighbours increase. -/
theorem isChain_of_isSorted {bounds : List Floating} (hsorted : Diagnostics.isSorted bounds = true)
    (hdistinct : Diagnostics.hasEqualNeighbours bounds = false)
    (hfinite : ∀ bound ∈ bounds, bound.isFinite = true) :
    bounds.IsChain fun a b => a.lt b = true := by
  induction bounds using Diagnostics.isSorted.induct with
  | case1 a b rest ih =>
    rw [Diagnostics.isSorted, Bool.and_eq_true, Bool.not_eq_true'] at hsorted
    rw [Diagnostics.hasEqualNeighbours, Bool.or_eq_false_iff] at hdistinct
    have ha := hfinite a (by simp)
    have hb := hfinite b (by simp)
    refine .cons_cons ?_
      (ih hsorted.2 hdistinct.2 fun c hc => hfinite c (List.mem_cons_of_mem _ hc))
    have hle : a.le b = true :=
      (Floating.le_iff_not_lt (by rintro rfl; simp [Floating.isFinite] at ha)
        (by rintro rfl; simp [Floating.isFinite] at hb)).2 hsorted.1
    rwa [Floating.le, hdistinct.1, Bool.or_false] at hle
  | case2 bounds hshort =>
    cases bounds with
    | nil => exact .nil
    | cons a rest =>
      cases rest with
      | nil => exact .singleton a
      | cons b rest => exact absurd rfl (hshort a b rest)

/-- The constructor accepts valid bounds only, and starts without a call. -/
theorem Diagnostics.create_eq_ok {arith : Arithmetic} {options : DiagnosticsOptions}
    {d : Diagnostics} (h : create options = .ok d) :
    ValidBounds options.histogramBoundsMs ∧ Tracks arith options [] d := by
  rw [create] at h
  split at h
  · cases h
  · next hbounds =>
    obtain rfl := Except.ok.inj h
    simp only [not_or, Bool.not_eq_false, List.any_eq_true, not_exists, not_and, Bool.not_eq_true,
      Bool.or_eq_false_iff, Bool.not_eq_eq_eq_not, Bool.not_false] at hbounds
    obtain ⟨-, hsorted, hfinite, hdistinct⟩ := hbounds
    have htrans : Trans (fun a b : Floating => a.lt b = true) (fun a b => a.lt b = true)
      (fun a b => a.lt b = true) := ⟨Floating.lt_trans⟩
    have hbounds : ∀ bound ∈ options.histogramBoundsMs, bound.isFinite = true :=
      fun bound hbound => (hfinite bound hbound).1
    have hchain := isChain_of_isSorted hsorted hdistinct hbounds
    exact ⟨⟨hbounds, List.isChain_iff_pairwise.1 hchain⟩, .empty rfl rfl rfl rfl rfl⟩

/-- **A snapshot summarises the log.** -/
theorem Diagnostics.snapshot_summarises (arith : Arithmetic) {options : DiagnosticsOptions}
    {d : Diagnostics} (h : create options = .ok d) (ops : List DiagnosticsOp) (now : Int) :
    SnapshotOf arith options (callsSinceReset ops)
      ((ops.foldl (Diagnostics.apply arith) d).snapshot arith now) := by
  obtain ⟨hvalid, htracks⟩ : ValidBounds options.histogramBoundsMs ∧ Tracks arith options [] d :=
    create_eq_ok h
  exact (htracks.foldl ops).snapshotOf hvalid now

/-- Room for one decision and one recent call, and every second call sampled. -/
def narrowOptions : DiagnosticsOptions where
  recentCapacity := 1
  maxDecisions := 1
  histogramBoundsMs := [.finite 1, .finite 5]
  recentSampleEvery := 2

/-- Two decisions of which one fits, a latency at a bound, one below zero and one above all
bounds, after a call that a reset forgets. -/
def narrowOps : List DiagnosticsOp :=
  [.recordCall ⟨lit "route", .success, 0, none, {}, 0⟩, .reset,
    .recordCall ⟨lit "triage", .success, 1000000, none, ⟨7, 2⟩, 1⟩,
    .recordCall ⟨lit "route", .abstain, -5, some (lit "slow"), ⟨1, 1⟩, 2⟩,
    .recordCall ⟨lit "triage", .error, 6000000, none, {}, 3⟩]

/-- The registry for these options reports the three calls after the reset, and drops one. -/
theorem Diagnostics.snapshot_summarises_narrow :
    SnapshotOf .exact narrowOptions (callsSinceReset narrowOps)
        ((narrowOps.foldl (Diagnostics.apply .exact)
          { options := narrowOptions, total := .empty [.finite 1, .finite 5] }).snapshot .exact 9) ∧
      (callsSinceReset narrowOps).length = 3 ∧
      trackedNames narrowOptions (callsSinceReset narrowOps) = [lit "triage"] :=
  ⟨snapshot_summarises .exact (by decide) narrowOps 9, by decide, by decide⟩

end Jevt
