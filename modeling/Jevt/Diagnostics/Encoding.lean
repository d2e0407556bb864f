import Jevt.Core.Format
import Jevt.Diagnostics.Export

/-!
# The encoding of the export

For a registry that has recorded well-formed calls every latency in a snapshot is finite: a sum of
latencies stops growing when it is so large that it absorbs them (`countersOf_bounded`). The export
is therefore always a text of the JSON grammar. It is UTF-8 exactly when `record_call` has cut no
tag it keeps inside a character (`toJson_encodes_iff`), since the cut is made after a number of
bytes.
-/

namespace Jevt

open Library Library.Json

/-! ## Finite latencies -/

namespace Floating

variable {a b : Floating}

/-- The greater of zero and what a bound exceeds is a number up to the bound. -/
theorem exists_max_zero {q : ℚ} (hq : 0 ≤ q) (h : a.le (.finite q) = true) :
    ∃ r, max zero a = .finite r ∧ 0 ≤ r ∧ r ≤ q := by
  unfold max
  split
  · next hlt =>
    have hle : (finite 0).le a = true := by
      rw [le, Bool.or_eq_true]
      exact .inl hlt
    exact eq_finite_of_le hle h
  · exact ⟨0, rfl, le_rfl, hq⟩

/-- The greater of two finite values is finite. -/
theorem isFinite_max (ha : a.isFinite = true) (hb : b.isFinite = true) :
    (max a b).isFinite = true := by
  unfold max
  split
  · exact hb
  · exact ha

end Floating

section
variable {arith : Arithmetic}

/-- A latency of 64 bits is a number below `2 ^ 63`. -/
theorem exists_latencyMs (h : arith.Formats) {latency : Int} (hlatency : latency < 2 ^ 63) :
    ∃ x, latencyMs arith latency = .finite x ∧ 0 ≤ x ∧ x ≤ 2 ^ 63 := by
  have hmega : arith.double 1000000 = .finite 1000000 := by
    have hexact := h.double.integer 1000000 (by norm_num)
    push_cast at hexact
    exact hexact
  have hbound : (arith.double latency).le (.finite (2 ^ 63)) = true := by
    have hmono := h.double.mono latency (2 ^ 63) (by exact_mod_cast hlatency.le)
    rwa [h.double.pow (by norm_num)] at hmono
  refine Floating.exists_max_zero (by positivity) ?_
  rw [hmega]
  cases hvalue : arith.double latency with
  | nan => exact absurd hvalue (Floating.ne_nan_of_le hbound).1
  | infinite negative =>
    cases negative with
    | true =>
      have hpos : ¬ (1000000 : ℚ) < 0 := by norm_num
      simp [Floating.div, Floating.le, Floating.lt, Floating.isNegative, hpos]
    | false => simp [hvalue, Floating.le, Floating.lt, Floating.eq] at hbound
  | finite a =>
    have ha : a ≤ 2 ^ 63 := by
      rw [hvalue] at hbound
      exact Floating.finite_le_iff.1 hbound
    have hmono := h.double.mono (a / 1000000) (2 ^ 63) (by linarith)
    rw [h.double.pow (by norm_num)] at hmono
    simpa [Floating.div] using hmono

/-- Counters whose sum is below a power of two, and whose maximum is finite. -/
structure Counters.Bounded (e : ℕ) (counters : Counters) : Prop where
  sum : ∃ s, counters.latencySumMs = .finite s ∧ 0 ≤ s ∧ s ≤ 2 ^ e
  max : counters.latencyMaxMs.isFinite = true

/-- **The sum of the latencies stops growing.** However many calls there are, it stays below a power
of two that absorbs one latency. -/
theorem countersOf_bounded (h : arith.Formats) (boundsMs : List Floating) :
    ∃ e ≤ 512, ∀ calls : List RecordedCall, (∀ call ∈ calls, call.latency < 2 ^ 63) →
      (countersOf arith boundsMs calls).Bounded e := by
  obtain ⟨precision, -, hprecision, hformat⟩ := h.longDouble
  refine ⟨63 + precision, by omega, fun calls hcalls => ?_⟩
  induction calls using List.reverseRecOn with
  | nil => exact ⟨⟨0, rfl, le_rfl, by positivity⟩, rfl⟩
  | append_singleton calls call ih =>
    obtain ⟨⟨s, hs, hs0, hsmax⟩, hmax⟩ := ih fun other hother =>
      hcalls other (List.mem_append_left _ hother)
    obtain ⟨x, hx, hx0, hxmax⟩ := exists_latencyMs h (hcalls call (by simp))
    obtain ⟨y, hy, hy0, hymax⟩ := hformat.exists_finite (by norm_num) hx0 hxmax
    rw [countersOf_concat, Counters.update]
    refine ⟨?_, ?_⟩
    · have habsorbed : y * 2 ^ precision ≤ 2 ^ (63 + precision) := by
        rw [pow_add]
        exact mul_le_mul_of_nonneg_right hymax (by positivity)
      have hadd := hformat.exists_finite_add (by omega) hs0 hsmax hy0 habsorbed
      simpa [hs, hx, Floating.convert, hy, Floating.add] using hadd
    · refine Floating.isFinite_max hmax ?_
      rw [hx]
      rfl

/-- The loop of `percentile` ends with a bound or with the maximum. -/
theorem isFinite_percentileFrom {boundsMs : List Floating} {latencyMaxMs : Floating}
    (hbounds : ∀ bound ∈ boundsMs, bound.isFinite = true) (hmax : latencyMaxMs.isFinite = true)
    (rank i cumulative : Nat) (counts : List Nat) :
    (percentileFrom boundsMs latencyMaxMs rank i cumulative counts).isFinite = true := by
  induction counts generalizing i cumulative with
  | nil => rfl
  | cons count rest ih =>
    rw [percentileFrom]
    split
    · rw [List.getD_eq_getElem?_getD]
      cases hget : boundsMs[i]? with
      | none => exact hmax
      | some bound => exact hbounds bound (List.mem_of_getElem? hget)
    · exact ih _ _

/-- The snapshot of bounded counters is finite. -/
theorem Counters.Bounded.makeSnapshot (h : arith.Formats) {e : ℕ} (he : e ≤ 512)
    {counters : Counters} (hcounters : counters.Bounded e) {boundsMs : List Floating}
    (hbounds : ∀ bound ∈ boundsMs, bound.isFinite = true) :
    (makeSnapshot arith counters boundsMs).Finite := by
  have hpercentile : ∀ quantile,
      (percentile arith counters boundsMs quantile).isFinite = true := by
    intro quantile
    rw [percentile]
    split
    · rfl
    · exact isFinite_percentileFrom hbounds hcounters.max _ _ _ _
  refine ⟨?_, hpercentile _, hpercentile _, hpercentile _, hbounds⟩
  obtain ⟨precision, -, -, hformat⟩ := h.longDouble
  obtain ⟨s, hs, hs0, hsmax⟩ := hcounters.sum
  have hzero : (Floating.zero.convert arith.double).isFinite = true := by
    rw [Floating.zero, Floating.convert, h.double.zero]
    rfl
  rw [Jevt.makeSnapshot]
  dsimp only
  split
  · rfl
  · next hcalls =>
    -- the number of calls is rounded to one or more, or to infinity
    have hone : (Floating.finite 1).le (arith.longDouble counters.calls) = true := by
      have hmono := hformat.mono 1 counters.calls (by
        exact_mod_cast Nat.one_le_iff_ne_zero.2 hcalls)
      have hexact := hformat.integer 1 (by
        rw [abs_one]
        exact one_le_pow₀ one_le_two)
      rw [Int.cast_one] at hexact
      rwa [hexact] at hmono
    rw [hs]
    cases hvalue : arith.longDouble counters.calls with
    | nan => exact absurd hvalue (Floating.ne_nan_of_le hone).2
    | infinite negative => simpa [Floating.div] using hzero
    | finite c =>
      have hc : 1 ≤ c := by
        rw [hvalue] at hone
        exact Floating.finite_le_iff.1 hone
      have hquotient : s / c ≤ 2 ^ e := (div_le_self hs0 hc).trans hsmax
      obtain ⟨r, hr, hr0, hrmax⟩ := hformat.exists_finite he
        (div_nonneg hs0 (zero_le_one.trans hc)) hquotient
      obtain ⟨r', hr', -, -⟩ := h.double.exists_finite he hr0 hrmax
      have hne : c ≠ 0 := by linarith
      simp [Floating.div, hne, hr, Floating.convert, hr', Floating.isFinite]

/-- The snapshot of a registry that tracks a log of such calls is finite. -/
theorem Diagnostics.Tracks.finite_snapshot {options : DiagnosticsOptions}
    {calls : List RecordedCall} {d : Diagnostics} (htracks : d.Tracks arith options calls)
    (h : arith.Formats) (hbounds : ∀ bound ∈ options.histogramBoundsMs, bound.isFinite = true)
    (hcalls : ∀ call ∈ calls, call.latency < 2 ^ 63) (now : Int) :
    (d.snapshot arith now).Finite := by
  obtain ⟨e, he, hbounded⟩ := countersOf_bounded h options.histogramBoundsMs
  refine ⟨?_, fun entry hentry => ?_, fun recent hrecent => ?_⟩
  · rw [Diagnostics.snapshot, htracks.total_eq, htracks.options_eq]
    exact (hbounded calls hcalls).makeSnapshot h he hbounds
  · obtain ⟨tracked, htracked, rfl⟩ := List.mem_map.1 hentry
    rw [htracks.options_eq, htracks.table.counters tracked htracked]
    exact (hbounded _ fun call hcall => hcalls call (List.mem_of_mem_filter hcall)).makeSnapshot h
      he hbounds
  · rw [Diagnostics.snapshot, htracks.recent_eq, recentOf] at hrecent
    split at hrecent
    · cases hrecent
    · obtain ⟨numbered, hnumbered, rfl⟩ := List.mem_map.1 (List.mem_of_mem_take hrecent)
      have hmem : numbered.1 ∈ calls :=
        List.fst_mem_of_mem_zipIdx (List.mem_of_mem_filter (List.mem_reverse.1 hnumbered))
      obtain ⟨x, hx, -, -⟩ := exists_latencyMs h (hcalls numbered.1 hmem)
      rw [Diagnostics.recentCall, hx]
      rfl

end

/-! ## Tags -/

/-- The calls `recent_calls` keeps: the newest sampled ones. -/
def keptCalls (options : DiagnosticsOptions) (calls : List RecordedCall) : List RecordedCall :=
  if options.recentCapacity = 0 ∨ options.recentSampleEvery = 0 then []
  else
    ((sampledCalls options.recentSampleEvery calls).reverse.map Prod.fst).take
      options.recentCapacity

/-- A cut after a number of bytes falls inside a character: the byte behind it continues one. -/
def CutsCharacter (length : Nat) (tag : Bytes) : Prop :=
  ∃ b, tag[length]? = some b ∧ IsTail b

/-- A call with texts in UTF-8 and a latency of 64 bits. -/
structure RecordedCall.WellFormed (call : RecordedCall) : Prop where
  decision : Utf8 call.decision
  tag : ∀ tag, call.tag = some tag → Utf8 tag
  latency : -2 ^ 63 ≤ call.latency ∧ call.latency < 2 ^ 63

/-- What the export of a registry with a log has to be. -/
structure Encodes (options : DiagnosticsOptions) (calls : List RecordedCall)
    (snapshot : DiagnosticsSnapshot) (text : Bytes) : Prop where
  utf8 : Utf8 text
  denotes : Denotes (snapshotValue snapshot) text
  decoded : decode text = some (snapshotValue snapshot)
  names : (snapshot.decisions.map DecisionSnapshot.decision).Perm (trackedNames options calls)
  tags : ∀ recent ∈ snapshot.recentCalls, ∃ call ∈ calls, recent.decision = call.decision ∧
    (recent.tag = none ↔ call.tag = none) ∧ ∀ tag, recent.tag = some tag →
      ∃ whole, call.tag = some whole ∧ tag <+: whole ∧ tag.length ≤ options.maxTagLength

section
variable {arith : Arithmetic} {options : DiagnosticsOptions} {calls : List RecordedCall}

/-- A kept call has been recorded. -/
theorem mem_of_mem_keptCalls {call : RecordedCall} (h : call ∈ keptCalls options calls) :
    call ∈ calls := by
  rw [keptCalls] at h
  split at h
  · cases h
  · obtain ⟨numbered, hnumbered, rfl⟩ := List.mem_map.1 (List.mem_of_mem_take h)
    exact List.fst_mem_of_mem_zipIdx (List.mem_of_mem_filter (List.mem_reverse.1 hnumbered))

/-- The texts of the recent calls are those of the kept calls, the tags cut. -/
theorem map_recentOf (arith : Arithmetic) (options : DiagnosticsOptions)
    (calls : List RecordedCall) :
    (recentOf arith options calls).map (fun recent => (recent.decision, recent.tag)) =
      (keptCalls options calls).map fun call =>
        (call.decision, call.tag.map fun tag => tag.take options.maxTagLength) := by
  rw [recentOf, keptCalls]
  split
  · rfl
  · rw [List.map_take, List.map_take, List.map_map, List.map_map]
    rfl

/-- The tags of the recent calls are UTF-8 exactly when none of them is cut inside a character. -/
theorem utf8_tags_iff (hcalls : ∀ call ∈ calls, call.WellFormed) :
    (∀ recent ∈ recentOf arith options calls, ∀ tag, recent.tag = some tag → Utf8 tag) ↔
      ∀ call ∈ keptCalls options calls, ∀ tag, call.tag = some tag →
        ¬ CutsCharacter options.maxTagLength tag := by
  have hrecent : (∀ recent ∈ recentOf arith options calls, ∀ tag, recent.tag = some tag →
      Utf8 tag) ↔ ∀ texts ∈ (recentOf arith options calls).map
        (fun recent => (recent.decision, recent.tag)), ∀ tag, texts.2 = some tag → Utf8 tag := by
    simp
  rw [hrecent, map_recentOf, List.forall_mem_map]
  refine forall₂_congr fun call hcall => ?_
  have hwhole := (hcalls call (mem_of_mem_keptCalls hcall)).tag
  cases htag : call.tag with
  | none => simp
  | some whole =>
    have hcut := utf8_take_iff (hwhole whole htag) options.maxTagLength
    simpa [CutsCharacter] using hcut

/-- The tags of the recent calls are cut from those of recorded calls. -/
theorem exists_call_of_mem_recentOf {recent : RecentCall}
    (h : recent ∈ recentOf arith options calls) : ∃ call ∈ calls,
      recent.decision = call.decision ∧ (recent.tag = none ↔ call.tag = none) ∧
      ∀ tag, recent.tag = some tag →
        ∃ whole, call.tag = some whole ∧ tag <+: whole ∧ tag.length ≤ options.maxTagLength := by
  have hmem : (recent.decision, recent.tag) ∈ (recentOf arith options calls).map
      (fun recent => (recent.decision, recent.tag)) := List.mem_map_of_mem h
  rw [map_recentOf] at hmem
  obtain ⟨call, hcall, htexts⟩ := List.mem_map.1 hmem
  obtain ⟨hdecision, htag⟩ := Prod.mk.inj htexts
  refine ⟨call, mem_of_mem_keptCalls hcall, hdecision.symm, ?_, fun tag hsome => ?_⟩
  · rw [← htag, Option.map_eq_none_iff]
  · rw [← htag] at hsome
    obtain ⟨whole, hwhole, rfl⟩ := Option.map_eq_some_iff.1 hsome
    exact ⟨whole, hwhole, List.take_prefix _ _, List.length_take_le _ _⟩

end

/-- **The export of a registry.** Whatever well-formed calls have been recorded, the export is the
encoding of its snapshot exactly when no tag among the calls it keeps is cut inside a character. -/
theorem toJson_encodes_iff {arith : Arithmetic} (harith : arith.Formats)
    {options : DiagnosticsOptions} {d : Diagnostics} (hcreate : Diagnostics.create options = .ok d)
    (ops : List DiagnosticsOp) (hcalls : ∀ call ∈ callsSinceReset ops, call.WellFormed)
    (now : Int) :
    Encodes options (callsSinceReset ops)
        ((ops.foldl (Diagnostics.apply arith) d).snapshot arith now)
        ((ops.foldl (Diagnostics.apply arith) d).snapshot arith now).toJson ↔
      ∀ call ∈ keptCalls options (callsSinceReset ops), ∀ tag, call.tag = some tag →
        ¬ CutsCharacter options.maxTagLength tag := by
  obtain ⟨hvalid, hempty⟩ : ValidBounds options.histogramBoundsMs ∧ d.Tracks arith options [] :=
    Diagnostics.create_eq_ok hcreate
  have htracks := hempty.foldl ops
  have hfinite := htracks.finite_snapshot harith hvalid.finite
    (fun call hcall => (hcalls call hcall).latency.2) now
  have hsnapshot := htracks.snapshotOf hvalid now
  have hrecorded : ∀ name ∈ (callsSinceReset ops).map RecordedCall.decision, Utf8 name := by
    intro name hname
    obtain ⟨call, hcall, rfl⟩ := List.mem_map.1 hname
    exact (hcalls call hcall).decision
  have hutf8 := utf8_toJson_iff hfinite
    (fun entry hentry => hrecorded _ (mem_of_mem_trackedNames
      (hsnapshot.names.mem_iff.1 (List.mem_map_of_mem hentry))))
    (fun recent hrecent => by
      rw [hsnapshot.recent] at hrecent
      obtain ⟨call, hcall, hdecision, -⟩ := exists_call_of_mem_recentOf hrecent
      rw [hdecision]
      exact (hcalls call hcall).decision)
  rw [← @utf8_tags_iff arith options _ hcalls, ← hsnapshot.recent, ← hutf8]
  refine ⟨Encodes.utf8, fun h => ⟨h, denotes_toJson hfinite,
    decode_eq_of_denotes (denotes_toJson hfinite), hsnapshot.names, fun recent hrecent => ?_⟩⟩
  rw [hsnapshot.recent] at hrecent
  exact exists_call_of_mem_recentOf hrecent

/-- One bucket bound, and tags of a number of bytes. -/
def tagOptions (maxTagLength : Nat) : DiagnosticsOptions where
  maxTagLength := maxTagLength
  histogramBoundsMs := [.finite 1]

/-- A call whose tag is a letter of two bytes and a quote. -/
def accentCall : RecordedCall where
  decision := lit "route"
  outcome := .success
  latency := 0
  tag := some [0xc3, 0xa9, 0x22]

/-- The texts of this call are UTF-8. -/
theorem wellFormed_accentCall : accentCall.WellFormed := by
  refine ⟨utf8_of_all (by decide), fun tag htag => ?_, by decide⟩
  obtain rfl := Option.some.inj htag
  exact .two (by decide) ⟨by decide, by decide⟩ (.one (by decide) .nil)

/-- The registry for these options encodes the call when a tag may have two bytes. -/
theorem toJson_encodes_iff_accent :
    Encodes (tagOptions 2) [accentCall]
      (([DiagnosticsOp.recordCall accentCall].foldl (Diagnostics.apply .ieee)
        { options := tagOptions 2, total := .empty [.finite 1] }).snapshot .ieee 0)
      (([DiagnosticsOp.recordCall accentCall].foldl (Diagnostics.apply .ieee)
        { options := tagOptions 2, total := .empty [.finite 1] }).snapshot .ieee 0).toJson := by
  have hkept : keptCalls (tagOptions 2) (callsSinceReset [.recordCall accentCall]) =
      [accentCall] := by decide
  refine (toJson_encodes_iff Arithmetic.ieee_formats (by decide) [.recordCall accentCall]
    (by simpa [callsSinceReset] using wellFormed_accentCall) 0).2 ?_
  rw [hkept]
  rintro call hcall tag htag ⟨b, hb, hcontinues⟩
  obtain rfl := List.mem_singleton.1 hcall
  obtain rfl := Option.some.inj htag
  obtain rfl := Option.some.inj hb
  exact absurd hcontinues.1 (by decide)

/-- With tags of one byte the export of the same well-formed call is not UTF-8. -/
theorem not_utf8_toJson_accent :
    Diagnostics.create (tagOptions 1) =
        .ok { options := tagOptions 1, total := .empty [.finite 1] } ∧
      accentCall.WellFormed ∧
      ¬ Utf8 ((Diagnostics.recordCall .ieee
        { options := tagOptions 1, total := .empty [.finite 1] } accentCall).snapshot
          .ieee 0).toJson := by
  refine ⟨by decide, wellFormed_accentCall, fun hutf8 => ?_⟩
  obtain ⟨-, hempty⟩ : ValidBounds (tagOptions 1).histogramBoundsMs ∧
      Diagnostics.Tracks .ieee (tagOptions 1) []
        { options := tagOptions 1, total := .empty [.finite 1] } :=
    Diagnostics.create_eq_ok (by decide)
  have hrecent := (hempty.recordCall accentCall).recent_eq
  rw [List.nil_append] at hrecent
  have htexts := map_recentOf .ieee (tagOptions 1) [accentCall]
  have hkept : (keptCalls (tagOptions 1) [accentCall]).map (fun call =>
      (call.decision, call.tag.map fun tag => tag.take (tagOptions 1).maxTagLength)) =
        [(lit "route", some [0xc3])] := by decide
  have hcut : (lit "route", some [0xc3]) ∈ (recentOf .ieee (tagOptions 1) [accentCall]).map
      fun recent => (recent.decision, recent.tag) := by
    rw [htexts, hkept]
    exact List.mem_singleton_self _
  obtain ⟨recent, hmem, htext⟩ := List.mem_map.1 hcut
  rw [← hrecent] at hmem
  -- the first byte of the letter has lost its second
  rw [toJson_eq_write] at hutf8
  have hbroken : Utf8 [0xc3] := utf8_of_occurs keepsUtf8_jsonEscapeByte hutf8
    (occurs_tag hmem (Prod.mk.inj htext).2)
  cases hbroken with
  | one ha => exact absurd ha (by decide)

end Jevt
