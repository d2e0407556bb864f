import Jevt.Diagnostics.Summary
import Jevt.Knowledge.Document
import Jevt.Library.JsonWriter
import Jevt.Library.Numeral

/-!
# The export of a snapshot

`to_json` of `src/diagnostics.cpp` in the classic locale, a text put together by hand
(`DiagnosticsSnapshot.toJson`), and the value it is meant to be (`snapshotValue`). The text is the
value as a writer of JSON writes it (`toJson_eq_write`), so that what is known of the writer holds
of the text: it denotes the value as soon as its numbers are finite (`denotes_toJson`), and it is
UTF-8 exactly when the texts in it are (`utf8_toJson_iff`).
-/

namespace Jevt

open Library Library.Json

/-! ## Values in a stream -/

/-- The turn of the loop of `json_escape` for one byte. -/
def jsonEscapeByte (c : UInt8) : Bytes :=
  if c = 0x22 then lit "\\\""
  else if c = 0x5c then lit "\\\\"
  else if c = 0x08 then lit "\\b"
  else if c = 0x0c then lit "\\f"
  else if c = 0x0a then lit "\\n"
  else if c = 0x0d then lit "\\r"
  else if c = 0x09 then lit "\\t"
  else if c < 0x20 then
    -- `std::hex << std::setw(4) << std::setfill('0')`
    lit "\\u" ++ ((Nat.toDigits 16 c.toNat).map fun c => UInt8.ofNat c.toNat).leftpad 4 0x30
  else [c]

/-- `json_escape`. -/
def jsonEscape (value : Bytes) : Bytes :=
  value.flatMap jsonEscapeByte

/-- `out << value` of a `double`, with `std::setprecision(12)`. -/
def doubleText : Floating → Bytes
  | .finite q => generalText 12 q
  | .infinite negative => if negative then lit "-inf" else lit "inf"
  | .nan => lit "nan"

/-- `to_string` of a `CallOutcome`. -/
def CallOutcome.toString : CallOutcome → Bytes
  | success => lit "success"
  | error => lit "error"
  | abstain => lit "abstain"

/-! ## The text -/

/-- `append_stats_json`. -/
def appendStatsJson (s : CounterSnapshot) : Bytes :=
  lit "\x7b\"calls\":" ++ decimal s.calls ++ lit ",\"successes\":" ++ decimal s.successes ++
    lit ",\"errors\":" ++ decimal s.errors ++ lit ",\"abstains\":" ++ decimal s.abstains ++
    lit ",\"input_tokens\":" ++ decimal s.inputTokens.toNat ++
    lit ",\"output_tokens\":" ++ decimal s.outputTokens.toNat ++
    lit ",\"latency_ms\":\x7b\"mean\":" ++ doubleText s.latencyMeanMs ++
    lit ",\"p50\":" ++ doubleText s.latencyP50Ms ++
    lit ",\"p95\":" ++ doubleText s.latencyP95Ms ++
    lit ",\"p99\":" ++ doubleText s.latencyP99Ms ++
    lit ",\"histogram\":\x7b\"bounds\":[" ++
    (lit ",").intercalate (s.latencyHistogram.boundsMs.map doubleText) ++
    lit "],\"counts\":[" ++
    (lit ",").intercalate (s.latencyHistogram.counts.map decimal) ++ lit "]\x7d\x7d\x7d"

/-- The turn of the loop over the decisions. -/
def decisionJson (entry : DecisionSnapshot) : Bytes :=
  lit "\x7b\"decision\":\"" ++ jsonEscape entry.decision ++ lit "\",\"stats\":" ++
    appendStatsJson entry.stats ++ lit "\x7d"

/-- The turn of the loop over the recent calls. -/
def recentCallJson (call : RecentCall) : Bytes :=
  lit "\x7b\"sequence\":" ++ decimal call.sequence ++
    lit ",\"unix_time_ms\":" ++ integerText call.unixTimeMs ++
    lit ",\"decision\":\"" ++ jsonEscape call.decision ++
    lit "\",\"outcome\":\"" ++ call.outcome.toString ++
    lit "\",\"latency_ms\":" ++ doubleText call.latencyMs ++
    (match call.tag with
      | some tag => lit ",\"tag\":\"" ++ jsonEscape tag ++ lit "\""
      | none => []) ++ lit "\x7d"

/-- `to_json`. -/
def DiagnosticsSnapshot.toJson (snapshot : DiagnosticsSnapshot) : Bytes :=
  lit "\x7b\"generated_at_unix_ms\":" ++ integerText snapshot.generatedAtUnixMs ++
    lit ",\"total\":" ++ appendStatsJson snapshot.total ++
    lit ",\"decisions\":[" ++ (lit ",").intercalate (snapshot.decisions.map decisionJson) ++
    lit "],\"recent_calls\":[" ++
    (lit ",").intercalate (snapshot.recentCalls.map recentCallJson) ++
    lit "],\"dropped_decisions\":" ++ decimal snapshot.droppedDecisions ++ lit "\x7d"

/-! ## The value -/

/-- The value of the counters. -/
def statsValue (s : CounterSnapshot) : Json :=
  .obj [(lit "calls", .number (decimal s.calls)), (lit "successes", .number (decimal s.successes)),
    (lit "errors", .number (decimal s.errors)), (lit "abstains", .number (decimal s.abstains)),
    (lit "input_tokens", .number (decimal s.inputTokens.toNat)),
    (lit "output_tokens", .number (decimal s.outputTokens.toNat)),
    (lit "latency_ms", .obj [(lit "mean", .number (doubleText s.latencyMeanMs)),
      (lit "p50", .number (doubleText s.latencyP50Ms)),
      (lit "p95", .number (doubleText s.latencyP95Ms)),
      (lit "p99", .number (doubleText s.latencyP99Ms)),
      (lit "histogram", .obj
        [(lit "bounds", .arr (s.latencyHistogram.boundsMs.map fun b => .number (doubleText b))),
          (lit "counts", .arr (s.latencyHistogram.counts.map fun n => .number (decimal n)))])])]

/-- The value of a decision. -/
def decisionValue (entry : DecisionSnapshot) : Json :=
  .obj [(lit "decision", .str entry.decision), (lit "stats", statsValue entry.stats)]

/-- The value of a recent call. -/
def recentCallValue (call : RecentCall) : Json :=
  .obj ([(lit "sequence", .number (decimal call.sequence)),
      (lit "unix_time_ms", .number (integerText call.unixTimeMs)),
      (lit "decision", .str call.decision), (lit "outcome", .str call.outcome.toString),
      (lit "latency_ms", .number (doubleText call.latencyMs))] ++
    match call.tag with
    | some tag => [(lit "tag", .str tag)]
    | none => [])

/-- The value of a snapshot. -/
def snapshotValue (snapshot : DiagnosticsSnapshot) : Json :=
  .obj [(lit "generated_at_unix_ms", .number (integerText snapshot.generatedAtUnixMs)),
    (lit "total", statsValue snapshot.total),
    (lit "decisions", .arr (snapshot.decisions.map decisionValue)),
    (lit "recent_calls", .arr (snapshot.recentCalls.map recentCallValue)),
    (lit "dropped_decisions", .number (decimal snapshot.droppedDecisions))]

/-! ## The escapes -/

/-- The two escapers of the library agree. -/
theorem jsonEscapeByte_eq (c : UInt8) : jsonEscapeByte c = escapeByte c := by
  have hcontrol : ∀ n < 32, lit "\\u" ++
      ((Nat.toDigits 16 n).map fun c => UInt8.ofNat c.toNat).leftpad 4 0x30 =
        lit "\\u00" ++ [hexDigit (n / 16), hexDigit (n % 16)] := by decide
  unfold jsonEscapeByte escapeByte
  split_ifs with hquote hslash hb hf hn hr ht hlow
  any_goals rfl
  exact hcontrol c.toNat hlow

/-- The escapes leave UTF-8 alone. -/
theorem keepsUtf8_jsonEscapeByte : KeepsUtf8 jsonEscapeByte :=
  keepsUtf8_of_piece fun c => jsonEscapeByte_eq c ▸ piece_escapeByte c

/-! ## The text is the value, written -/

/-- A key without anything to escape stands between quotes as it is. -/
theorem quote_plain {key : Bytes} (h : isPlain key = true) :
    quote jsonEscapeByte key = 0x22 :: key ++ [0x22] := by
  have hkey : key.flatMap jsonEscapeByte = key := by
    induction key with
    | nil => rfl
    | cons c key ih =>
      rw [isPlain, List.all_cons, Bool.and_eq_true] at h
      have hc := of_decide_eq_true h.1
      have hself : jsonEscapeByte c = [c] := by
        rw [jsonEscapeByte]
        split_ifs
        all_goals first | rfl | (exfalso; grind)
      rw [List.flatMap_cons, hself, ih h.2, List.singleton_append]
  rw [quote, hkey]

/-- The counters are written member by member. -/
theorem appendStatsJson_eq_write (s : CounterSnapshot) :
    appendStatsJson s = Json.write jsonEscapeByte (statsValue s) := by
  simp (disch := decide) only [statsValue, Json.write, writeMembers, writeItems_eq, quote_plain,
    List.intercalate_cons_cons, List.intercalate_singleton, List.map_map, Function.comp_def]
  delta appendStatsJson
  simp only [List.append_assoc, List.cons_append, List.nil_append]
  rfl

/-- A decision is written member by member. -/
theorem decisionJson_eq_write (entry : DecisionSnapshot) :
    decisionJson entry = Json.write jsonEscapeByte (decisionValue entry) := by
  simp (disch := decide) only [decisionValue, Json.write, writeMembers, quote_plain,
    List.intercalate_cons_cons, List.intercalate_singleton, ← appendStatsJson_eq_write]
  delta decisionJson jsonEscape
  generalize appendStatsJson entry.stats = stats
  simp only [quote, List.append_assoc, List.cons_append, List.nil_append]
  rfl

/-- A recent call is written member by member, the tag only if there is one. -/
theorem recentCallJson_eq_write (call : RecentCall) :
    recentCallJson call = Json.write jsonEscapeByte (recentCallValue call) := by
  have houtcome : quote jsonEscapeByte call.outcome.toString =
      0x22 :: call.outcome.toString ++ [0x22] := by
    cases call.outcome <;> rfl
  cases htag : call.tag with
  | none =>
    simp (disch := decide) only [recentCallValue, htag, Json.write, writeMembers, quote_plain,
      houtcome, List.intercalate_cons_cons, List.intercalate_singleton, List.append_nil]
    delta recentCallJson jsonEscape
    simp only [htag, quote, List.append_assoc, List.cons_append, List.nil_append]
    rfl
  | some tag =>
    simp (disch := decide) only [recentCallValue, htag, Json.write, writeMembers, quote_plain,
      houtcome, List.intercalate_cons_cons, List.intercalate_singleton, List.cons_append,
      List.nil_append]
    delta recentCallJson jsonEscape
    simp only [htag, quote, List.append_assoc, List.cons_append, List.nil_append]
    rfl

/-- **The export is the value of the snapshot, written.** -/
theorem toJson_eq_write (snapshot : DiagnosticsSnapshot) :
    snapshot.toJson = Json.write jsonEscapeByte (snapshotValue snapshot) := by
  have hdecisions : decisionJson = fun entry => Json.write jsonEscapeByte (decisionValue entry) :=
    funext decisionJson_eq_write
  have hrecent : recentCallJson = fun call => Json.write jsonEscapeByte (recentCallValue call) :=
    funext recentCallJson_eq_write
  simp (disch := decide) only [snapshotValue, Json.write, writeMembers, writeItems_eq, quote_plain,
    List.intercalate_cons_cons, List.intercalate_singleton, List.map_map, Function.comp_def,
    ← appendStatsJson_eq_write]
  delta DiagnosticsSnapshot.toJson
  rw [hdecisions, hrecent]
  generalize appendStatsJson snapshot.total = total
  simp only [List.append_assoc, List.cons_append, List.nil_append]
  rfl

/-! ## Well-formedness -/

/-- The latencies of the counters are finite. -/
structure CounterSnapshot.Finite (s : CounterSnapshot) : Prop where
  mean : s.latencyMeanMs.isFinite = true
  p50 : s.latencyP50Ms.isFinite = true
  p95 : s.latencyP95Ms.isFinite = true
  p99 : s.latencyP99Ms.isFinite = true
  bounds : ∀ bound ∈ s.latencyHistogram.boundsMs, bound.isFinite = true

/-- The latencies of a snapshot are finite. -/
structure DiagnosticsSnapshot.Finite (snapshot : DiagnosticsSnapshot) : Prop where
  total : snapshot.total.Finite
  decisions : ∀ entry ∈ snapshot.decisions, entry.stats.Finite
  recent : ∀ call ∈ snapshot.recentCalls, call.latencyMs.isFinite = true

/-- A finite `double` is written as a number. -/
theorem isNumber_doubleText {value : Floating} (h : value.isFinite = true) :
    isNumber (doubleText value) = true := by
  cases value with
  | finite q => exact isNumber_generalText (by decide) q
  | infinite negative => cases h
  | nan => cases h

/-- A numeral is a number. -/
theorem isNumber_decimal (n : Nat) : isNumber (decimal n) = true := by
  simpa using (numberParts_decimal n).isNumber

section
variable {P : Bytes → Prop} {snapshot : DiagnosticsSnapshot}

/-- What holds of every ASCII text holds of ASCII keys. -/
theorem holds_keys (hascii : ∀ s : Bytes, (s.all fun b => decide (b < 0x80)) = true → P s)
    {members : List (Bytes × Json)}
    (h : ((members.map Prod.fst).all fun key => key.all fun b => decide (b < 0x80)) = true) :
    ∀ member ∈ members, P member.1 := by
  intro member hmember
  have hkey := List.all_eq_true.1 h member.1 (List.mem_map_of_mem hmember)
  exact hascii _ hkey

/-- The value of finite counters has numbers and ASCII keys only. -/
theorem holds_statsValue (hascii : ∀ s : Bytes, (s.all fun b => decide (b < 0x80)) = true → P s)
    {s : CounterSnapshot} (h : s.Finite) : Holds P (statsValue s) := by
  have hbounds : Holds P (.arr (s.latencyHistogram.boundsMs.map fun b =>
      .number (doubleText b))) := by
    refine .arr fun item hitem => ?_
    obtain ⟨bound, hbound, rfl⟩ := List.mem_map.1 hitem
    exact .number (isNumber_doubleText (h.bounds bound hbound))
  have hcounts : Holds P (.arr (s.latencyHistogram.counts.map fun n => .number (decimal n))) := by
    refine .arr fun item hitem => ?_
    obtain ⟨n, -, rfl⟩ := List.mem_map.1 hitem
    exact .number (isNumber_decimal n)
  have hnumber : ∀ n, Holds P (.number (decimal n)) := fun n => .number (isNumber_decimal n)
  refine .obj (holds_keys hascii rfl) ?_
  simp only [List.forall_mem_cons, hnumber, true_and, List.not_mem_nil, false_imp_iff,
    implies_true, and_true]
  refine .obj (holds_keys hascii rfl) ?_
  simp only [List.forall_mem_cons, List.not_mem_nil, false_imp_iff, implies_true, and_true]
  refine ⟨.number (isNumber_doubleText h.mean), .number (isNumber_doubleText h.p50),
    .number (isNumber_doubleText h.p95), .number (isNumber_doubleText h.p99), ?_⟩
  refine .obj (holds_keys hascii rfl) ?_
  simp only [List.forall_mem_cons, List.not_mem_nil, false_imp_iff, implies_true, and_true]
  exact ⟨hbounds, hcounts⟩

/-- What a value is made of, when its texts are known. -/
theorem holds_snapshotValue (hascii : ∀ s : Bytes, (s.all fun b => decide (b < 0x80)) = true → P s)
    (hfinite : snapshot.Finite) (hnames : ∀ entry ∈ snapshot.decisions, P entry.decision)
    (hcalls : ∀ call ∈ snapshot.recentCalls, P call.decision)
    (htags : ∀ call ∈ snapshot.recentCalls, ∀ tag, call.tag = some tag → P tag) :
    Holds P (snapshotValue snapshot) := by
  have hinteger : ∀ n, Holds P (.number (integerText n)) := fun n =>
    .number (isNumber_integerText n)
  have hnumber : ∀ n, Holds P (.number (decimal n)) := fun n => .number (isNumber_decimal n)
  have hdecisions : Holds P (.arr (snapshot.decisions.map decisionValue)) := by
    refine .arr fun item hitem => ?_
    obtain ⟨entry, hentry, rfl⟩ := List.mem_map.1 hitem
    refine .obj (holds_keys hascii rfl) ?_
    simp only [List.forall_mem_cons, List.not_mem_nil, false_imp_iff, implies_true, and_true]
    exact ⟨.str (hnames entry hentry), holds_statsValue hascii (hfinite.decisions entry hentry)⟩
  have hrecent : Holds P (.arr (snapshot.recentCalls.map recentCallValue)) := by
    refine .arr fun item hitem => ?_
    obtain ⟨call, hcall, rfl⟩ := List.mem_map.1 hitem
    have houtcome : P call.outcome.toString := by
      cases call.outcome <;> exact hascii _ rfl
    have htag := htags call hcall
    unfold recentCallValue
    refine .obj ?_ ?_
    · cases hoptional : call.tag with
      | none => exact holds_keys hascii rfl
      | some tag => exact holds_keys hascii rfl
    · cases hoptional : call.tag with
      | none =>
        simp only [List.append_nil, List.forall_mem_cons, hinteger, hnumber, true_and,
          List.not_mem_nil, false_imp_iff, implies_true, and_true]
        exact ⟨.str (hcalls call hcall), .str houtcome,
          .number (isNumber_doubleText (hfinite.recent call hcall))⟩
      | some tag =>
        simp only [List.cons_append, List.nil_append, List.forall_mem_cons, hinteger, hnumber,
          true_and, List.not_mem_nil, false_imp_iff, implies_true, and_true]
        exact ⟨.str (hcalls call hcall), .str houtcome,
          .number (isNumber_doubleText (hfinite.recent call hcall)), .str (htag tag hoptional)⟩
  refine .obj (holds_keys hascii rfl) ?_
  simp only [List.forall_mem_cons, hinteger, hnumber, true_and, List.not_mem_nil, false_imp_iff,
    implies_true, and_true]
  exact ⟨holds_statsValue hascii hfinite.total, hdecisions, hrecent⟩

/-- The tag of a recent call occurs in the value. -/
theorem occurs_tag {call : RecentCall} {tag : Bytes} (hcall : call ∈ snapshot.recentCalls)
    (htag : call.tag = some tag) : Occurs tag (snapshotValue snapshot) := by
  have hrecent : Occurs tag (recentCallValue call) := by
    rw [recentCallValue, htag]
    exact .obj (List.mem_append_right _ List.mem_cons_self) .str
  have hmember : (lit "recent_calls", Json.arr (snapshot.recentCalls.map recentCallValue)) ∈
      [(lit "generated_at_unix_ms", .number (integerText snapshot.generatedAtUnixMs)),
        (lit "total", statsValue snapshot.total),
        (lit "decisions", .arr (snapshot.decisions.map decisionValue)),
        (lit "recent_calls", .arr (snapshot.recentCalls.map recentCallValue)),
        (lit "dropped_decisions", .number (decimal snapshot.droppedDecisions))] := by simp
  exact .obj hmember (.arr (List.mem_map_of_mem hcall) hrecent)

/-- **The export of finite counters denotes the snapshot**, whatever bytes its texts hold. -/
theorem denotes_toJson (hfinite : snapshot.Finite) :
    Denotes (snapshotValue snapshot) snapshot.toJson := by
  rw [toJson_eq_write]
  exact denotes_write keepsUtf8_jsonEscapeByte.piece
    (holds_snapshotValue (P := fun _ => True) (fun _ _ => trivial) hfinite (fun _ _ => trivial)
      (fun _ _ => trivial) fun _ _ _ _ => trivial)

/-- **The export is UTF-8 exactly when the tags in it are**, provided the names in it are. -/
theorem utf8_toJson_iff (hfinite : snapshot.Finite)
    (hnames : ∀ entry ∈ snapshot.decisions, Utf8 entry.decision)
    (hcalls : ∀ call ∈ snapshot.recentCalls, Utf8 call.decision) :
    Utf8 snapshot.toJson ↔
      ∀ call ∈ snapshot.recentCalls, ∀ tag, call.tag = some tag → Utf8 tag := by
  rw [toJson_eq_write]
  refine ⟨fun h call hcall tag htag => ?_, fun htags => ?_⟩
  · exact utf8_of_occurs keepsUtf8_jsonEscapeByte h (occurs_tag hcall htag)
  · exact utf8_write keepsUtf8_jsonEscapeByte
      (holds_snapshotValue (fun _ => utf8_of_all) hfinite hnames hcalls htags)

end

end Jevt
