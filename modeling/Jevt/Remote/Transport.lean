import Jevt.Library.Find
import Jevt.Library.HttpMessage
import Jevt.Library.OrderedMap
import Jevt.Remote.Send
import Mathlib.Data.List.TakeWhile

/-!
# The HTTP transport

`curl_transport` of `src/curl_transport.cpp`, around the transfers of libcurl. What libcurl does in
a call of `perform` is an argument (`Transfer`): the calls of its two callbacks in each turn of the
event loop, and the results of its functions.

The callbacks put the response together from pieces of any size (`received_spec`), so a message is
received as it is when its parts are within the limits (`message_received`), and `perform` returns a
response only in time and only as a whole (`perform_contract`). The headers of a request are lines
of their own (`headers_sent`).
-/

namespace Jevt.CurlTransport

open Library

-- An assignment to the map of headers needs these of its keys.
local instance : LawfulBEq Bytes := inferInstance
local instance : Std.Trichotomous (α := Bytes) (· < ·) := inferInstance
local instance : IsTrans Bytes (· < ·) := inferInstance

/-- `SIZE_MAX`. -/
def sizeMax : Nat := 2 ^ 64 - 1

/-! ## The callbacks -/

/-- `receive_state`, without the status of its response, which `perform` sets. -/
structure ReceiveState where
  headers : OrderedMap Bytes Bytes := .empty
  body : Bytes := []
  limit : Nat
  headerBytes : Nat := 0
  overflow : Bool := false
  allocationFailed : Bool := false
  deriving DecidableEq

/-- A call of a callback, with its arguments, and whether the memory it asks for is there. -/
structure Callback where
  isHeader : Bool
  data : Bytes
  size : Nat
  count : Nat
  allocates : Bool
  deriving DecidableEq

/-- `receive_body`. -/
def receiveBody (state : ReceiveState) (data : Bytes) (size count : Nat) (allocates : Bool) :
    ReceiveState × Nat :=
  if size ≠ 0 ∧ sizeMax / size < count then ({ state with overflow := true }, 0)
  else
    let bytes := size * count
    if sizeSub state.limit state.body.length < bytes then ({ state with overflow := true }, 0)
    else if allocates then ({ state with body := state.body ++ data.take bytes }, bytes)
    else ({ state with allocationFailed := true }, 0)

/-- What the two loops of `receive_header` leave of a value. -/
def trimValue (value : Bytes) : Bytes :=
  ((value.dropWhile fun c => c = 0x20 ∨ c = 0x09).reverse.dropWhile fun c =>
    c = 0x0d ∨ c = 0x0a ∨ c = 0x20 ∨ c = 0x09).reverse

/-- What `receive_header` makes of a line. -/
def receiveLine (headers : OrderedMap Bytes Bytes) (line : Bytes) : OrderedMap Bytes Bytes :=
  if lit "HTTP/" <+: line then .empty
  else match find [0x3a] line with
    | some colon => headers.assign (lower (line.take colon)) (trimValue (line.drop (colon + 1)))
    | none => headers

/-- `receive_header`. -/
def receiveHeader (state : ReceiveState) (data : Bytes) (size count : Nat) (allocates : Bool) :
    ReceiveState × Nat :=
  if size ≠ 0 ∧ sizeMax / size < count then ({ state with overflow := true }, 0)
  else
    let bytes := size * count
    if sizeSub 65536 state.headerBytes < bytes then ({ state with overflow := true }, 0)
    else
      let counted := { state with headerBytes := state.headerBytes + bytes }
      if allocates then
        ({ counted with headers := receiveLine state.headers (data.take bytes) }, bytes)
      else ({ counted with allocationFailed := true }, 0)

/-- The state behind a call of a callback. -/
def receive (state : ReceiveState) (c : Callback) : ReceiveState :=
  if c.isHeader then (receiveHeader state c.data c.size c.count c.allocates).1
  else (receiveBody state c.data c.size c.count c.allocates).1

/-- What a callback returns. -/
def returned (state : ReceiveState) (c : Callback) : Nat :=
  if c.isHeader then (receiveHeader state c.data c.size c.count c.allocates).2
  else (receiveBody state c.data c.size c.count c.allocates).2

/-! ## A call -/

/-- The results of a transfer that `perform` tells apart. -/
inductive CurlCode where
  | ok
  | operationTimedout
  | other
  deriving DecidableEq, Repr

/-- What libcurl does in one turn of the event loop: `curl_multi_perform` succeeds or not, with the
callbacks it calls and `running` behind it, and `curl_multi_poll`. -/
structure LoopTurn where
  performs : Bool := true
  callbacks : List Callback := []
  running : Bool
  polls : Bool := true
  deriving DecidableEq

/-- What a call of `perform` sees of the outside: the clock and the stop sources at each reading,
and the results of libcurl. `connects` is false when a new connection is needed and cannot be
made. -/
structure Transfer where
  env : Nat → Environment
  connects : Bool := true
  appends : Nat → Bool := fun _ => true
  configures : Bool := true
  turn : Nat → LoopTurn
  code : CurlCode
  status : Option Int

/-- `evaluation_options{request.deadline, request.cancellation}`. -/
def execution (request : HttpRequest) : RemoteExecution where
  deadline := request.deadline
  cancellation := request.cancellation

/-- The checks of method, limit and scheme. -/
def unsupported (request : HttpRequest) : Bool :=
  (request.method ≠ lit "GET" && request.method ≠ lit "POST") || request.maxResponseBytes = 0 ||
    (!(lit "https://").isPrefixOf request.url && !(lit "http://").isPrefixOf request.url)

/-- A byte that a URL may not have. -/
def badUrlByte (c : UInt8) : Bool :=
  c ≤ 0x20 || c = 0x7f || c = 0x5c

/-- A header that is not sent. -/
def badHeader (header : Bytes × Bytes) : Bool :=
  header.1.isEmpty || header.1.any (fun c => c = 0x3a || c = 0x0d || c = 0x0a) ||
    header.2.any (fun c => c = 0x0d || c = 0x0a) || header.1.any (· = 0) || header.2.any (· = 0)

/-- The text that `curl_slist_append` is given: `c_str()` ends at the first zero. -/
def headerLine (header : Bytes × Bytes) : Bytes :=
  (header.1 ++ lit ": " ++ header.2).takeWhile (· ≠ 0)

/-- The loop over the headers: the list for libcurl, or an error. -/
def headerList (appends : Nat → Bool) : Nat → List (Bytes × Bytes) → Except Error (List Bytes)
  | _, [] => .ok []
  | k, header :: headers =>
    if badHeader header then
      .error { code := .invalidRequest, message := lit "invalid HTTP header" }
    else if !appends k then
      .error { code := .connectionFailure, message := lit "cannot allocate HTTP headers" }
    else (headerList appends (k + 1) headers).map (headerLine header :: ·)

/-- The event loop, from the turn `k` on. Every turn reads the clock and the stop sources once.
`none` says that the loop has not ended within the turns that are given. -/
def eventLoop (w : Transfer) (request : HttpRequest) :
    Nat → Nat → ReceiveState → Option (Except Error (ReceiveState × Nat))
  | 0, _, _ => none
  | fuel + 1, k, state =>
    match (execution request).error (w.env (k + 2)) with
    | some failure => some (.error failure)
    | none =>
      if !(w.turn k).performs then
        some (.error { code := .connectionFailure, message := lit "HTTP event loop failed" })
      else
        let state := (w.turn k).callbacks.foldl receive state
        if !(w.turn k).running then some (.ok (state, k + 1))
        else if !(w.turn k).polls then
          some (.error { code := .connectionFailure, message := lit "HTTP polling failed" })
        else eventLoop w request fuel (k + 1) state

/-- What `perform` returns behind the event loop, which has taken `turns` turns. -/
def conclude (w : Transfer) (request : HttpRequest) (state : ReceiveState) (turns : Nat) :
    Result HttpResponse :=
  match (execution request).error (w.env (turns + 2)) with
  | some failure => .error failure
  | none =>
    if state.overflow then
      .error { code := .invalidBackendOutput, message := lit "HTTP response exceeds byte limit" }
    else if state.allocationFailed then
      .error { code := .connectionFailure, message := lit "cannot allocate HTTP response" }
    else match w.code with
      | .operationTimedout => .error { code := .timeout, message := lit "HTTP transfer failed" }
      | .other => .error { code := .connectionFailure, message := lit "HTTP transfer failed" }
      | .ok =>
        match w.status with
        | none =>
          .error { code := .connectionFailure, message := lit "HTTP status unavailable" }
        | some status => .ok { status, body := state.body, headers := state.headers.entries }

/-- `perform`. An inner `none` is the exception of a connection that cannot be made. -/
def perform (w : Transfer) (fuel : Nat) (request : HttpRequest) :
    Option (Option (Result HttpResponse)) :=
  match (execution request).error (w.env 0) with
  | some failure => some (some (.error failure))
  | none =>
    if unsupported request then
      some (some (.error
        { code := .invalidRequest, message := lit "unsupported HTTP transport request" }))
    else if request.url.any badUrlByte then
      some (some (.error { code := .invalidRequest, message := lit "invalid HTTP URL character" }))
    else if !w.connects then some none
    else match headerList w.appends 0 request.headers with
      | .error failure => some (some (.error failure))
      | .ok _ =>
        if request.deadline ≤ (w.env 1).now then
          some (some (.error { code := .timeout, message := lit "HTTP deadline exceeded" }))
        else if !w.configures then
          some (some (.error
            { code := .connectionFailure, message := lit "cannot configure HTTP transfer" }))
        else
          (eventLoop w request fuel 0 { limit := request.maxResponseBytes }).map fun
            | .error failure => some (.error failure)
            | .ok (state, turns) => some (conclude w request state turns)

/-! ## What the callbacks put together -/

/-- The bytes that the body callback is given. -/
def bodyBytes (cs : List Callback) : Bytes :=
  (cs.filter fun c => !c.isHeader).flatMap Callback.data

/-- The lines that the header callback is given. -/
def headerLines (cs : List Callback) : List Bytes :=
  (cs.filter Callback.isHeader).map Callback.data

/-- The arguments of a callback describe its data. -/
def Callback.Genuine (c : Callback) : Prop :=
  c.size * c.count = c.data.length ∧ c.data.length ≤ sizeMax

instance (c : Callback) : Decidable c.Genuine :=
  inferInstanceAs (Decidable (_ ∧ _))

namespace ReceiveState

/-- Nothing has gone wrong so far. -/
def Intact (s : ReceiveState) : Prop :=
  s.overflow = false ∧ s.allocationFailed = false

/-- What has been received is within the limits. -/
structure Within (s : ReceiveState) : Prop where
  body : s.body.length ≤ s.limit
  headers : s.headerBytes ≤ 65536

/-- The data of a callback is within the limits, too. -/
def Fits (s : ReceiveState) (c : Callback) : Prop :=
  if c.isHeader then s.headerBytes + c.data.length ≤ 65536
  else s.body.length + c.data.length ≤ s.limit

instance (s : ReceiveState) (c : Callback) : Decidable (s.Fits c) :=
  inferInstanceAs (Decidable (if c.isHeader then _ else _))

/-- The state with the data of a callback. -/
def accept (s : ReceiveState) (c : Callback) : ReceiveState :=
  if c.isHeader then
    { s with headers := receiveLine s.headers c.data, headerBytes := s.headerBytes + c.data.length }
  else { s with body := s.body ++ c.data }

end ReceiveState

variable {s : ReceiveState} {c : Callback} {cs : List Callback}

/-- The product of the arguments does not overflow. -/
theorem Callback.Genuine.no_overflow (h : c.Genuine) :
    ¬(c.size ≠ 0 ∧ sizeMax / c.size < c.count) := by
  rintro ⟨hsize, hcount⟩
  rw [Nat.div_lt_iff_lt_mul (Nat.pos_of_ne_zero hsize), Nat.mul_comm, h.1] at hcount
  exact absurd h.2 (Nat.not_le.2 hcount)

/-- **What one callback does**: it takes its data when it fits and the memory is there. -/
theorem receive_eq (hc : c.Genuine) (hs : s.Within) :
    receive s c = if s.Fits c ∧ c.allocates = true then s.accept c
      else if s.Fits c then
        { s with
          allocationFailed := true
          headerBytes := s.headerBytes + if c.isHeader then c.data.length else 0 }
      else { s with overflow := true } := by
  obtain ⟨hbody, hheaders⟩ := hs
  have htake : c.data.take c.data.length = c.data := List.take_length
  cases hheader : c.isHeader with
  | true =>
    have hfits : s.Fits c ↔ s.headerBytes + c.data.length ≤ 65536 := by
      simp [ReceiveState.Fits, hheader]
    simp only [receive, receiveHeader, hheader, if_true, if_neg hc.no_overflow, hc.1,
      sizeSub_of_le hheaders, htake, hfits, ReceiveState.accept]
    by_cases hfit : s.headerBytes + c.data.length ≤ 65536
    · rw [if_neg (by omega)]
      cases c.allocates <;> simp [hfit]
    · rw [if_pos (by omega)]
      simp [hfit]
  | false =>
    have hfits : s.Fits c ↔ s.body.length + c.data.length ≤ s.limit := by
      simp [ReceiveState.Fits, hheader]
    simp only [receive, receiveBody, hheader, Bool.false_eq_true, if_false, if_neg hc.no_overflow,
      hc.1, sizeSub_of_le hbody, htake, hfits, ReceiveState.accept]
    by_cases hfit : s.body.length + c.data.length ≤ s.limit
    · rw [if_neg (by omega)]
      cases c.allocates <;> simp [hfit]
    · rw [if_pos (by omega)]
      simp [hfit]

/-- A callback returns the size of data that it takes. -/
theorem returned_eq (hc : c.Genuine) (hs : s.Within) (hfit : s.Fits c)
    (hallocates : c.allocates = true) : returned s c = c.data.length := by
  unfold returned receiveHeader receiveBody
  unfold ReceiveState.Fits at hfit
  rw [if_neg hc.no_overflow, if_neg hc.no_overflow, hc.1, sizeSub_of_le hs.body,
    sizeSub_of_le hs.headers, hallocates]
  dsimp only
  split_ifs at hfit ⊢ <;> first | rfl | omega | exact absurd rfl ‹_›

/-- A callback keeps to the limits. -/
theorem Within.receive (hc : c.Genuine) (hs : s.Within) :
    (receive s c).Within ∧ (receive s c).limit = s.limit := by
  obtain ⟨hbody, hheaders⟩ := hs
  rw [receive_eq hc ⟨hbody, hheaders⟩]
  unfold ReceiveState.accept ReceiveState.Fits
  split_ifs <;> constructor <;> first | rfl | constructor <;> simp_all

/-- Whether nothing has gone wrong behind a callback. -/
theorem intact_receive (hc : c.Genuine) (hs : s.Within) :
    (receive s c).Intact ↔ s.Intact ∧ s.Fits c ∧ c.allocates = true := by
  rw [receive_eq hc hs]
  unfold ReceiveState.Intact ReceiveState.accept
  split_ifs <;> simp_all

/-- The limits that a list of callbacks is checked against. -/
def Bounded (s : ReceiveState) (cs : List Callback) : Prop :=
  s.body.length + (bodyBytes cs).length ≤ s.limit ∧
    s.headerBytes + ((headerLines cs).map List.length).sum ≤ 65536

/-- The limits behind the first callback. -/
theorem bounded_cons : Bounded s (c :: cs) ↔ s.Fits c ∧ Bounded (s.accept c) cs := by
  unfold Bounded bodyBytes headerLines ReceiveState.Fits ReceiveState.accept
  cases hheader : c.isHeader with
  | true =>
    simp only [hheader, List.filter_cons, Bool.not_true, Bool.false_eq_true, if_true, if_false,
      List.map_cons, List.sum_cons]
    omega
  | false =>
    simp only [hheader, List.filter_cons, Bool.not_false, Bool.false_eq_true, if_true, if_false,
      List.flatMap_cons, List.length_append]
    omega

/-- **What the callbacks put together.** Nothing goes wrong exactly when the body and the headers
are within the limits in total and the memory is there. Then the body is what the body callback was
given, in whatever pieces, and the headers are those of the lines. -/
theorem received_spec (hcs : ∀ c ∈ cs, c.Genuine) (hs : s.Within) :
    ((cs.foldl receive s).Intact ↔
        s.Intact ∧ Bounded s cs ∧ ∀ c ∈ cs, c.allocates = true) ∧
      ((cs.foldl receive s).Intact →
        (cs.foldl receive s).body = s.body ++ bodyBytes cs ∧
          (cs.foldl receive s).headers = (headerLines cs).foldl receiveLine s.headers) := by
  induction cs generalizing s with
  | nil =>
    refine ⟨⟨fun h => ⟨h, ⟨?_, ?_⟩, nofun⟩, fun h => h.1⟩, fun _ => ⟨?_, rfl⟩⟩
    · simpa [bodyBytes] using hs.body
    · simpa [headerLines] using hs.headers
    · simp [bodyBytes]
  | cons c cs ih =>
    obtain ⟨hc, hcs⟩ := List.forall_mem_cons.1 hcs
    obtain ⟨hiff, hstate⟩ := ih hcs (Within.receive hc hs).1
    have hfirst := intact_receive hc hs
    rw [List.foldl_cons, bounded_cons, List.forall_mem_cons]
    have haccept : s.Fits c ∧ c.allocates = true → receive s c = s.accept c := fun h => by
      rw [receive_eq hc hs, if_pos h]
    constructor
    · rw [hiff, hfirst]
      constructor
      · rintro ⟨⟨hs, hfit, hallocates⟩, hbound, hall⟩
        exact ⟨hs, ⟨hfit, haccept ⟨hfit, hallocates⟩ ▸ hbound⟩, hallocates, hall⟩
      · rintro ⟨hs, ⟨hfit, hbound⟩, hallocates, hall⟩
        exact ⟨⟨hs, hfit, hallocates⟩, haccept ⟨hfit, hallocates⟩ ▸ hbound, hall⟩
    · intro hintact
      obtain ⟨hbody, hheaders⟩ := hstate hintact
      have hfits := (hfirst.1 (hiff.1 hintact).1).2
      rw [hbody, hheaders, haccept hfits]
      unfold ReceiveState.accept bodyBytes headerLines
      cases hheader : c.isHeader with
      | true => simp [hheader]
      | false => simp [hheader]

/-- **When the memory is there, what goes wrong is an overflow.** -/
theorem overflow_received (hcs : ∀ c ∈ cs, c.Genuine) (hs : s.Within)
    (hallocates : ∀ c ∈ cs, c.allocates = true) (h : s.allocationFailed = false) :
    (cs.foldl receive s).allocationFailed = false := by
  induction cs generalizing s with
  | nil => exact h
  | cons c cs ih =>
    obtain ⟨hc, hcs⟩ := List.forall_mem_cons.1 hcs
    obtain ⟨hallocate, hallocates⟩ := List.forall_mem_cons.1 hallocates
    refine ih hcs (Within.receive hc hs).1 hallocates ?_
    rw [receive_eq hc hs]
    unfold ReceiveState.accept
    split_ifs <;> simp_all

/-! ## The headers of a message -/

/-- The lines of a head, as libcurl hands them to the header callback. -/
def head (lines : List Bytes) : List Bytes :=
  lines.map (· ++ [0x0d, 0x0a]) ++ [[0x0d, 0x0a]]

/-- A field that the transport reads as it is written: its name has no `/`, and its value is on one
line. -/
structure Plain (field : Bytes × Bytes) : Prop where
  isField : Http.IsField field
  name : (0x2f : UInt8) ∉ field.1
  value : (0x0a : UInt8) ∉ field.2

/-- The map of fields, the last one of a name. -/
def fieldMap (fields : List (Bytes × Bytes)) : OrderedMap Bytes Bytes :=
  fields.foldl (fun m field => m.assign (lower field.1) field.2) .empty

/-- A trimmed text has a blank at neither end. -/
theorem dropWhile_of_trim {value : Bytes} (h : Http.trim value = value) :
    value.dropWhile Http.isBlank = value ∧
      value.reverse.dropWhile Http.isBlank = value.reverse := by
  have hfront : (value.dropWhile Http.isBlank).length ≤ value.length :=
    (List.dropWhile_suffix _).length_le
  have hback := (List.dropWhile_suffix (l := (value.dropWhile Http.isBlank).reverse)
    Http.isBlank).length_le
  have hlength := congrArg List.length h
  rw [Http.trim, List.length_reverse] at hlength
  rw [List.length_reverse] at hback
  have hkept : value.dropWhile Http.isBlank = value :=
    (List.dropWhile_suffix _).eq_of_length (by omega)
  refine ⟨hkept, ?_⟩
  rw [Http.trim, hkept] at h
  rw [← List.reverse_reverse (value.reverse.dropWhile _), h]

/-- The first byte of a text that nothing is dropped from. -/
theorem head_of_kept {p : UInt8 → Bool} {b : UInt8} {rest : Bytes}
    (h : (b :: rest).dropWhile p = b :: rest) : p b = false := by
  cases hp : p b with
  | false => rfl
  | true =>
    rw [List.dropWhile_cons_of_pos hp] at h
    have hle := (List.dropWhile_suffix (l := rest) p).length_le
    rw [h, List.length_cons] at hle
    omega

/-- A trimmed text is found between a blank and the line end. -/
theorem trimValue_eq {value : Bytes} (htrim : Http.trim value = value)
    (hcr : (0x0d : UInt8) ∉ value) (hlf : (0x0a : UInt8) ∉ value) :
    trimValue (0x20 :: value ++ [0x0d, 0x0a]) = value := by
  obtain ⟨hfront, hback⟩ := dropWhile_of_trim htrim
  have hblank : (fun c : UInt8 => decide (c = 0x20 ∨ c = 0x09)) = Http.isBlank := by
    funext c
    simp [Http.isBlank]
  cases hvalue : value with
  | nil => decide
  | cons b rest =>
    rw [← hvalue]
    -- behind the blank the first byte of the value is kept, and from the end its last one
    have hcut : value.reverse.dropWhile
        (fun c => decide (c = 0x0d ∨ c = 0x0a ∨ c = 0x20 ∨ c = 0x09)) = value.reverse := by
      cases hrev : value.reverse with
      | nil => rfl
      | cons c back =>
        have hmem : c ∈ value := List.mem_reverse.1 (hrev ▸ List.mem_cons_self)
        rw [hrev] at hback
        have hc := head_of_kept hback
        simp only [Http.isBlank, Bool.or_eq_false_iff, decide_eq_false_iff_not] at hc
        refine List.dropWhile_cons_of_neg ?_
        simp only [decide_eq_true_eq, not_or]
        exact ⟨fun heq => hcr (heq ▸ hmem), fun heq => hlf (heq ▸ hmem), hc⟩
    have hkeep : (value ++ [0x0d, 0x0a]).dropWhile Http.isBlank = value ++ [0x0d, 0x0a] := by
      rw [hvalue] at hfront ⊢
      exact List.dropWhile_cons_of_neg (by simp [head_of_kept hfront])
    unfold trimValue
    rw [hblank, List.cons_append, List.dropWhile_cons_of_pos rfl, hkeep, List.reverse_append]
    show ((0x0a :: 0x0d :: value.reverse).dropWhile _).reverse = value
    rw [List.dropWhile_cons_of_pos (by decide), List.dropWhile_cons_of_pos (by decide), hcut,
      List.reverse_reverse]

/-- A field does not begin with the version. -/
theorem not_prefix_of_plain {field : Bytes × Bytes} (h : Plain field) (rest : Bytes) :
    ¬lit "HTTP/" <+: field.1 ++ 0x3a :: rest := by
  rintro ⟨more, hmore⟩
  have hslash : (0x2f : UInt8) ∈ lit "HTTP/" := by decide
  rcases List.append_eq_append_iff.1 hmore with ⟨a, ha, -⟩ | ⟨b, hb, hrest⟩
  · exact h.name (ha ▸ List.mem_append_left _ hslash)
  · cases b with
    | nil => exact h.name (by rw [List.append_nil] at hb; exact hb ▸ hslash)
    | cons c b =>
      have hcolon : (0x3a : UInt8) ∈ lit "HTTP/" := by
        rw [hb, ← (List.cons.inj hrest).1]
        simp
      exact absurd hcolon (by decide)

/-- A field is read. -/
theorem receiveLine_field {headers : OrderedMap Bytes Bytes} {field : Bytes × Bytes}
    (h : Plain field) : receiveLine headers (Http.fieldText field ++ [0x0d, 0x0a]) =
      headers.assign (lower field.1) field.2 := by
  have hcolon : (0x3a : UInt8) ∉ field.1 := fun hmem => (h.isField.name _ hmem).1 rfl
  have htext : Http.fieldText field ++ [0x0d, 0x0a] =
      field.1 ++ 0x3a :: (0x20 :: field.2 ++ [0x0d, 0x0a]) := by
    simp [Http.fieldText]
  have hfind : find [0x3a] (Http.fieldText field ++ [0x0d, 0x0a]) = some field.1.length :=
    find_singleton_eq_some_iff.2 ⟨_, _, htext, hcolon, rfl⟩
  unfold receiveLine
  rw [hfind, htext, if_neg (not_prefix_of_plain h _)]
  dsimp only
  rw [List.take_left, ← List.drop_drop, List.drop_left, List.drop_one, List.tail_cons,
    trimValue_eq h.isField.trimmed h.isField.value h.value]

/-- **The headers are those of the last head.** -/
theorem receiveLine_head {headers : OrderedMap Bytes Bytes} {start : Bytes}
    {fields : List (Bytes × Bytes)} (hstart : lit "HTTP/" <+: start)
    (hfields : ∀ field ∈ fields, Plain field) :
    (head (start :: fields.map Http.fieldText)).foldl receiveLine headers =
      fieldMap fields := by
  have hfold : ∀ (m : OrderedMap Bytes Bytes), (fields.map fun field =>
      Http.fieldText field ++ [0x0d, 0x0a]).foldl receiveLine m =
        fields.foldl (fun m field => m.assign (lower field.1) field.2) m := by
    intro m
    rw [List.foldl_map]
    exact List.foldl_ext _ _ _ fun m field hfield => receiveLine_field (hfields field hfield)
  have hempty : receiveLine headers (start ++ [0x0d, 0x0a]) = .empty :=
    if_pos (hstart.trans (List.prefix_append _ _))
  have hend : ∀ m : OrderedMap Bytes Bytes, receiveLine m [0x0d, 0x0a] = m := fun m => rfl
  unfold head
  rw [List.map_cons, List.map_map, List.cons_append, List.foldl_cons, hempty, List.foldl_append]
  exact (hend _).trans (hfold _)

/-- A text in lower case stays as it is. -/
theorem lower_lower (text : Bytes) : lower (lower text) = lower text := by
  unfold lower
  rw [List.map_map]
  exact List.map_congr_left fun c _ => Http.lowerByte_lowerByte c

/-- What is found under a name is its last field. -/
theorem find_fieldMap (fields : List (Bytes × Bytes)) (name : Bytes) :
    (fieldMap fields).find name = header { headers := fields } name := by
  unfold fieldMap header
  induction fields using List.reverseRecOn with
  | nil => rfl
  | append_singleton fields field ih =>
    rw [List.foldl_append, List.foldl_cons, List.foldl_nil, OrderedMap.find_assign]
    dsimp only at ih ⊢
    rw [ih, List.filter_append]
    by_cases hname : name = lower field.1
    · simp [hname]
    · have hne : lower field.1 ≠ name := fun heq => hname heq.symm
      simp [hname, hne]

/-- The keys of the map are in lower case. -/
theorem lower_of_mem {fields : List (Bytes × Bytes)} {entry : Bytes × Bytes}
    (h : entry ∈ (fieldMap fields).entries) : lower entry.1 = entry.1 := by
  have hfind : (fieldMap fields).find entry.1 = some entry.2 := OrderedMap.mem_entries_iff.1 h
  rw [find_fieldMap] at hfind
  obtain ⟨field, hfield, -⟩ := Option.map_eq_some_iff.1 hfind
  have hmem := (List.mem_filter.1 (List.mem_of_getLast? hfield)).2
  rw [decide_eq_true_eq] at hmem
  rw [← hmem, lower_lower]

/-- **A header is found in the map as in the fields**, so the retry loop finds the last field of a
name, in whatever case it is written. -/
theorem header_fieldMap (fields : List (Bytes × Bytes)) (name : Bytes) :
    header { headers := (fieldMap fields).entries } name = header { headers := fields } name := by
  rw [← find_fieldMap fields]
  have hfilter : (fieldMap fields).entries.filter (fun entry => lower entry.1 = name) =
      (fieldMap fields).entries.filter fun entry => entry.1 = name :=
    List.filter_congr fun entry hentry => by rw [lower_of_mem hentry]
  unfold header
  rw [hfilter]
  cases hfind : (fieldMap fields).find name with
  | none =>
    have hkeys := OrderedMap.find_eq_none_iff.1 hfind
    rw [List.filter_eq_nil_iff.2]
    · rfl
    · intro entry hentry
      simp only [decide_eq_true_eq]
      exact fun heq => hkeys (heq ▸ List.mem_map_of_mem hentry)
  | some value =>
    have hmem : (name, value) ∈ (fieldMap fields).entries := OrderedMap.mem_of_find hfind
    rw [filter_key_eq (k := Prod.fst) (fieldMap fields).nodup_keys hmem]
    rfl

/-! ## The event loop -/

variable {w : Transfer} {request : HttpRequest} {fuel k n : Nat}

/-- The callbacks of the turns `k`, …, `k + count - 1`. -/
def callbacks (w : Transfer) (k count : Nat) : List Callback :=
  (List.range' k count).flatMap fun i => (w.turn i).callbacks

/-- The callbacks of a turn and those of the turns behind it. -/
theorem callbacks_succ (w : Transfer) (k count : Nat) :
    callbacks w k (count + 1) = (w.turn k).callbacks ++ callbacks w (k + 1) count := by
  unfold callbacks
  rw [List.range'_succ, List.flatMap_cons]

/-- The loop takes `count` turns from the turn `k` on: it is in time at each of them, libcurl does
not fail, and only the last one ends the transfer. -/
structure Takes (w : Transfer) (request : HttpRequest) (k count : Nat) : Prop where
  pos : 0 < count
  inTime : ∀ i < count, (execution request).error (w.env (k + i + 2)) = none
  performs : ∀ i < count, (w.turn (k + i)).performs = true
  runs : ∀ i, i + 1 < count → (w.turn (k + i)).running = true ∧ (w.turn (k + i)).polls = true
  ends : (w.turn (k + (count - 1))).running = false

/-- **The loop puts together what the callbacks of its turns are given.** -/
theorem eventLoop_eq_ok {state state' : ReceiveState}
    (h : eventLoop w request fuel k state = some (.ok (state', n))) :
    ∃ count, n = k + count ∧ count ≤ fuel ∧ Takes w request k count ∧
      state' = (callbacks w k count).foldl receive state := by
  induction fuel generalizing k state with
  | zero => cases h
  | succ fuel ih =>
    unfold eventLoop at h
    split at h
    · cases h
    next hok =>
    dsimp only at h
    split_ifs at h with hperforms hrunning hpolls
    · cases h
    · obtain ⟨rfl, rfl⟩ := Prod.mk.inj (Except.ok.inj (Option.some.inj h))
      refine ⟨1, rfl, Nat.le_add_left _ _, ⟨Nat.one_pos, fun i hi => ?_, fun i hi => ?_,
        fun i hi => absurd hi (by omega), by simpa using hrunning⟩, ?_⟩
      · obtain rfl : i = 0 := by omega
        exact hok
      · obtain rfl : i = 0 := by omega
        simpa using hperforms
      · rw [callbacks_succ, List.foldl_append]
        rfl
    · cases h
    · obtain ⟨count, rfl, hle, htakes, rfl⟩ := ih h
      have hshift : ∀ i, k + 1 + i = k + (i + 1) := fun i => by omega
      refine ⟨count + 1, by omega, by omega, ⟨Nat.succ_pos _, fun i hi => ?_, fun i hi => ?_,
        fun i hi => ?_, ?_⟩, ?_⟩
      · cases i with
        | zero => exact hok
        | succ i => simpa only [hshift] using htakes.inTime i (by omega)
      · cases i with
        | zero => simpa using hperforms
        | succ i => simpa only [hshift] using htakes.performs i (by omega)
      · cases i with
        | zero => exact ⟨by simpa using hrunning, by simpa using hpolls⟩
        | succ i => simpa only [hshift] using htakes.runs i (by omega)
      · have hends := htakes.ends
        rw [hshift] at hends
        rwa [Nat.add_sub_cancel, ← Nat.sub_add_cancel htakes.pos]
      · rw [callbacks_succ, List.foldl_append]

/-- The loop ends when it takes a number of turns. -/
theorem eventLoop_of_takes (state : ReceiveState) {count : Nat} (h : Takes w request k count)
    (hfuel : count ≤ fuel) :
    eventLoop w request fuel k state =
      some (.ok ((callbacks w k count).foldl receive state, k + count)) := by
  induction count generalizing fuel k state with
  | zero => exact absurd h.pos (lt_irrefl _)
  | succ count ih =>
    obtain ⟨fuel, rfl⟩ := Nat.exists_eq_add_of_le' (Nat.lt_of_lt_of_le (Nat.succ_pos _) hfuel)
    have hshift : ∀ i, k + 1 + i = k + (i + 1) := fun i => by omega
    have hperforms : (w.turn k).performs = true := h.performs 0 (Nat.succ_pos _)
    rw [callbacks_succ, List.foldl_append]
    unfold eventLoop
    rw [h.inTime 0 (Nat.succ_pos _)]
    dsimp only
    rw [if_neg (by simp [hperforms])]
    rcases Nat.eq_zero_or_pos count with rfl | hpos
    · have hends : (w.turn k).running = false := h.ends
      rw [if_pos (by simp [hends])]
      rfl
    · obtain ⟨hrunning, hpolls⟩ := h.runs 0 (by omega)
      have hrest : Takes w request (k + 1) count :=
        ⟨hpos, fun i hi => by simpa only [hshift] using h.inTime (i + 1) (by omega),
          fun i hi => by simpa only [hshift] using h.performs (i + 1) (by omega),
          fun i hi => by simpa only [hshift] using h.runs (i + 1) (by omega), by
            have hends := h.ends
            rw [Nat.add_sub_cancel] at hends
            rwa [hshift, Nat.sub_add_cancel hpos]⟩
      rw [if_neg (by simpa using hrunning), if_neg (by simpa using hpolls),
        ih _ hrest (by omega), Nat.add_right_comm, Nat.add_assoc]

/-- **The loop ends at most one turn behind the deadline or the cancellation.** -/
theorem eventLoop_returns (state : ReceiveState) (hk : k ≤ n) (hfuel : n < k + fuel)
    (hlate : (execution request).error (w.env (n + 2)) ≠ none) :
    (eventLoop w request fuel k state).isSome = true := by
  induction fuel generalizing k state with
  | zero => omega
  | succ fuel ih =>
    unfold eventLoop
    split
    · rfl
    next hok =>
    have hne : k ≠ n := fun heq => hlate (heq ▸ hok)
    dsimp only
    split_ifs
    · rfl
    · rfl
    · rfl
    · exact ih _ (by omega) (by omega)

/-! ## What a call returns -/

/-- The headers are handed on when none of them is refused. -/
theorem headerList_eq {appends : Nat → Bool} {headers : List (Bytes × Bytes)} {lines : List Bytes}
    (h : headerList appends k headers = .ok lines) :
    (∀ header ∈ headers, badHeader header = false) ∧ lines = headers.map headerLine := by
  induction headers generalizing k lines with
  | nil =>
    obtain rfl := Except.ok.inj h
    exact ⟨nofun, rfl⟩
  | cons header headers ih =>
    unfold headerList at h
    split_ifs at h with hbad happend
    cases hrest : headerList appends (k + 1) headers with
    | error failure =>
      rw [hrest] at h
      cases h
    | ok rest =>
      rw [hrest] at h
      obtain rfl := Except.ok.inj h
      obtain ⟨hall, rfl⟩ := ih hrest
      exact ⟨List.forall_mem_cons.2 ⟨by simpa using hbad, hall⟩, rfl⟩

/-- Headers that are not refused are handed on. -/
theorem headerList_of_good {appends : Nat → Bool} {headers : List (Bytes × Bytes)}
    (happends : ∀ k, appends k = true) (h : ∀ header ∈ headers, badHeader header = false) :
    headerList appends k headers = .ok (headers.map headerLine) := by
  induction headers generalizing k with
  | nil => rfl
  | cons header headers ih =>
    obtain ⟨hheader, hheaders⟩ := List.forall_mem_cons.1 h
    unfold headerList
    rw [if_neg (by simp [hheader]), if_neg (by simp [happends]), ih hheaders]
    rfl

/-- A request that is sent. -/
structure Accepted (request : HttpRequest) : Prop where
  supported : unsupported request = false
  url : request.url.any badUrlByte = false
  headers : ∀ header ∈ request.headers, badHeader header = false

/-- The state that the callbacks begin with. -/
def begin (request : HttpRequest) : ReceiveState :=
  { limit := request.maxResponseBytes }

/-- It is within the limits. -/
theorem within_begin (request : HttpRequest) : (begin request).Within :=
  ⟨Nat.zero_le _, Nat.zero_le _⟩

/-- What a call that returns a response has done. -/
theorem perform_eq_ok {r : HttpResponse} (h : perform w fuel request = some (some (.ok r))) :
    Accepted request ∧ (∃ lines, headerList w.appends 0 request.headers = .ok lines) ∧
      ∃ count, count ≤ fuel ∧ Takes w request 0 count ∧
        conclude w request ((callbacks w 0 count).foldl receive (begin request)) count = .ok r := by
  unfold perform at h
  split at h
  · cases Option.some.inj (Option.some.inj h)
  cases hlines : headerList w.appends 0 request.headers with
  | error failure =>
    rw [hlines] at h
    split_ifs at h <;> cases h
  | ok lines =>
  rw [hlines] at h
  split_ifs at h with hsupported hurl hconnects hlate hconfigures
  any_goals cases h
  obtain ⟨ended, hloop, h⟩ := Option.map_eq_some_iff.1 h
  cases ended with
  | error failure => cases Option.some.inj h
  | ok pair =>
    obtain ⟨state, turns⟩ := pair
    obtain ⟨count, rfl, hle, htakes, rfl⟩ := eventLoop_eq_ok hloop
    rw [Nat.zero_add] at h
    exact ⟨⟨by simpa using hsupported, by simpa using hurl, (headerList_eq hlines).1⟩,
      ⟨lines, rfl⟩, count, hle, htakes, Option.some.inj h⟩

/-- A response that is returned is intact, in time and complete. -/
theorem conclude_eq_ok {state : ReceiveState} {r : HttpResponse}
    (h : conclude w request state n = .ok r) :
    (execution request).error (w.env (n + 2)) = none ∧ state.Intact ∧ w.code = .ok ∧
      w.status = some r.status ∧ r.body = state.body ∧ r.headers = state.headers.entries := by
  unfold conclude at h
  split at h
  · cases h
  next htime =>
  split_ifs at h with hoverflow hallocation
  split at h
  · cases h
  · cases h
  next hcode =>
  split at h
  · cases h
  next status hstatus =>
  obtain rfl := Except.ok.inj h
  exact ⟨htime, ⟨by simpa using hoverflow, by simpa using hallocation⟩, hcode, hstatus, rfl, rfl⟩

/-- The callbacks of the turns are genuine when all are. -/
theorem forall_callbacks {P : Callback → Prop} (h : ∀ i, ∀ c ∈ (w.turn i).callbacks, P c)
    (k count : Nat) : ∀ c ∈ callbacks w k count, P c := fun c hc => by
  obtain ⟨i, -, hi⟩ := List.mem_flatMap.1 hc
  exact h i c hi

/-- **The contract of a transport.** A call returns at most one turn behind the deadline or the
cancellation. When it returns a response, the request was one that is sent, libcurl has completed
the transfer, and the deadline and the cancellation had not come. The body is what libcurl has
received, within the limit of the request, and the headers are those of its lines, within theirs. -/
theorem perform_contract (request : HttpRequest) (fuel : Nat)
    (hgenuine : ∀ i, ∀ c ∈ (w.turn i).callbacks, c.Genuine) :
    (∀ n < fuel, (execution request).error (w.env (n + 2)) ≠ none →
      (perform w fuel request).isSome = true) ∧
    ∀ r, perform w fuel request = some (some (.ok r)) →
      Accepted request ∧ ∃ count, Takes w request 0 count ∧
        (execution request).error (w.env (count + 2)) = none ∧
        w.code = .ok ∧ w.status = some r.status ∧
        r.body = bodyBytes (callbacks w 0 count) ∧ r.body.length ≤ request.maxResponseBytes ∧
        ((headerLines (callbacks w 0 count)).map List.length).sum ≤ 65536 ∧
        r.headers = ((headerLines (callbacks w 0 count)).foldl receiveLine .empty).entries := by
  refine ⟨fun n hn hlate => ?_, fun r h => ?_⟩
  · have hloop := eventLoop_returns (w := w) (begin request) (Nat.zero_le n)
      (by omega : n < 0 + fuel) hlate
    unfold perform
    split
    · rfl
    cases headerList w.appends 0 request.headers with
    | error failure => split_ifs <;> rfl
    | ok lines => split_ifs <;> first | rfl | exact Option.isSome_map.trans hloop
  · obtain ⟨haccepted, -, count, -, htakes, hconclude⟩ := perform_eq_ok h
    obtain ⟨htime, hintact, hcode, hstatus, hbody, hheaders⟩ := conclude_eq_ok hconclude
    obtain ⟨hiff, hstate⟩ := received_spec (forall_callbacks hgenuine 0 count)
      (within_begin request)
    obtain ⟨-, ⟨hbodies, hlines⟩, -⟩ := hiff.1 hintact
    obtain ⟨hbody', hheaders'⟩ := hstate hintact
    rw [hbody'] at hbody
    rw [hheaders'] at hheaders
    refine ⟨haccepted, count, htakes, htime, hcode, hstatus, hbody, ?_, ?_, hheaders⟩
    · rw [hbody]
      simpa [begin] using hbodies
    · simpa [begin] using hlines

/-- A transfer that ends in its first turn is returned, and one that never ends is given up behind
the deadline. -/
theorem perform_contract_late :
    let request (deadline : Int) : HttpRequest :=
      { method := lit "POST", url := lit "http://a", headers := [], body := lit "x", deadline,
        cancellation := [] }
    let data : Callback :=
      { isHeader := false, data := lit "x", size := 1, count := 1, allocates := true }
    let w (running : Bool) : Transfer :=
      { env := fun k => { now := k }, code := .ok, status := some 200
        turn := fun _ => { callbacks := [data], running } }
    (perform (w true) 2 (request 3)).isSome = true ∧
      perform (w true) 2 (request 3) = some (some (.error timeoutError)) ∧
      perform (w false) 2 (request 9) = some (some (.ok { status := 200, body := lit "x" })) ∧
      Accepted (request 9) ∧ ∃ count, Takes (w false) (request 9) 0 count ∧
        (execution (request 9)).error ((w false).env (count + 2)) = none ∧
        lit "x" = bodyBytes (callbacks (w false) 0 count) := by
  intro request data w
  have hgenuine : ∀ running i, ∀ c ∈ ((w running).turn i).callbacks, c.Genuine :=
    fun running i c hc => by
      rw [List.mem_singleton.1 hc]
      decide
  have hreturned : perform (w false) 2 (request 9) =
      some (some (.ok { status := 200, body := lit "x" })) := by
    decide +kernel
  obtain ⟨haccepted, count, htakes, htime, -, -, hbody, -⟩ :=
    (perform_contract (request 9) 2 (hgenuine false)).2 _ hreturned
  exact ⟨(perform_contract (request 3) 2 (hgenuine true)).1 1 (by decide) (by decide),
    by decide +kernel, hreturned, haccepted, count, htakes, htime, hbody⟩

/-- The callbacks that libcurl calls of those it has data for: it gives up behind the first one that
does not return the size of its data. -/
def untilRefused : ReceiveState → List Callback → List Callback
  | _, [] => []
  | s, c :: cs => c :: if returned s c = c.data.length then untilRefused (receive s c) cs else []

/-- All callbacks return the sizes of their data. -/
def Welcomes : ReceiveState → List Callback → Prop
  | _, [] => True
  | s, c :: cs => returned s c = c.data.length ∧ Welcomes (receive s c) cs

/-- Nothing is refused where nothing has gone wrong at the end. -/
theorem welcomes_of_intact (hcs : ∀ c ∈ cs, c.Genuine) (hs : s.Within)
    (h : (cs.foldl receive s).Intact) : Welcomes s cs ∧ untilRefused s cs = cs := by
  induction cs generalizing s with
  | nil => exact ⟨trivial, rfl⟩
  | cons c cs ih =>
    obtain ⟨hc, hcs⟩ := List.forall_mem_cons.1 hcs
    have hwithin := (Within.receive hc hs).1
    obtain ⟨-, hfit, hallocates⟩ :=
      (intact_receive hc hs).1 ((received_spec hcs hwithin).1.1 h).1
    have hreturned := returned_eq hc hs hfit hallocates
    obtain ⟨hwelcomes, hall⟩ := ih hcs hwithin h
    exact ⟨⟨hreturned, hwelcomes⟩, by rw [untilRefused, if_pos hreturned, hall]⟩

/-- Where something has been refused something has gone wrong. -/
theorem untilRefused_eq (hcs : ∀ c ∈ cs, c.Genuine) (hs : s.Within)
    (h : ((untilRefused s cs).foldl receive s).Intact) : untilRefused s cs = cs := by
  induction cs generalizing s with
  | nil => rfl
  | cons c cs ih =>
    obtain ⟨hc, hcs⟩ := List.forall_mem_cons.1 hcs
    unfold untilRefused at h ⊢
    split_ifs at h ⊢ with hreturned
    · rw [ih hcs (Within.receive hc hs).1 h]
    · obtain ⟨-, hfit, hallocates⟩ := (intact_receive hc hs).1 h
      exact absurd (returned_eq hc hs hfit hallocates) hreturned

/-- What libcurl does for a message when nothing else fails: it has the lines of its head, behind
those of any responses before it, and its body in pieces, and it succeeds when none of them is
refused. -/
structure Delivers (w : Transfer) (request : HttpRequest) (count : Nat) (script : List Callback)
    (before : List Bytes) (m : Http.Message) : Prop where
  start : (execution request).error (w.env 0) = none
  connects : w.connects = true
  appends : ∀ k, w.appends k = true
  configures : w.configures = true
  inTime : (w.env 1).now < request.deadline
  takes : Takes w request 0 count
  calls : callbacks w 0 count = untilRefused (begin request) script
  genuine : ∀ c ∈ script, c.Genuine ∧ c.allocates = true
  lines : headerLines script = before ++ head m.lines
  body : bodyBytes script = m.body
  code : Welcomes (begin request) script → w.code = .ok
  finish : (execution request).error (w.env (count + 2)) = none

/-- What is called is part of the script. -/
theorem mem_of_mem_untilRefused (h : c ∈ untilRefused s cs) : c ∈ cs := by
  induction cs generalizing s with
  | nil => exact h
  | cons c' cs ih =>
    unfold untilRefused at h
    rcases List.mem_cons.1 h with rfl | h
    · exact List.mem_cons_self
    · split_ifs at h
      · exact List.mem_cons_of_mem _ (ih h)
      · cases h

/-- **A message is received as it is.** However libcurl cuts the body, and whatever responses come
before it, the call returns the status, the body and the fields of the message, or the error of the
limits when it exceeds one of them. A header that the retry loop looks for is the last field of that
name in the message, in whatever case it is written. -/
theorem message_received {m : Http.Message} {script : List Callback} {before : List Bytes}
    {count : Nat} {status : Int} (haccepted : Accepted request)
    (hdelivers : Delivers w request count script before m) (hstatus : w.status = some status)
    (hstart : lit "HTTP/" <+: m.start) (hfields : ∀ field ∈ m.fields, Plain field)
    (hfuel : count ≤ fuel) :
    perform w fuel request = some (some (
        if m.body.length ≤ request.maxResponseBytes ∧
            ((before ++ head m.lines).map List.length).sum ≤ 65536 then
          .ok { status, body := m.body, headers := (fieldMap m.fields).entries }
        else .error
          { code := .invalidBackendOutput, message := lit "HTTP response exceeds byte limit" })) ∧
      ∀ name, header { headers := (fieldMap m.fields).entries } name =
        header { headers := m.fields } name := by
  refine ⟨?_, header_fieldMap m.fields⟩
  have hgenuine := fun c hc => (hdelivers.genuine c hc).1
  have hallocates := fun c hc => (hdelivers.genuine c hc).2
  obtain ⟨hiff, hstate⟩ := received_spec hgenuine (within_begin request)
  have hbounded : Bounded (begin request) script ↔
      m.body.length ≤ request.maxResponseBytes ∧
        ((before ++ head m.lines).map List.length).sum ≤ 65536 := by
    simp [Bounded, begin, hdelivers.lines, hdelivers.body]
  have hreturns : perform w fuel request = some (some (conclude w request
      ((untilRefused (begin request) script).foldl receive (begin request)) count)) := by
    unfold perform
    rw [hdelivers.start, headerList_of_good hdelivers.appends haccepted.headers]
    dsimp only
    rw [if_neg (by simp [haccepted.supported]), if_neg (by simp [haccepted.url]),
      if_neg (by simp [hdelivers.connects]), if_neg (not_le.2 hdelivers.inTime),
      if_neg (by simp [hdelivers.configures])]
    have hloop := eventLoop_of_takes (begin request) hdelivers.takes hfuel
    rw [Nat.zero_add, hdelivers.calls] at hloop
    exact congrArg (Option.map _) hloop
  rw [hreturns]
  congr 2
  unfold conclude
  rw [hdelivers.finish]
  dsimp only
  by_cases hfit : m.body.length ≤ request.maxResponseBytes ∧
      ((before ++ head m.lines).map List.length).sum ≤ 65536
  · have hintact := hiff.2 ⟨⟨rfl, rfl⟩, hbounded.2 hfit, hallocates⟩
    obtain ⟨hwelcomes, hall⟩ := welcomes_of_intact hgenuine (within_begin request) hintact
    obtain ⟨hbody, hheaders⟩ := hstate hintact
    rw [hall, if_pos hfit, if_neg (by simp [hintact.1]), if_neg (by simp [hintact.2]),
      hdelivers.code hwelcomes, hstatus]
    dsimp only
    rw [hbody, hheaders, hdelivers.body, hdelivers.lines, List.foldl_append, Http.Message.lines,
      receiveLine_head hstart hfields]
    rfl
  · have hbroken : ¬((untilRefused (begin request) script).foldl receive (begin request)).Intact :=
      fun hintact => by
        rw [untilRefused_eq hgenuine (within_begin request) hintact] at hintact
        exact hfit (hbounded.1 (hiff.1 hintact).2.1)
    have hsub : ∀ c ∈ untilRefused (begin request) script, c ∈ script :=
      fun c hc => mem_of_mem_untilRefused hc
    have hallocation := overflow_received (fun c hc => hgenuine c (hsub c hc))
      (within_begin request) (fun c hc => hallocates c (hsub c hc)) rfl
    have hoverflow :
        ((untilRefused (begin request) script).foldl receive (begin request)).overflow = true := by
      by_contra hnot
      exact hbroken ⟨by simpa using hnot, hallocation⟩
    rw [if_neg hfit, if_pos hoverflow]

/-- A data callback as libcurl makes it, in bytes. -/
def chunk (isHeader : Bool) (data : Bytes) : Callback :=
  { isHeader, data, size := 1, count := data.length, allocates := true }

/-- A response behind an informational one, whose body comes in two pieces, one of them in front of
the last line of its head. -/
theorem message_received_continued :
    let request : HttpRequest :=
      { method := lit "GET", url := lit "https://a/b", headers := [(lit "Accept", lit "x")],
        body := [], deadline := 10, cancellation := [0] }
    let m : Http.Message :=
      { start := lit "HTTP/1.1 503 No", fields := [(lit "Retry-AFTER", lit "1"),
          (lit "retry-after", lit "2")], body := lit "hello" }
    let before := head [lit "HTTP/1.1 100 Continue", lit "Retry-After: 9"]
    let script := before.map (chunk true) ++
      [chunk true (lit "HTTP/1.1 503 No\r\n"), chunk true (lit "Retry-AFTER: 1\r\n"),
        chunk true (lit "retry-after: 2\r\n"), chunk true (lit "\r\n"), chunk false (lit "he"),
        chunk false (lit "llo")]
    let w : Transfer :=
      { env := fun _ => { now := 1 }, code := .ok, status := some 503
        turn := fun
          | 0 => { callbacks := script.take 5, running := true }
          | _ => { callbacks := script.drop 5, running := false } }
    perform w 2 request = some (some (.ok
        { status := 503, body := lit "hello", headers := [(lit "retry-after", lit "2")] })) ∧
      header { headers := m.fields } (lit "retry-after") = some (lit "2") := by
  intro request m before script w
  have haccepted : Accepted request :=
    ⟨by decide +kernel, by decide +kernel, by decide +kernel⟩
  have hfields : ∀ field ∈ m.fields, Plain field := by
    intro field hfield
    have hall : ∀ field ∈ [(lit "Retry-AFTER", lit "1"), (lit "retry-after", lit "2")],
        Http.IsField field ∧ (0x2f : UInt8) ∉ field.1 ∧ (0x0a : UInt8) ∉ field.2 := by
      decide +kernel
    obtain ⟨hfield, hname, hvalue⟩ := hall field hfield
    exact ⟨hfield, hname, hvalue⟩
  have htakes : Takes w request 0 2 :=
    ⟨by decide, fun i _ => rfl, fun i hi => match i, hi with
      | 0, _ => rfl
      | 1, _ => rfl,
      fun i hi => by
        obtain rfl : i = 0 := by omega
        exact ⟨rfl, rfl⟩, rfl⟩
  have hdelivers : Delivers w request 2 script before m :=
    ⟨rfl, rfl, fun _ => rfl, rfl, by decide, htakes, by decide +kernel, by decide +kernel,
      by decide +kernel, by decide +kernel, fun _ => rfl, rfl⟩
  obtain ⟨hreceived, -⟩ :=
    message_received haccepted hdelivers rfl (by decide +kernel) hfields le_rfl
  exact ⟨hreceived.trans (by decide +kernel), by decide +kernel⟩

/-! ## The headers of a request -/

/-- What a header that is not refused looks like. -/
theorem good_header {entry : Bytes × Bytes} (h : badHeader entry = false) :
    entry.1 ≠ [] ∧ (∀ c ∈ entry.1, c ≠ 0x3a ∧ c ≠ 0x0d ∧ c ≠ 0x0a ∧ c ≠ 0) ∧
      ∀ c ∈ entry.2, c ≠ 0x0d ∧ c ≠ 0x0a ∧ c ≠ 0 := by
  simp only [badHeader, Bool.or_eq_false_iff, List.isEmpty_eq_false_iff, List.any_eq_false,
    decide_eq_true_eq] at h
  obtain ⟨⟨⟨⟨hne, hname⟩, hvalue⟩, hname0⟩, hvalue0⟩ := h
  refine ⟨hne, fun c hc => ?_, fun c hc => ?_⟩
  · obtain ⟨⟨hcolon, hcr⟩, hlf⟩ : ((¬c = 0x3a ∧ ¬c = 0x0d) ∧ ¬c = 0x0a) := by simpa using hname c hc
    exact ⟨hcolon, hcr, hlf, hname0 c hc⟩
  · obtain ⟨hcr, hlf⟩ : ¬c = 0x0d ∧ ¬c = 0x0a := by simpa using hvalue c hc
    exact ⟨hcr, hlf, hvalue0 c hc⟩

/-- Its text is one line, and it is not cut. -/
theorem headerLine_eq {entry : Bytes × Bytes} (h : badHeader entry = false) :
    headerLine entry = entry.1 ++ lit ": " ++ entry.2 ∧ headerLine entry ≠ [] ∧
      (0x0d : UInt8) ∉ headerLine entry := by
  obtain ⟨hne, hname, hvalue⟩ := good_header h
  have hbyte : ∀ c ∈ entry.1 ++ lit ": " ++ entry.2, c ≠ 0 ∧ c ≠ 0x0d := by
    intro c hc
    rw [List.mem_append, List.mem_append] at hc
    rcases hc with (hc | hc) | hc
    · exact ⟨(hname c hc).2.2.2, (hname c hc).2.1⟩
    · exact (by decide +kernel : ∀ c ∈ lit ": ", c ≠ 0 ∧ c ≠ 0x0d) c hc
    · exact ⟨(hvalue c hc).2.2, (hvalue c hc).1⟩
  have hline : headerLine entry = entry.1 ++ lit ": " ++ entry.2 :=
    List.takeWhile_eq_self_iff.2 fun c hc => by simpa using (hbyte c hc).1
  refine ⟨hline, ?_, fun hmem => ?_⟩
  · rw [hline]
    simp [hne]
  · rw [hline] at hmem
    exact (hbyte _ hmem).2 rfl

/-- **The headers of a request are lines of their own.** What libcurl is given for each header is
its whole text, and a reader of the lines finds exactly these lines, whatever follows them, and each
name in front of the first colon. A call that returns a response has given libcurl such lines, so
no value of a header, like the key of a remote backend, has had a line end in it. -/
theorem headers_sent (w : Transfer) (fuel : Nat) (request : HttpRequest) :
    (∀ lines, headerList w.appends 0 request.headers = .ok lines →
      lines = request.headers.map (fun entry => entry.1 ++ lit ": " ++ entry.2) ∧
        (∀ rest, Http.readLines [] (Http.linesText lines ++ rest) = some (lines, rest)) ∧
        ∀ entry ∈ request.headers,
          (entry.1 ++ lit ": " ++ entry.2).takeWhile (· ≠ 0x3a) = entry.1) ∧
    ∀ r, perform w fuel request = some (some (.ok r)) →
      (∃ lines, headerList w.appends 0 request.headers = .ok lines) ∧
        ∀ entry ∈ request.headers, (0x0d : UInt8) ∉ entry.2 ∧ (0x0a : UInt8) ∉ entry.2 := by
  constructor
  · intro lines hlines
    obtain ⟨hgood, rfl⟩ := headerList_eq hlines
    refine ⟨List.map_congr_left fun entry hentry => (headerLine_eq (hgood entry hentry)).1,
      fun rest => Http.readLines_linesText fun line hline => ?_, fun entry hentry => ?_⟩
    · obtain ⟨entry, hentry, rfl⟩ := List.mem_map.1 hline
      exact (headerLine_eq (hgood entry hentry)).2
    · obtain ⟨-, hname, -⟩ := good_header (hgood entry hentry)
      rw [List.append_assoc, List.takeWhile_append_of_pos fun c hc => by
        simpa using (hname c hc).1]
      exact List.append_nil _
  · intro r hr
    obtain ⟨haccepted, hlines, -⟩ := perform_eq_ok hr
    refine ⟨hlines, fun entry hentry => ?_⟩
    obtain ⟨-, -, hvalue⟩ := good_header (haccepted.headers entry hentry)
    exact ⟨fun hcr => (hvalue _ hcr).1 rfl, fun hlf => (hvalue _ hlf).2.1 rfl⟩

end Jevt.CurlTransport
