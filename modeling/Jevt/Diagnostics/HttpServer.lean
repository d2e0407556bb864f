import Jevt.Text
import Jevt.Library.Find
import Mathlib.Data.List.TakeWhile

/-!
# The HTTP reader of the diagnostics server

`HttpServer::Impl::handle` of `src/http_server.cpp`: it reads from the client until the headers are
complete or the buffer is full, and it answers from the first line of what it has read. What
`wait_ready` and `recv` give in each turn of the loop is an argument (`Turn`), and so are the
exports of the registry and the dashboard.

How a stream is cut into the chunks of `recv` is a relation (`Fragments`). Whatever the cut, the
buffer is a prefix of the stream, and it is answered as the first `max_request_bytes` bytes of the
stream are (`handle_eq`).
-/

namespace Jevt.HttpServer

open Library

/-- The arguments of `send_response`. -/
structure Response where
  status : Nat
  statusText : Bytes
  contentType : Bytes
  body : Bytes
  deriving DecidableEq

/-- What `handle` reads of the server: a limit, two exports of its registry and the page. -/
structure Impl where
  maxRequestBytes : Nat
  toJson : Bytes
  toPrometheus : Bytes
  kDashboard : Bytes

/-- One turn of the reading loop. -/
inductive Turn where
  /-- `recv` returned bytes. -/
  | data (bytes : Bytes)
  /-- `recv` failed with an error after which it is called again. -/
  | retry
  /-- `wait_ready` gave up, or `recv` failed for good. -/
  | abort
  deriving DecidableEq

/-! ## Reading -/

/-- The condition of the reading loop. -/
abbrev Unfinished (maxRequestBytes : Nat) (request : Bytes) : Prop :=
  find (lit "\r\n\r\n") request = none ∧ request.length < maxRequestBytes

/-- How many bytes the loop asks for. -/
def remaining (maxRequestBytes : Nat) (request : Bytes) : Nat :=
  min 1024 (maxRequestBytes - request.length)

/-- The reading loop. The peer closes the connection behind the last turn: `recv` returns `0`. -/
def readRequest (maxRequestBytes : Nat) : List Turn → Bytes → Bytes
  | [], request => request
  | turn :: turns, request =>
    if Unfinished maxRequestBytes request then
      match turn with
      | .data bytes => readRequest maxRequestBytes turns (request ++ bytes)
      | .retry => readRequest maxRequestBytes turns request
      | .abort => request
    else request

/-! ## Answering -/

/-- The content type of an error. -/
def textPlain : Bytes := lit "text/plain; charset=utf-8"

/-- The response to headers that are too long. -/
def headersTooLarge : Response :=
  ⟨431, lit "Request Header Fields Too Large", textPlain, lit "headers too large\n"⟩

/-- The response to headers without an end. -/
def incompleteHeaders : Response :=
  ⟨400, lit "Bad Request", textPlain, lit "incomplete headers\n"⟩

/-- The response to a request line that is none. -/
def badRequest : Response :=
  ⟨400, lit "Bad Request", textPlain, lit "bad request\n"⟩

/-- The response to another method than `GET`. -/
def methodNotAllowed : Response :=
  ⟨405, lit "Method Not Allowed", textPlain, lit "method not allowed\n"⟩

/-- The branches on `path`. -/
def route (impl : Impl) (path : Bytes) : Response :=
  if path = lit "/healthz" then ⟨200, lit "OK", textPlain, lit "ok\n"⟩
  else if path = lit "/api/stats" then
    ⟨200, lit "OK", lit "application/json; charset=utf-8", impl.toJson⟩
  else if path = lit "/metrics" then
    ⟨200, lit "OK", lit "text/plain; version=0.0.4; charset=utf-8", impl.toPrometheus⟩
  else if path = lit "/" then ⟨200, lit "OK", lit "text/html; charset=utf-8", impl.kDashboard⟩
  else ⟨404, lit "Not Found", textPlain, lit "not found\n"⟩

/-- What is sent for a request line. The bytes of a space and of `?` are `0x20` and `0x3f`. -/
def respondLine (impl : Impl) (line : Bytes) : Response :=
  let firstSpace := find [0x20] line
  let secondSpace := firstSpace.bind fun first =>
    (find [0x20] (line.drop (first + 1))).map (first + 1 + ·)
  match firstSpace, secondSpace with
  | some first, some second =>
    if first = 0 ∨ second = first + 1 ∨
        line.drop (second + 1) ≠ lit "HTTP/1.1" ∧ line.drop (second + 1) ≠ lit "HTTP/1.0" then
      badRequest
    else if line.take first ≠ lit "GET" then methodNotAllowed
    else
      let path := (line.drop (first + 1)).take (second - first - 1)
      match find [0x3f] path with
      | some query => route impl (path.take query)
      | none => route impl path
  | _, _ => badRequest

/-- What is sent for the bytes that the loop has read. -/
def respond (impl : Impl) (request : Bytes) : Response :=
  if find (lit "\r\n\r\n") request = none then
    if request.length = impl.maxRequestBytes then headersTooLarge else incompleteHeaders
  else
    match find (lit "\r\n") request with
    | some lineEnd => respondLine impl (request.take lineEnd)
    | none => respondLine impl request

/-- `HttpServer::Impl::handle`. `isRunning` is the value of `is_running` behind the loop. -/
def handle (impl : Impl) (isRunning : Bool) (turns : List Turn) : Option Response :=
  let request := readRequest impl.maxRequestBytes turns []
  if isRunning then some (respond impl request) else none

/-! ## Specification -/

/-- The turns in which a client's bytes can arrive: a chunk has at least one byte and at most as
many as the loop asks for, and when nothing is left the peer closes. `request` has been read and
`pending` is still to come. When the loop asks for nothing, the rest of the turns is not taken. -/
inductive Fragments (maxRequestBytes : Nat) : Bytes → Bytes → List Turn → Prop
  | finished {request pending : Bytes} {turns : List Turn} :
    ¬ Unfinished maxRequestBytes request → Fragments maxRequestBytes request pending turns
  | closed {request : Bytes} : Fragments maxRequestBytes request [] []
  | retry {request pending : Bytes} {turns : List Turn} :
    Fragments maxRequestBytes request pending turns →
      Fragments maxRequestBytes request pending (.retry :: turns)
  | data {request pending bytes : Bytes} {turns : List Turn} :
    bytes ≠ [] → bytes.length ≤ remaining maxRequestBytes request →
      Fragments maxRequestBytes (request ++ bytes) pending turns →
      Fragments maxRequestBytes request (bytes ++ pending) (.data bytes :: turns)

/-- The end of the headers occurs. -/
abbrev Terminated (text : Bytes) : Prop :=
  lit "\r\n\r\n" <:+: text

/-- The text before the first line end. -/
def FirstLine (text line : Bytes) : Prop :=
  ∃ rest, text = line ++ lit "\r\n" ++ rest ∧ ¬ lit "\r\n" <:+: line

/-- A well-formed request line and its three parts. -/
structure RequestLine (line method target version : Bytes) : Prop where
  line_eq : line = method ++ lit " " ++ target ++ lit " " ++ version
  method_ne : method ≠ []
  method_space : 0x20 ∉ method
  target_ne : target ≠ []
  target_space : 0x20 ∉ target
  version_eq : version = lit "HTTP/1.1" ∨ version = lit "HTTP/1.0"

/-! ## The buffer -/

variable {maxRequestBytes : Nat} {request pending : Bytes} {turns : List Turn}

/-- When the loop asks for nothing, it leaves the buffer as it is. -/
theorem readRequest_of_finished (h : ¬ Unfinished maxRequestBytes request) :
    readRequest maxRequestBytes turns request = request := by
  cases turns with
  | nil => rfl
  | cons turn turns => rw [readRequest.eq_def]; exact if_neg h

/-- A chunk fits into the rest of the buffer. -/
theorem length_append_le {bytes : Bytes} (hfit : request.length ≤ maxRequestBytes)
    (hbytes : bytes.length ≤ remaining maxRequestBytes request) :
    (request ++ bytes).length ≤ maxRequestBytes := by
  rw [remaining] at hbytes
  rw [List.length_append]
  omega

/-- **The buffer never holds more than the limit**, whichever turn the loop has come to. -/
theorem Fragments.length_le (h : Fragments maxRequestBytes request pending turns)
    (hfit : request.length ≤ maxRequestBytes) (count : Nat) :
    (readRequest maxRequestBytes (turns.take count) request).length ≤ maxRequestBytes := by
  induction h generalizing count with
  | finished hdone => rwa [readRequest_of_finished hdone]
  | closed => simpa [readRequest] using hfit
  | @retry request pending turns _ ih =>
    cases count with
    | zero => rwa [List.take_zero, readRequest]
    | succ count =>
      rw [List.take_succ_cons, readRequest]
      split
      · exact ih hfit count
      · exact hfit
  | @data request pending bytes turns _ hbytes _ ih =>
    cases count with
    | zero => rwa [List.take_zero, readRequest]
    | succ count =>
      rw [List.take_succ_cons, readRequest]
      split
      · exact ih (length_append_le hfit hbytes) count
      · exact hfit

/-- The loop ends with a prefix of what was to come in its buffer: it has read everything, or it
asks for nothing more. -/
theorem Fragments.exists_readRequest (h : Fragments maxRequestBytes request pending turns)
    (hfit : request.length ≤ maxRequestBytes) :
    ∃ more rest, pending = more ++ rest ∧
      readRequest maxRequestBytes turns request = request ++ more ∧
      (request ++ more).length ≤ maxRequestBytes ∧
      (¬ Unfinished maxRequestBytes (request ++ more) ∨ rest = []) := by
  induction h with
  | @finished request pending turns hdone =>
    refine ⟨[], pending, rfl, ?_, ?_, .inl ?_⟩
    · rw [readRequest_of_finished hdone, List.append_nil]
    · rwa [List.append_nil]
    · rwa [List.append_nil]
  | closed => exact ⟨[], [], rfl, by rw [readRequest, List.append_nil], by simpa, .inr rfl⟩
  | @retry request pending turns _ ih =>
    by_cases hopen : Unfinished maxRequestBytes request
    · obtain ⟨more, rest, hpending, hread, hlen, hend⟩ := ih hfit
      exact ⟨more, rest, hpending, by rw [readRequest, if_pos hopen, hread], hlen, hend⟩
    · exact ⟨[], pending, rfl, by rw [readRequest_of_finished hopen, List.append_nil],
        by simpa, .inl (by simpa using hopen)⟩
  | @data request pending bytes turns _ hbytes _ ih =>
    by_cases hopen : Unfinished maxRequestBytes request
    · obtain ⟨more, rest, rfl, hread, hlen, hend⟩ := ih (length_append_le hfit hbytes)
      rw [List.append_assoc] at hread hlen hend
      refine ⟨bytes ++ more, rest, by rw [List.append_assoc], ?_, hlen, hend⟩
      rw [readRequest, if_pos hopen, hread]
    · exact ⟨[], bytes ++ pending, rfl, by rw [readRequest_of_finished hopen, List.append_nil],
        by simpa, .inl (by simpa using hopen)⟩

/-! ## The answer is one to the stream -/

/-- The answer to a buffer with complete headers does not depend on what follows them. -/
theorem respond_append {impl : Impl} {more : Bytes} (h : Terminated request) :
    respond impl (request ++ more) = respond impl request := by
  obtain ⟨headersEnd, hend⟩ := Option.isSome_iff_exists.1 (find_isSome_iff.2 h)
  have hline : lit "\r\n" <:+: request := List.IsInfix.trans ⟨[], lit "\r\n", rfl⟩ h
  obtain ⟨lineEnd, hlineEnd⟩ := Option.isSome_iff_exists.1 (find_isSome_iff.2 hline)
  have hle := find_add_length_le hlineEnd
  have htake : (request ++ more).take lineEnd = request.take lineEnd :=
    List.take_append_of_le_length (by omega)
  simp only [respond, find_append hend, find_append hlineEnd, hend, hlineEnd, htake, reduceCtorEq,
    if_false]

/-- **Every fragmentation is answered as the stream in one piece is.** -/
theorem handle_eq {impl : Impl} {stream : Bytes} (isRunning : Bool)
    (h : Fragments impl.maxRequestBytes [] stream turns) :
    handle impl isRunning turns =
      if isRunning then some (respond impl (stream.take impl.maxRequestBytes)) else none := by
  obtain ⟨more, rest, rfl, hread, hlen, hend⟩ := h.exists_readRequest (Nat.zero_le _)
  rw [List.nil_append] at hread hlen hend
  have hsame : respond impl ((more ++ rest).take impl.maxRequestBytes) = respond impl more := by
    rw [List.take_append, List.take_of_length_le hlen]
    by_cases hterm : Terminated more
    · exact respond_append hterm
    · -- the buffer is full, or nothing is left
      have hrest : rest.take (impl.maxRequestBytes - more.length) = [] := by
        rcases hend with hend | rfl
        · have hfull : ¬ more.length < impl.maxRequestBytes := fun hlt =>
            hend ⟨find_eq_none_iff.2 hterm, hlt⟩
          rw [Nat.sub_eq_zero_of_le (Nat.le_of_not_lt hfull), List.take_zero]
        · exact List.take_nil
      rw [hrest, List.append_nil]
  rw [handle, hread, hsame]

/-! ## Request lines -/

variable {impl : Impl} {line method target version : Bytes}

/-- The first `?` ends the path. -/
theorem route_query (path : Bytes) :
    (match find [0x3f] path with
      | some query => route impl (path.take query)
      | none => route impl path) = route impl (path.takeWhile (· ≠ 0x3f)) := by
  cases hquery : find [0x3f] path with
  | none =>
    have hno : (0x3f : UInt8) ∉ path := fun hmem =>
      find_eq_none_iff.1 hquery ((List.singleton_infix_iff _ _).2 hmem)
    have hwhile : path.takeWhile (· ≠ (0x3f : UInt8)) = path :=
      List.takeWhile_eq_self_iff.2 fun b hb => decide_eq_true (ne_of_mem_of_not_mem hb hno)
    rw [hwhile]
  | some query =>
    obtain ⟨a, b, rfl, ha, rfl⟩ := find_singleton_eq_some_iff.1 hquery
    have hwhile : (a ++ 0x3f :: b).takeWhile (· ≠ (0x3f : UInt8)) = a := by
      rw [List.takeWhile_append_of_pos fun x hx => decide_eq_true (ne_of_mem_of_not_mem hx ha)]
      simp
    simp only [hwhile, List.take_left]

/-- A line with two spaces is cut at them. -/
theorem respondLine_cut (hmethod : 0x20 ∉ method) (htarget : 0x20 ∉ target) :
    respondLine impl (method ++ 0x20 :: (target ++ 0x20 :: version)) =
      if method = [] ∨ target = [] ∨ version ≠ lit "HTTP/1.1" ∧ version ≠ lit "HTTP/1.0" then
        badRequest
      else if method ≠ lit "GET" then methodNotAllowed
      else route impl (target.takeWhile (· ≠ 0x3f)) := by
  have hfirst : find [0x20] (method ++ 0x20 :: (target ++ 0x20 :: version)) =
      some method.length := find_singleton_eq_some_iff.2 ⟨method, _, rfl, hmethod, rfl⟩
  have hsecond : find [0x20] (target ++ 0x20 :: version) = some target.length :=
    find_singleton_eq_some_iff.2 ⟨target, version, rfl, htarget, rfl⟩
  have hdrop : (method ++ 0x20 :: (target ++ 0x20 :: version)).drop (method.length + 1) =
      target ++ 0x20 :: version := by
    rw [← List.drop_drop, List.drop_left, List.drop_one, List.tail_cons]
  have hversion : (method ++ 0x20 :: (target ++ 0x20 :: version)).drop
      (method.length + 1 + target.length + 1) = version := by
    rw [Nat.add_assoc _ target.length, ← List.drop_drop, hdrop, ← List.drop_drop, List.drop_left,
      List.drop_one, List.tail_cons]
  have hpath : (target ++ 0x20 :: version).take
      (method.length + 1 + target.length - method.length - 1) = target := by
    rw [show method.length + 1 + target.length - method.length - 1 = target.length by omega,
      List.take_left]
  simp only [respondLine, hfirst, Option.bind_some, hdrop, hsecond, Option.map_some, hversion,
    hpath, List.take_left, List.length_eq_zero_iff, route_query]
  have hempty : method.length + 1 + target.length = method.length + 1 ↔ target = [] := by
    rw [← List.length_eq_zero_iff]
    omega
  simp only [hempty]

/-- A well-formed request line is answered by its method and its path. -/
theorem respondLine_eq (h : RequestLine line method target version) :
    respondLine impl line =
      if method ≠ lit "GET" then methodNotAllowed
      else route impl (target.takeWhile (· ≠ 0x3f)) := by
  have hline : line = method ++ 0x20 :: (target ++ 0x20 :: version) := by
    rw [h.line_eq]
    simp [lit]
  rw [hline, respondLine_cut h.method_space h.target_space, if_neg]
  rintro (hnil | hnil | ⟨h11, h10⟩)
  · exact h.method_ne hnil
  · exact h.target_ne hnil
  · exact h.version_eq.elim h11 h10

/-- Every other line is a bad request. -/
theorem respondLine_malformed
    (h : ∀ method target version, ¬ RequestLine line method target version) :
    respondLine impl line = badRequest := by
  cases hfirst : find [0x20] line with
  | none => simp only [respondLine, hfirst]
  | some first =>
    obtain ⟨method, rest, rfl, hmethod, rfl⟩ := find_singleton_eq_some_iff.1 hfirst
    cases hsecond : find [0x20] rest with
    | none =>
      have hdrop : (method ++ 0x20 :: rest).drop (method.length + 1) = rest := by
        rw [← List.drop_drop, List.drop_left, List.drop_one, List.tail_cons]
      simp only [respondLine, hfirst, Option.bind_some, hdrop, hsecond, Option.map_none]
    | some second =>
      obtain ⟨target, version, rfl, htarget, -⟩ := find_singleton_eq_some_iff.1 hsecond
      rw [respondLine_cut hmethod htarget]
      split
      · rfl
      · next hgood =>
        push Not at hgood
        obtain ⟨hmne, htne, hversion⟩ := hgood
        refine absurd ⟨?_, hmne, hmethod, htne, htarget, ?_⟩ (h method target version)
        · simp [lit]
        · by_cases h11 : version = lit "HTTP/1.1"
          · exact .inl h11
          · exact .inr (hversion h11)

/-! ## The answer to a stream -/

/-- Complete headers start with a line. -/
theorem respond_of_terminated (impl : Impl) (h : Terminated request) :
    ∃ line, FirstLine request line ∧ respond impl request = respondLine impl line := by
  obtain ⟨headersEnd, hend⟩ := Option.isSome_iff_exists.1 (find_isSome_iff.2 h)
  have hline : lit "\r\n" <:+: request := List.IsInfix.trans ⟨[], lit "\r\n", rfl⟩ h
  obtain ⟨lineEnd, hlineEnd⟩ := Option.isSome_iff_exists.1 (find_isSome_iff.2 hline)
  obtain ⟨hsplit, hfirst⟩ := exists_append_of_find (by decide) hlineEnd
  refine ⟨request.take lineEnd, ⟨hsplit.choose, hsplit.choose_spec, hfirst⟩, ?_⟩
  simp only [respond, hend, hlineEnd, reduceCtorEq, if_false]

/-- The first line of a prefix is the one of the text. -/
theorem FirstLine.append (h : FirstLine request line) (more : Bytes) :
    FirstLine (request ++ more) line := by
  obtain ⟨rest, hrest, hfirst⟩ := h
  exact ⟨rest ++ more, by rw [hrest]; simp only [List.append_assoc], hfirst⟩

/-- Buffers without complete headers: the answer depends on whether the buffer is full. -/
theorem respond_of_not_terminated (h : ¬ Terminated request) :
    respond impl request =
      if request.length = impl.maxRequestBytes then headersTooLarge else incompleteHeaders := by
  rw [respond, if_pos (find_eq_none_iff.2 h)]

/-- No line is answered with the status of a full buffer. -/
theorem respondLine_status (line : Bytes) : (respondLine impl line).status ≠ 431 := by
  by_cases hline : ∃ method target version, RequestLine line method target version
  · obtain ⟨method, target, version, hline⟩ := hline
    rw [respondLine_eq hline, route]
    split_ifs <;> simp [methodNotAllowed]
  · rw [respondLine_malformed fun method target version h => hline ⟨method, target, version, h⟩]
    decide

/-- **Fragmentation does not matter.** Two ways in which the bytes of a client can arrive get the
same answer. It has status 431 exactly when the limit is reached without the end of the headers.
A shorter stream without it is answered with `incompleteHeaders`. Otherwise the first line decides:
a malformed one is a bad request, and a well-formed one is answered by its method and its target,
from which the query is cut off. The buffer stays within the limit in every turn. -/
theorem handle_fragments (impl : Impl) (stream : Bytes) :
    (∀ (isRunning : Bool) (turns turns' : List Turn),
      Fragments impl.maxRequestBytes [] stream turns →
      Fragments impl.maxRequestBytes [] stream turns' →
        handle impl isRunning turns = handle impl isRunning turns') ∧
    ∀ turns, Fragments impl.maxRequestBytes [] stream turns →
      (∃ response, handle impl true turns = some response ∧
        (response.status = 431 ↔ impl.maxRequestBytes ≤ stream.length ∧
          ¬ Terminated (stream.take impl.maxRequestBytes)) ∧
        (stream.length < impl.maxRequestBytes → ¬ Terminated stream →
          response = incompleteHeaders) ∧
        (Terminated (stream.take impl.maxRequestBytes) → ∃ line, FirstLine stream line ∧
          ((∀ method target version, ¬ RequestLine line method target version) →
            response = badRequest) ∧
          ∀ method target version, RequestLine line method target version →
            (method ≠ lit "GET" → response = methodNotAllowed) ∧
            (method = lit "GET" → response = route impl (target.takeWhile (· ≠ 0x3f))))) ∧
      ∀ count, (readRequest impl.maxRequestBytes (turns.take count) []).length ≤
        impl.maxRequestBytes := by
  refine ⟨fun isRunning turns turns' h h' => by rw [handle_eq isRunning h, handle_eq isRunning h'],
    fun turns h => ⟨⟨_, handle_eq true h, ?_, ?_, ?_⟩, h.length_le (Nat.zero_le _)⟩⟩
  · by_cases hterm : Terminated (stream.take impl.maxRequestBytes)
    · obtain ⟨line, -, hrespond⟩ := respond_of_terminated impl hterm
      simp [hrespond, respondLine_status, hterm]
    · rw [respond_of_not_terminated hterm, List.length_take]
      by_cases hfull : impl.maxRequestBytes ≤ stream.length
      · simp [hfull, hterm, headersTooLarge]
      · simp [hfull, incompleteHeaders, show ¬ min impl.maxRequestBytes stream.length =
          impl.maxRequestBytes by omega]
  · intro hshort hterm
    rw [List.take_of_length_le (by omega), respond_of_not_terminated hterm, if_neg (by omega)]
  · intro hterm
    obtain ⟨line, hfirst, hrespond⟩ := respond_of_terminated impl hterm
    refine ⟨line, ?_, fun hbad => ?_, fun method target version hline => ?_⟩
    · have happend := hfirst.append (stream.drop impl.maxRequestBytes)
      rwa [List.take_append_drop] at happend
    · rw [hrespond, respondLine_malformed hbad]
    · rw [hrespond, respondLine_eq hline]
      exact ⟨fun hne => if_pos hne, fun heq => if_neg (not_not.2 heq)⟩

/-- A request with a query and bytes behind its headers, in one chunk, and cut inside the end of
the headers with a spurious wake-up before the second chunk. -/
theorem handle_fragments_cut :
    handle ⟨64, [], [], []⟩ true [.data (lit "GET /healthz?probe=1 HTTP/1.1\r\n\r\nbody")] =
      handle ⟨64, [], [], []⟩ true
        [.data (lit "GET /healthz?probe=1 HTTP/1.1\r\n\r"), .retry, .data (lit "\nbody")] := by
  refine (handle_fragments ⟨64, [], [], []⟩
    (lit "GET /healthz?probe=1 HTTP/1.1\r\n\r\nbody")).1 true _ _ ?_ ?_
  · change Fragments 64 [] (lit "GET /healthz?probe=1 HTTP/1.1\r\n\r\nbody" ++ []) _
    refine .data ?_ ?_ (.finished ?_) <;> decide
  · change Fragments 64 [] (lit "GET /healthz?probe=1 HTTP/1.1\r\n\r" ++ (lit "\nbody" ++ [])) _
    refine .data ?_ ?_ (.retry (.data ?_ ?_ (.finished ?_))) <;> decide

end Jevt.HttpServer
