import Jevt.Diagnostics.HttpServer
import Jevt.Library.HttpMessage

/-!
# The HTTP writer of the diagnostics server

`write_response` and `send_all` of `src/http_server.cpp`. What `wait_ready` and `send` give in each
turn of the sending loop is an argument (`Sending`), so the socket may take any part of what is left
each time, or fail for good.

Whatever the socket takes is a beginning of one well-formed message (`writeResponse_prefix`,
`wellFormed_message`). So a client that reads HTTP gets the response the server meant, or knows that
it has been cut off (`response_delivered`).
-/

namespace Jevt.HttpServer

open Library

/-- One turn of the sending loop. -/
inductive Sending where
  /-- `send` took that many bytes. -/
  | sent (count : Nat)
  /-- `send` failed with an error after which it is called again. -/
  | retry
  /-- `wait_ready` gave up, or `send` failed for good. -/
  | abort
  deriving DecidableEq

/-- `send_all`: what has been sent, the turns that are left, and whether everything has been
sent. -/
def sendAll : List Sending → Bytes → Bytes × List Sending × Bool
  | [], bytes => ([], [], bytes.isEmpty)
  | turn :: turns, bytes =>
    if bytes = [] then ([], turn :: turns, true)
    else match turn with
      | .abort => ([], turns, false)
      | .retry => sendAll turns bytes
      | .sent count =>
        if count = 0 then ([], turns, false)
        else
          let rest := sendAll turns (bytes.drop count)
          (bytes.take count ++ rest.1, rest.2)

/-- The headers that `write_response` writes. -/
def header (r : Response) : Bytes :=
  lit "HTTP/1.1 " ++ decimal r.status ++ lit " " ++ r.statusText ++ lit "\r\n" ++
    lit "Content-Type: " ++ r.contentType ++ lit "\r\n" ++
    lit "Content-Length: " ++ decimal r.body.length ++ lit "\r\n" ++
    lit "Cache-Control: no-store\r\n" ++
    lit "X-Content-Type-Options: nosniff\r\n" ++
    lit "Content-Security-Policy: default-src 'none'; style-src 'unsafe-inline'; " ++
    lit "script-src 'unsafe-inline'; connect-src 'self'\r\n" ++
    lit "Referrer-Policy: no-referrer\r\n" ++
    lit "Connection: close\r\n" ++
    (if r.status = 405 then lit "Allow: GET\r\n" else []) ++
    lit "\r\n"

/-- `write_response`: what the client is sent. -/
def writeResponse (turns : List Sending) (r : Response) : Bytes :=
  let head := sendAll turns (header r)
  if head.2.2 then head.1 ++ (sendAll head.2.1 r.body).1 else head.1

/-! ## What is sent -/

variable {turns : List Sending} {bytes : Bytes}

/-- What is sent is a beginning, and all of it when `send_all` says so. -/
theorem sendAll_spec (turns : List Sending) (bytes : Bytes) :
    (sendAll turns bytes).1 <+: bytes ∧
      ((sendAll turns bytes).2.2 = true ↔ (sendAll turns bytes).1 = bytes) := by
  fun_induction sendAll turns bytes with
  | case1 bytes =>
    refine ⟨List.nil_prefix, ?_⟩
    rw [List.isEmpty_iff]
    exact ⟨Eq.symm, Eq.symm⟩
  | case2 turn turns => simp
  | case3 turns bytes hne => exact ⟨List.nil_prefix, by simp [Ne.symm hne]⟩
  | case4 turns bytes hne ih => exact ih
  | case5 turns bytes hne => exact ⟨List.nil_prefix, by simp [Ne.symm hne]⟩
  | case6 turns bytes hne count hcount rest ih =>
    obtain ⟨hbegins, hall⟩ := ih
    refine ⟨?_, hall.trans ⟨fun h => ?_, fun h => ?_⟩⟩
    · conv_rhs => rw [← List.take_append_drop count bytes]
      exact (List.prefix_append_right_inj _).2 hbegins
    · show bytes.take count ++ rest.1 = bytes
      rw [h, List.take_append_drop]
    · have hsplit : bytes.take count ++ rest.1 = bytes.take count ++ bytes.drop count := by
        rw [List.take_append_drop]
        exact h
      exact List.append_cancel_left hsplit

/-- **The client is sent a beginning of the headers and the body.** -/
theorem writeResponse_prefix (turns : List Sending) (r : Response) :
    writeResponse turns r <+: header r ++ r.body := by
  obtain ⟨hbegins, hall⟩ := sendAll_spec turns (header r)
  unfold writeResponse
  dsimp only
  split_ifs with hok
  · rw [hall.1 hok]
    exact (List.prefix_append_right_inj _).2 (sendAll_spec _ _).1
  · exact hbegins.trans (List.prefix_append _ _)

/-- A turn in which the socket takes something, or will be asked again. -/
def Sending.Goes : Sending → Prop
  | .sent count => count ≠ 0
  | .retry => True
  | .abort => False

/-- A turn in which the socket takes something. -/
def Sending.isSent : Sending → Bool
  | .sent _ => true
  | _ => false

/-- A socket that never gives up and is asked often enough is sent everything. -/
theorem sendAll_of_goes {turns : List Sending} (bytes : Bytes)
    (hgoes : ∀ turn ∈ turns, turn.Goes) (henough : bytes.length ≤ turns.countP Sending.isSent) :
    (sendAll turns bytes).2.2 = true ∧ (∀ turn ∈ (sendAll turns bytes).2.1, turn.Goes) ∧
      turns.countP Sending.isSent ≤
        (sendAll turns bytes).2.1.countP Sending.isSent + bytes.length := by
  fun_induction sendAll turns bytes with
  | case1 bytes =>
    have hnil : bytes = [] := List.length_eq_zero_iff.1 (Nat.le_zero.1 henough)
    simp [hnil]
  | case2 turn turns => exact ⟨rfl, hgoes, Nat.le_add_right _ _⟩
  | case3 turns bytes hne => exact (hgoes _ List.mem_cons_self).elim
  | case4 turns bytes hne ih =>
    rw [List.countP_cons_of_neg (by decide)] at henough ⊢
    exact ih (fun turn hturn => hgoes turn (List.mem_cons_of_mem _ hturn)) henough
  | case5 turns bytes hne => exact absurd rfl (hgoes (.sent 0) List.mem_cons_self)
  | case6 turns bytes hne count hcount rest ih =>
    have hlength := List.length_pos_iff.2 hne
    rw [List.countP_cons_of_pos rfl] at henough ⊢
    obtain ⟨hok, hrest, hcount'⟩ :=
      ih (fun turn hturn => hgoes turn (List.mem_cons_of_mem _ hturn))
        (by rw [List.length_drop]; omega)
    rw [List.length_drop] at hcount'
    refine ⟨hok, hrest, ?_⟩
    show _ ≤ (sendAll turns (bytes.drop count)).2.1.countP Sending.isSent + _
    omega

/-- A client whose socket never gives up is sent the whole response. -/
theorem writeResponse_of_goes {turns : List Sending} {r : Response}
    (hgoes : ∀ turn ∈ turns, turn.Goes)
    (henough : (header r ++ r.body).length ≤ turns.countP Sending.isSent) :
    writeResponse turns r = header r ++ r.body := by
  rw [List.length_append] at henough
  obtain ⟨hok, hrest, hcount⟩ := sendAll_of_goes (header r) hgoes (by omega)
  obtain ⟨hok', -, -⟩ := sendAll_of_goes r.body hrest (by omega)
  unfold writeResponse
  dsimp only
  rw [if_pos hok, (sendAll_spec _ _).2.1 hok, (sendAll_spec _ _).2.1 hok']

/-! ## What it says -/

/-- The policy that `write_response` sends. -/
def contentSecurityPolicy : Bytes :=
  lit "default-src 'none'; style-src 'unsafe-inline'; " ++
    lit "script-src 'unsafe-inline'; connect-src 'self'"

/-- The fields that every response has. -/
def commonFields : List (Bytes × Bytes) :=
  [(lit "Cache-Control", lit "no-store"),
    (lit "X-Content-Type-Options", lit "nosniff"),
    (lit "Content-Security-Policy", contentSecurityPolicy),
    (lit "Referrer-Policy", lit "no-referrer"),
    (lit "Connection", lit "close")]

/-- The field that only a refused method is answered with. -/
def allowFields (status : Nat) : List (Bytes × Bytes) :=
  if status = 405 then [(lit "Allow", lit "GET")] else []

/-- The message of a response. -/
def message (r : Response) : Http.Message where
  start := lit "HTTP/1.1 " ++ decimal r.status ++ lit " " ++ r.statusText
  fields := (lit "Content-Type", r.contentType) ::
    (lit "Content-Length", decimal r.body.length) :: (commonFields ++ allowFields r.status)
  body := r.body

/-- The headers and the body are the text of the message. -/
theorem text_message (r : Response) : (message r).text = header r ++ r.body := by
  have htype : lit "Content-Type: " = lit "Content-Type" ++ [0x3a, 0x20] := rfl
  have hlength : lit "Content-Length: " = lit "Content-Length" ++ [0x3a, 0x20] := rfl
  have hcache : lit "Cache-Control: no-store\r\n" =
    Http.fieldText (lit "Cache-Control", lit "no-store") ++ [0x0d, 0x0a] := rfl
  have hsniff : lit "X-Content-Type-Options: nosniff\r\n" =
    Http.fieldText (lit "X-Content-Type-Options", lit "nosniff") ++ [0x0d, 0x0a] := rfl
  have hpolicy : lit "Content-Security-Policy: default-src 'none'; style-src 'unsafe-inline'; " ++
      lit "script-src 'unsafe-inline'; connect-src 'self'\r\n" =
    Http.fieldText (lit "Content-Security-Policy", contentSecurityPolicy) ++ [0x0d, 0x0a] := rfl
  have hreferrer : lit "Referrer-Policy: no-referrer\r\n" =
    Http.fieldText (lit "Referrer-Policy", lit "no-referrer") ++ [0x0d, 0x0a] := rfl
  have hclose : lit "Connection: close\r\n" =
    Http.fieldText (lit "Connection", lit "close") ++ [0x0d, 0x0a] := rfl
  have hallow : lit "Allow: GET\r\n" =
    Http.fieldText (lit "Allow", lit "GET") ++ [0x0d, 0x0a] := rfl
  have hend : lit "\r\n" = [0x0d, 0x0a] := rfl
  have hheader : header r = lit "HTTP/1.1 " ++ decimal r.status ++ lit " " ++ r.statusText ++
      [0x0d, 0x0a] ++
      (Http.fieldText (lit "Content-Type", r.contentType) ++ [0x0d, 0x0a]) ++
      (Http.fieldText (lit "Content-Length", decimal r.body.length) ++ [0x0d, 0x0a]) ++
      (Http.fieldText (lit "Cache-Control", lit "no-store") ++ [0x0d, 0x0a]) ++
      (Http.fieldText (lit "X-Content-Type-Options", lit "nosniff") ++ [0x0d, 0x0a]) ++
      (Http.fieldText (lit "Content-Security-Policy", contentSecurityPolicy) ++ [0x0d, 0x0a]) ++
      (Http.fieldText (lit "Referrer-Policy", lit "no-referrer") ++ [0x0d, 0x0a]) ++
      (Http.fieldText (lit "Connection", lit "close") ++ [0x0d, 0x0a]) ++
      (if r.status = 405 then Http.fieldText (lit "Allow", lit "GET") ++ [0x0d, 0x0a] else []) ++
      [0x0d, 0x0a] := by
    unfold header
    rw [htype, hlength, hcache, hsniff, hreferrer, hclose, hallow, hend, ← hpolicy]
    simp only [Http.fieldText, List.append_assoc, List.cons_append, List.nil_append]
  rw [hheader]
  unfold Http.Message.text message Http.Message.lines Http.linesText commonFields allowFields
  split_ifs <;>
    simp only [List.map_append, List.map_cons, List.map_nil, List.flatMap_cons, List.flatMap_append,
      List.flatMap_nil, List.append_assoc, List.append_nil]

/-- The texts in front of the body fit into lines, and only one response refuses a method. -/
structure Proper (r : Response) : Prop where
  statusText : (0x0d : UInt8) ∉ r.statusText
  contentType : (0x0d : UInt8) ∉ r.contentType
  trimmed : Http.trim r.contentType = r.contentType
  refused : r.status = 405 → r = methodNotAllowed

/-- The content types of the server. -/
def contentTypes : List Bytes :=
  [textPlain, lit "application/json; charset=utf-8",
    lit "text/plain; version=0.0.4; charset=utf-8", lit "text/html; charset=utf-8"]

/-- A response of one of the content types. -/
theorem proper_of_mem {r : Response} (hstatus : (0x0d : UInt8) ∉ r.statusText)
    (htype : r.contentType ∈ contentTypes) (hrefused : r.status = 405 → r = methodNotAllowed) :
    Proper r := by
  have hall : ∀ s ∈ contentTypes, (0x0d : UInt8) ∉ s ∧ Http.trim s = s := by decide
  exact ⟨hstatus, (hall _ htype).1, (hall _ htype).2, hrefused⟩

/-- Every page is proper, whatever the registry exports. -/
theorem proper_route (impl : Impl) (path : Bytes) : Proper (route impl path) := by
  have hok : (0x0d : UInt8) ∉ lit "OK" := by decide
  unfold route
  split_ifs
  · exact proper_of_mem hok (by simp [contentTypes]) (by simp)
  · exact proper_of_mem hok (by simp [contentTypes]) (by simp)
  · exact proper_of_mem hok (by simp [contentTypes]) (by simp)
  · exact proper_of_mem hok (by simp [contentTypes]) (by simp)
  · exact proper_of_mem (by decide) (by simp [contentTypes]) (by simp)

/-- Every answer to a request line is proper. -/
theorem proper_respondLine (impl : Impl) (line : Bytes) : Proper (respondLine impl line) := by
  have hbad : Proper badRequest :=
    proper_of_mem (by decide) (by simp [contentTypes, badRequest]) (by simp [badRequest])
  have hmethod : Proper methodNotAllowed :=
    proper_of_mem (by decide) (by simp [contentTypes, methodNotAllowed]) fun _ => rfl
  unfold respondLine
  dsimp only
  split
  · split_ifs
    · exact hbad
    · exact hmethod
    · split
      · exact proper_route impl _
      · exact proper_route impl _
  · exact hbad

/-- Every answer is proper. -/
theorem proper_respond (impl : Impl) (request : Bytes) : Proper (respond impl request) := by
  unfold respond
  split_ifs
  · exact proper_of_mem (by decide) (by simp [contentTypes, headersTooLarge])
      (by simp [headersTooLarge])
  · exact proper_of_mem (by decide) (by simp [contentTypes, incompleteHeaders])
      (by simp [incompleteHeaders])
  · split
    · exact proper_respondLine impl _
    · exact proper_respondLine impl _

/-- The fields that do not depend on the response are fields, and none of them is the length. -/
theorem isField_of_mem {status : Nat} {field : Bytes × Bytes}
    (h : field ∈ commonFields ++ allowFields status) :
    Http.IsField field ∧ field.1.map Http.lowerByte ≠ Http.contentLengthName := by
  have hcommon : ∀ field ∈ commonFields,
      Http.IsField field ∧ field.1.map Http.lowerByte ≠ Http.contentLengthName := by
    decide
  have hallow : ∀ field ∈ [(lit "Allow", lit "GET")],
      Http.IsField field ∧ field.1.map Http.lowerByte ≠ Http.contentLengthName := by
    decide
  rcases List.mem_append.1 h with h | h
  · exact hcommon field h
  · unfold allowFields at h
    split_ifs at h
    · exact hallow field h
    · cases h

/-- A client finds the length of the body. -/
theorem contentLength_message (r : Response) :
    Http.contentLength (message r).fields = some r.body.length := by
  have htype : (lit "Content-Type").map Http.lowerByte ≠ Http.contentLengthName := by
    decide
  have hlength : (lit "Content-Length").map Http.lowerByte = Http.contentLengthName := by
    decide
  have hfilter : (message r).fields.filter
      (fun field => field.1.map Http.lowerByte = Http.contentLengthName) =
        [(lit "Content-Length", decimal r.body.length)] := by
    unfold message
    dsimp only
    rw [List.filter_cons_of_neg (by simpa using htype),
      List.filter_cons_of_pos (by simpa using hlength), List.filter_eq_nil_iff.2]
    intro field hfield
    simpa using (isField_of_mem hfield).2
  unfold Http.contentLength
  rw [hfilter]
  exact Http.readDecimal_decimal _

/-- **A response is a well-formed message.** -/
theorem wellFormed_message {r : Response} (h : Proper r) : (message r).WellFormed := by
  have htype : Http.IsField (lit "Content-Type", lit "x") := by decide
  have hlength : Http.IsField (lit "Content-Length", lit "x") := by decide
  constructor
  · exact List.append_ne_nil_of_left_ne_nil
      (List.append_ne_nil_of_left_ne_nil (List.append_ne_nil_of_left_ne_nil (by decide) _) _) _
  · intro hmem
    simp only [message, List.mem_append] at hmem
    rcases hmem with ((hversion | hstatus) | hspace) | hreason
    · exact absurd hversion (by decide)
    · exact (Http.plain_of_mem_decimal hstatus).1 rfl
    · exact absurd hspace (by decide)
    · exact h.statusText hreason
  · intro field hfield
    unfold message at hfield
    rcases List.mem_cons.1 hfield with rfl | hfield
    · exact htype.of_value h.contentType h.trimmed
    rcases List.mem_cons.1 hfield with rfl | hfield
    · exact hlength.decimal _
    · exact (isField_of_mem hfield).1
  · exact contentLength_message r

/-! ## What a client makes of it -/

/-- A response that has not been sent whole is not read. -/
theorem readMessage_writeResponse {r : Response} (h : Proper r) (sending : List Sending) :
    Http.readMessage (writeResponse sending r) =
      if writeResponse sending r = header r ++ r.body then some (message r, []) else none := by
  have hwell := wellFormed_message h
  have hbegins := writeResponse_prefix sending r
  rw [← text_message] at hbegins ⊢
  split_ifs with hall
  · have hread := hwell.reads []
    rw [List.append_nil] at hread
    rw [hall, hread]
  · exact hwell.cut hbegins hall

/-- Only a refused method is answered with the methods that are allowed. -/
theorem allow_mem_iff {r : Response} (h : Proper r) :
    (lit "Allow", lit "GET") ∈ (message r).fields ↔ r = methodNotAllowed := by
  have htype : lit "Allow" ≠ lit "Content-Type" := by decide
  have hlength : lit "Allow" ≠ lit "Content-Length" := by decide
  have hcommon : (lit "Allow", lit "GET") ∉ commonFields := by decide
  constructor
  · intro hmem
    unfold message at hmem
    rcases List.mem_cons.1 hmem with heq | hmem
    · exact absurd (congrArg Prod.fst heq) htype
    rcases List.mem_cons.1 hmem with heq | hmem
    · exact absurd (congrArg Prod.fst heq) hlength
    rcases List.mem_append.1 hmem with hmem | hmem
    · exact absurd hmem hcommon
    · unfold allowFields at hmem
      split_ifs at hmem with hstatus
      · exact h.refused hstatus
      · cases hmem
  · rintro rfl
    exact List.mem_cons_of_mem _ (List.mem_cons_of_mem _ (List.mem_append_right _ (by
      simp [allowFields, methodNotAllowed])))

/-- **A response is delivered, or the client knows that it was not.** Whatever the client sent and
however the socket takes the response, a reader of HTTP finds the status, the type and the body that
`handle` sends and nothing behind them, when everything has been sent. It finds no message when
anything is missing. Everything is sent when the socket does not give up before it has been asked
often enough. -/
theorem response_delivered {impl : Impl} {isRunning : Bool} {turns : List Turn} {r : Response}
    (h : handle impl isRunning turns = some r) (sending : List Sending) :
    Http.readMessage (writeResponse sending r) =
        (if writeResponse sending r = header r ++ r.body then some (message r, []) else none) ∧
      Http.readStatus (message r).start = some (r.status, r.statusText) ∧
      (lit "Content-Type", r.contentType) ∈ (message r).fields ∧
      ((lit "Allow", lit "GET") ∈ (message r).fields ↔ r = methodNotAllowed) ∧
      ((∀ turn ∈ sending, turn.Goes) →
        (header r ++ r.body).length ≤ sending.countP Sending.isSent →
          Http.readMessage (writeResponse sending r) = some (message r, [])) := by
  have hproper : Proper r := by
    unfold handle at h
    dsimp only at h
    split_ifs at h
    obtain rfl := Option.some.inj h
    exact proper_respond impl _
  have hread := readMessage_writeResponse hproper sending
  have hstart : (message r).start =
      Http.version ++ decimal r.status ++ 0x20 :: r.statusText := by
    have hversion : lit "HTTP/1.1 " = Http.version := by decide
    have hspace : lit " " = [0x20] := rfl
    simp only [message, hversion, hspace, List.append_assoc, List.singleton_append]
  refine ⟨hread, ?_, List.mem_cons_self, allow_mem_iff hproper, fun hgoes henough => ?_⟩
  · rw [hstart]
    exact Http.readStatus_start _ _
  · rw [hread, if_pos (writeResponse_of_goes hgoes henough)]

/-- A request for an unknown page, and a socket that takes five bytes at a time and gives up behind
the third time. -/
theorem response_delivered_notFound :
    let impl : Impl := ⟨64, [], [], []⟩
    let turns : List Turn := [.data (lit "GET /x HTTP"), .retry, .data (lit "/1.1\r\n\r\n")]
    ∃ r, handle impl true turns = some r ∧ r.status = 404 ∧
      Http.readMessage (writeResponse [.sent 5, .sent 5, .retry, .sent 5, .abort] r) = none ∧
      Http.readMessage (writeResponse (List.replicate 400 (.sent 5)) r) = some (message r, []) := by
  intro impl turns
  have hhandle : handle impl true turns =
      some ⟨404, lit "Not Found", textPlain, lit "not found\n"⟩ := by decide
  have hcut := (response_delivered hhandle [.sent 5, .sent 5, .retry, .sent 5, .abort]).1
  have hwhole := (response_delivered hhandle (List.replicate 400 (.sent 5))).2.2.2.2
  have hmissing : writeResponse [.sent 5, .sent 5, .retry, .sent 5, .abort]
      ⟨404, lit "Not Found", textPlain, lit "not found\n"⟩ ≠
        header ⟨404, lit "Not Found", textPlain, lit "not found\n"⟩ ++ lit "not found\n" :=
    fun heq => absurd (congrArg List.length heq) (by decide +kernel)
  refine ⟨_, hhandle, rfl, hcut.trans (if_neg hmissing), hwhole (fun turn hturn => ?_) ?_⟩
  · rw [List.eq_of_mem_replicate hturn]
    exact (by decide : (5 : Nat) ≠ 0)
  · have hlength : (header ⟨404, lit "Not Found", textPlain, lit "not found\n"⟩ ++
        lit "not found\n").length ≤ 400 := by decide +kernel
    have hcount : (List.replicate 400 (Sending.sent 5)).countP Sending.isSent = 400 := by
      rw [List.countP_replicate]
      rfl
    rw [hcount]
    exact hlength

end Jevt.HttpServer
