import Jevt.Library.Uri
import Jevt.Remote.Models
import Jevt.Remote.Routing

/-!
# Where credentials go

Every request of a `typesafe_backend` has the API key among its headers, so the endpoint of the
options is checked before anything is sent. What `validate_url` admits is an authority behind one of
two schemes, and a loopback host where the scheme is not secure (`Endpoint`). The constructor
removes slashes at the end, `send` appends a path, and the authority that is read from the result is
the one that was checked (`credentials_endpoint`).
-/

namespace Jevt

open Library

/-- An authority of a loopback host: without user information, and with nothing but a port behind
the host. -/
structure Loopback (authority : Bytes) : Prop where
  userInfo : Uri.userInfo authority = none
  host : Uri.host authority = lit "localhost" ∨ Uri.host authority = lit "127.0.0.1" ∨
    Uri.host authority = lit "[::1]"
  split : authority = Uri.host authority ++ Uri.port authority
  port : Uri.port authority = [] ∨ ∃ text, Uri.port authority = lit ":" ++ text

/-- What `validate_url` admits: a scheme, an authority and a path. -/
structure Endpoint (options : RemoteOptions) (scheme authority path : Bytes) : Prop where
  baseUrl : options.baseUrl = scheme ++ lit "://" ++ (authority ++ path)
  scheme : scheme = lit "https" ∨
    scheme = lit "http" ∧ options.allowInsecureLoopback = true ∧ Loopback authority
  undelimited : ∀ c ∈ authority, Uri.isDelimiter c = false
  path : ∀ c ∈ path.head?, Uri.isDelimiter c = true
  nonempty : authority ≠ []

/-! ## The check -/

variable {options : RemoteOptions}

/-- The host that `validate_url` reads is the host of the authority, and a port may follow it. -/
theorem host_of_loopbackHost {authority host : Bytes} (h : loopbackHost authority = .ok host)
    (huser : (0x40 : UInt8) ∉ authority) :
    Uri.host authority = host ∧
      (Uri.port authority = [] ∨ ∃ text, Uri.port authority = lit ":" ++ text) := by
  have hself := Uri.hostPort_eq_self huser
  unfold loopbackHost at h
  split at h
  · next hopen =>
    split at h
    · cases h
    · next c after hclose =>
      split at h
      · cases h
      · next hafter =>
        obtain rfl := Except.ok.inj h
        obtain rfl := Uri.eq_of_dropWhile_eq_cons hclose
        rw [← hself] at hopen hclose
        obtain ⟨hhost, hport⟩ := Uri.host_bracket hopen hclose
        rw [hself] at hhost
        refine ⟨hhost, ?_⟩
        rw [hport]
        cases after with
        | nil => exact .inl rfl
        | cons c text =>
          obtain rfl : c = 0x3a := by simpa using hafter
          exact .inr ⟨text, rfl⟩
  · next hname =>
    obtain rfl := Except.ok.inj h
    rw [← hself] at hname
    obtain ⟨hhost, hport⟩ := Uri.host_name hname
    rw [hself] at hhost hport
    refine ⟨hhost, ?_⟩
    rw [hport]
    cases hrest : authority.dropWhile (· ≠ 0x3a) with
    | nil => exact .inl rfl
    | cons c text =>
      obtain rfl := Uri.eq_of_dropWhile_eq_cons hrest
      exact .inr ⟨text, rfl⟩

/-- A text is its first bytes when it begins with them. -/
theorem eq_append_of_isPrefixOf {front text : Bytes} (h : front.isPrefixOf text = true) :
    text = front ++ text.drop front.length := by
  obtain ⟨rest, rfl⟩ := List.isPrefixOf_iff_prefix.1 h
  rw [List.drop_left]

/-- A text without a question mark or a number sign has an authority up to the first slash, and a
path behind it. -/
theorem split_authority {text : Bytes} (h : ∀ c ∈ text, c ≠ 0x3f ∧ c ≠ 0x23) :
    text = text.takeWhile (· ≠ 0x2f) ++ text.dropWhile (· ≠ 0x2f) ∧
      (∀ c ∈ text.takeWhile (· ≠ 0x2f), Uri.isDelimiter c = false) ∧
      ∀ c ∈ (text.dropWhile (· ≠ 0x2f)).head?, Uri.isDelimiter c = true := by
  refine ⟨List.takeWhile_append_dropWhile.symm, fun c hc => ?_, fun c hc => ?_⟩
  · have hslash : c ≠ 0x2f := by
      simpa using List.mem_takeWhile_imp (p := fun c => decide (c ≠ 0x2f)) hc
    have hothers := h c ((List.takeWhile_prefix _).subset hc)
    simp [Uri.isDelimiter, hslash, hothers]
  · obtain ⟨rest, hrest⟩ := List.head?_eq_some_iff.1 hc
    obtain rfl := Uri.eq_of_dropWhile_eq_cons hrest
    rfl

/-- A text without a query or a fragment is an endpoint when its authority is one for its scheme. -/
theorem endpoint_of_scheme {scheme rest : Bytes}
    (hurl : options.baseUrl = scheme ++ lit "://" ++ rest)
    (hquery : ¬(options.baseUrl.any fun c => c = 0x3f || c = 0x23) = true)
    (hnonempty : rest.takeWhile (· ≠ 0x2f) ≠ [])
    (hscheme : scheme = lit "https" ∨ scheme = lit "http" ∧ options.allowInsecureLoopback = true ∧
      Loopback (rest.takeWhile (· ≠ 0x2f))) :
    Endpoint options scheme (rest.takeWhile (· ≠ 0x2f)) (rest.dropWhile (· ≠ 0x2f)) := by
  have hplain : ∀ c ∈ options.baseUrl, c ≠ 0x3f ∧ c ≠ 0x23 := by simpa using hquery
  obtain ⟨hsplit, hundelimited, hpath⟩ := split_authority fun c hc =>
    hplain c (hurl ▸ List.mem_append_right _ hc)
  exact ⟨by rw [← hsplit]; exact hurl, hscheme, hundelimited, hpath, hnonempty⟩

/-- What `validate_url` admits is an endpoint. -/
theorem endpoint_of_validateUrl (h : validateUrl options = .ok ()) :
    ∃ scheme authority path, Endpoint options scheme authority path := by
  unfold validateUrl at h
  cases hsecure : (lit "https://").isPrefixOf options.baseUrl with
  | true =>
    simp only [hsecure, Bool.not_true, Bool.false_and, Bool.false_eq_true, if_false, if_true] at h
    split at h
    · cases h
    · split at h
      · cases h
      · next hquery =>
        split at h
        · cases h
        · next hauthority =>
          exact ⟨lit "https", _, _, endpoint_of_scheme (eq_append_of_isPrefixOf hsecure) hquery
            (not_or.1 hauthority).1 (.inl rfl)⟩
  | false =>
    simp only [hsecure, Bool.not_false, Bool.true_and, Bool.not_eq_true', Bool.false_eq_true,
      if_false] at h
    split at h
    · cases h
    · next hscheme =>
      split at h
      · cases h
      · split at h
        · cases h
        · next hquery =>
          split at h
          · cases h
          · next hauthority =>
            obtain ⟨hnonempty, huser⟩ := not_or.1 hauthority
            have hinsecure : (lit "http://").isPrefixOf options.baseUrl = true := by
              simpa using hscheme
            obtain ⟨host, hhost, h⟩ := bind_eq_ok_iff.1 h
            split at h
            · cases h
            · next hallowed =>
              simp only [Bool.or_eq_true, Bool.not_eq_true', not_or, Bool.not_eq_false,
                decide_eq_true_eq] at hallowed
              obtain ⟨hread, hport⟩ := host_of_loopbackHost hhost huser
              have hloopback : Loopback ((options.baseUrl.drop 7).takeWhile (· ≠ 0x2f)) :=
                ⟨Uri.userInfo_eq_none huser, by rw [hread]; exact hallowed.2,
                  by rw [Uri.host_append_port, Uri.hostPort_eq_self huser], hport⟩
              exact ⟨lit "http", _, _, endpoint_of_scheme (eq_append_of_isPrefixOf hinsecure) hquery
                hnonempty (.inr ⟨rfl, hallowed.1, hloopback⟩)⟩

/-! ## The URL of a request -/

section
variable {scheme authority path suffix : Bytes}

/-- The schemes have no colon. -/
theorem Endpoint.colon_not_mem (h : Endpoint options scheme authority path) :
    (0x3a : UInt8) ∉ scheme := by
  rcases h.scheme with rfl | ⟨rfl, -⟩ <;> decide

/-- The scheme and the authority of an endpoint are read from its text. -/
theorem Endpoint.read (h : Endpoint options scheme authority path) :
    Uri.scheme options.baseUrl = scheme ∧ Uri.authority options.baseUrl = some authority := by
  rw [h.baseUrl]
  exact Uri.read_uri h.colon_not_mem h.undelimited h.path

/-- Slashes that are removed at the end and a path that is appended leave the scheme and the
authority of an endpoint as they are. -/
theorem Endpoint.url (h : Endpoint options scheme authority path)
    (hsuffix : suffix.head? = some 0x2f) :
    ∃ rest, options.baseUrl.rdropWhile (· = 0x2f) ++ suffix =
        scheme ++ lit "://" ++ (authority ++ rest) ∧
      Uri.scheme (options.baseUrl.rdropWhile (· = 0x2f) ++ suffix) = scheme ∧
      Uri.authority (options.baseUrl.rdropWhile (· = 0x2f) ++ suffix) = some authority := by
  have hlast : ∀ c ∈ (scheme ++ lit "://" ++ authority).getLast?, c ≠ 0x2f := by
    intro c hc hslash
    rw [List.getLast?_append_of_ne_nil _ h.nonempty] at hc
    have hundelimited := h.undelimited c (List.mem_of_getLast? hc)
    rw [hslash] at hundelimited
    cases hundelimited
  obtain ⟨rest, hrest, hhead⟩ := Uri.rdropWhile_path hlast h.path
  have hurl : options.baseUrl.rdropWhile (· = 0x2f) ++ suffix =
      scheme ++ lit "://" ++ (authority ++ (rest ++ suffix)) := by
    rw [h.baseUrl, ← List.append_assoc, hrest]
    simp
  refine ⟨rest ++ suffix, hurl, ?_⟩
  rw [hurl]
  refine Uri.read_uri h.colon_not_mem h.undelimited fun c hc => ?_
  rw [List.head?_append] at hc
  cases hrest : rest.head? with
  | none =>
    rw [hrest, Option.none_or, hsuffix] at hc
    obtain rfl := Option.some.inj hc
    rfl
  | some c' =>
    rw [hrest, Option.some_or] at hc
    obtain rfl := Option.some.inj hc
    exact hhead _ hrest

end

/-! ## The requests of a backend -/

namespace TypesafeBackend

/-- The requests that a backend hands to the transport: those of batches and of the catalog. -/
inductive Sent (backend : TypesafeBackend) (w : World) (codec : JsonCodec) : HttpRequest → Prop
  | predictBatch {requests : List InferenceRequest} {reading : Nat} {post : Post} {call : Attempt}
      (posted : post ∈ (predictBatch backend w codec requests reading).1)
      (called : call ∈ post.attempts) : Sent backend w codec call.request
  | listModels {options : EvaluationOptions} {reading : Nat} {call : Attempt}
      (called : call ∈ (listModels backend w codec options reading).1) :
      Sent backend w codec call.request

variable {backend : TypesafeBackend} {w : World} {codec : JsonCodec}

/-- A request of `send` has the base URL of the options and the path of the call. -/
theorem url_of_send {method path body : Bytes} {execution : RemoteExecution} {reading : Nat}
    {call : Attempt} (h : call ∈ (send backend w method path body execution reading).1) :
    call.request.url = backend.options.baseUrl ++ path := by
  rw [(calls_sendLoop call h).1]
  rfl

/-- A request of a backend has one of two paths. -/
theorem Sent.url {request : HttpRequest} (h : Sent backend w codec request) :
    ∃ path : Bytes, path.head? = some 0x2f ∧ request.url = backend.options.baseUrl ++ path := by
  cases h with
  | @predictBatch requests reading post call posted called =>
    obtain ⟨turn, hsend⟩ := ((predictBatch_spec requests reading).2.1 post posted).sent
    have hcall : call ∈ (send backend w (lit "POST") (lit "/v1/systemone") post.body
        (batchExecution backend requests (w.env reading).now) turn).1 := by rwa [hsend]
    exact ⟨lit "/v1/systemone", rfl, url_of_send hcall⟩
  | @listModels options reading call called =>
    refine ⟨lit "/v1/models", rfl, ?_⟩
    rw [listModels_attempts] at called
    split at called
    · cases called
    · exact url_of_send called

/-- The base URL of a backend is the one of its options without slashes at the end. -/
theorem baseUrl_of_create (h : create options = .ok backend) :
    validateUrl options = .ok () ∧
      backend.options.baseUrl = options.baseUrl.rdropWhile (· = 0x2f) := by
  unfold create at h
  split_ifs at h
  obtain ⟨⟨⟩, hvalid, h⟩ := bind_eq_ok_iff.1 h
  obtain rfl := Except.ok.inj h
  exact ⟨hvalid, rfl⟩

end TypesafeBackend

/-- **Credentials go to HTTPS or to a loopback host.** For all options that the constructor accepts
and every request that the backend sends, the URL begins with `https://`, or it begins with
`http://`, insecure loopback is allowed, and the authority that is read from the URL has no user
information and a loopback host, with nothing or a port behind it. The scheme and the authority are
those of the base URL. -/
theorem credentials_endpoint {backend : TypesafeBackend}
    (hcreate : TypesafeBackend.create options = .ok backend) (w : World) (codec : JsonCodec) :
    ∀ request, backend.Sent w codec request →
      (lit "https://" <+: request.url ∨
        options.allowInsecureLoopback = true ∧ lit "http://" <+: request.url ∧
          ∃ authority, Uri.authority request.url = some authority ∧ Loopback authority) ∧
      Uri.scheme request.url = Uri.scheme options.baseUrl ∧
      Uri.authority request.url = Uri.authority options.baseUrl := by
  intro request hsent
  obtain ⟨hvalid, hbase⟩ := TypesafeBackend.baseUrl_of_create hcreate
  obtain ⟨scheme, authority, path, h⟩ := endpoint_of_validateUrl hvalid
  obtain ⟨suffix, hsuffix, hurl⟩ := hsent.url
  obtain ⟨rest, htext, hscheme, hauthority⟩ := h.url hsuffix
  rw [hurl, hbase, hscheme, hauthority, h.read.1, h.read.2]
  refine ⟨?_, rfl, rfl⟩
  rw [htext, List.append_assoc]
  rcases h.scheme with rfl | ⟨rfl, hallowed, hloopback⟩
  · exact .inl ⟨authority ++ rest, rfl⟩
  · exact .inr ⟨hallowed, ⟨authority ++ rest, rfl⟩, authority, rfl, hloopback⟩

/-- A call that has not run out of time is made. -/
theorem TypesafeBackend.send_ne_nil {backend : TypesafeBackend} {w : World}
    {method path body : Bytes} {execution : RemoteExecution} {reading : Nat}
    (h : execution.error (w.env reading) = none) :
    (send backend w method path body execution reading).1 ≠ [] := by
  rw [send, sendLoop, h]
  dsimp only
  split
  · simp
  · split <;> simp

/-- A codec without texts. -/
def emptyCodec : JsonCodec where
  parse := fun _ => none
  dump := fun _ => none
  valid_of_parse := nofun
  parse_of_dump := nofun

/-- The catalog is asked for on a loopback host with a port. -/
theorem credentials_endpoint_loopback :
    let options : RemoteOptions :=
      { apiKey := lit "k", baseUrl := lit "http://[::1]:8080//", allowInsecureLoopback := true }
    let backend : TypesafeBackend := ⟨{ options with baseUrl := lit "http://[::1]:8080" }⟩
    let w := World.still fun _ _ => some (.ok { status := 200 })
    ∃ request, backend.Sent w emptyCodec request ∧
      Uri.authority request.url = Uri.authority options.baseUrl ∧
      Uri.authority options.baseUrl = some (lit "[::1]:8080") := by
  intro options backend w
  have hcalls : (TypesafeBackend.listModels backend w emptyCodec {} 0).1 ≠ [] := by
    rw [TypesafeBackend.listModels_attempts, if_neg (by decide)]
    exact TypesafeBackend.send_ne_nil rfl
  have hsent : backend.Sent w emptyCodec _ := .listModels (List.head_mem hcalls)
  exact ⟨_, hsent, (credentials_endpoint (by decide +kernel) w emptyCodec _ hsent).2.2,
    by decide +kernel⟩

end Jevt
