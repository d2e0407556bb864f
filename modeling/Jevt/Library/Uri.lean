import Mathlib.Data.List.DropRight
import Mathlib.Data.UInt

/-!
# The scheme and the authority of a URI

A URI begins with its scheme and a colon, and its authority is the text between two slashes and the
next slash, question mark or number sign. An authority may begin with user information before an at
sign; then comes the host, which ends with its bracket or before a colon, and then the port. An
authority is read up to the path that follows it (`takeWhile_authority`), and it stays in place when
slashes at the end of the text are removed (`rdropWhile_path`).
-/

namespace Jevt.Library.Uri

/-- Whether a byte ends an authority: a slash, a question mark or a number sign. -/
def isDelimiter (c : UInt8) : Bool :=
  c == 0x2f || c == 0x3f || c == 0x23

/-- The scheme of a URI, the text in front of the first colon. -/
def scheme (uri : List UInt8) : List UInt8 :=
  uri.takeWhile (· ≠ 0x3a)

/-- The text from an authority on, which a colon and two slashes come before. -/
def hierarchy (uri : List UInt8) : Option (List UInt8) :=
  let rest := uri.dropWhile (· ≠ 0x3a)
  if [0x3a, 0x2f, 0x2f].isPrefixOf rest then some (rest.drop 3) else none

/-- The authority of a URI. -/
def authority (uri : List UInt8) : Option (List UInt8) :=
  (hierarchy uri).map (List.takeWhile fun c => !isDelimiter c)

/-- The user information of an authority, the text in front of an at sign. -/
def userInfo (authority : List UInt8) : Option (List UInt8) :=
  if authority.contains 0x40 then some (authority.takeWhile (· ≠ 0x40)) else none

/-- The host and the port of an authority. -/
def hostPort (authority : List UInt8) : List UInt8 :=
  if authority.contains 0x40 then (authority.dropWhile (· ≠ 0x40)).tail else authority

/-- The host of an authority: through the closing bracket if it begins with a bracket, otherwise the
text in front of the first colon. -/
def host (authority : List UInt8) : List UInt8 :=
  let text := hostPort authority
  if text.head? = some 0x5b then
    text.takeWhile (· ≠ 0x5d) ++ (text.dropWhile (· ≠ 0x5d)).take 1
  else text.takeWhile (· ≠ 0x3a)

/-- What comes after the host of an authority. -/
def port (authority : List UInt8) : List UInt8 :=
  (hostPort authority).drop (host authority).length

/-- A byte that is searched for is found. -/
theorem eq_of_dropWhile_eq_cons {x c : UInt8} {l rest : List UInt8}
    (h : l.dropWhile (· ≠ x) = c :: rest) : c = x := by
  have hfound := List.head?_dropWhile_not (fun c : UInt8 => decide (c ≠ x)) l
  rw [h] at hfound
  simpa using hfound

variable {a path rest : List UInt8}

/-- An authority is read up to a delimiter or the end. -/
theorem takeWhile_authority (ha : ∀ c ∈ a, isDelimiter c = false)
    (hpath : ∀ c ∈ path.head?, isDelimiter c = true) :
    (a ++ path).takeWhile (fun c => !isDelimiter c) = a := by
  rw [List.takeWhile_append_of_pos fun c hc => by simp [ha c hc]]
  cases path with
  | nil => simp
  | cons c path =>
    have hc := hpath c rfl
    simp [hc]

/-- Removing slashes at the end leaves a text in place that does not end with one, with nothing or
the rest of a path behind it. -/
theorem rdropWhile_path (ha : ∀ c ∈ a.getLast?, c ≠ 0x2f)
    (hrest : ∀ c ∈ rest.head?, isDelimiter c = true) :
    ∃ rest', (a ++ rest).rdropWhile (· = 0x2f) = a ++ rest' ∧
      ∀ c ∈ rest'.head?, isDelimiter c = true := by
  induction rest using List.reverseRecOn with
  | nil =>
    refine ⟨[], ?_, nofun⟩
    rw [List.append_nil, List.rdropWhile_eq_self_iff]
    intro hne
    simpa using ha _ (List.getLast?_eq_some_getLast hne)
  | append_singleton rest c ih =>
    have hhead : ∀ c ∈ rest.head?, isDelimiter c = true := fun c' hc' =>
      hrest c' (by rw [List.head?_append, hc']; rfl)
    rw [← List.append_assoc, List.rdropWhile_concat]
    split
    · exact ih hhead
    · exact ⟨rest ++ [c], List.append_assoc _ _ _, hrest⟩

/-- What is read of a URI that is made of a scheme, an authority and a path. -/
theorem read_uri {name : List UInt8} (h : 0x3a ∉ name) (ha : ∀ c ∈ a, isDelimiter c = false)
    (hpath : ∀ c ∈ path.head?, isDelimiter c = true) :
    scheme (name ++ [0x3a, 0x2f, 0x2f] ++ (a ++ path)) = name ∧
      authority (name ++ [0x3a, 0x2f, 0x2f] ++ (a ++ path)) = some a := by
  have hall : ∀ c ∈ name, decide (c ≠ 0x3a) = true := fun c hc =>
    decide_eq_true fun heq => h (heq ▸ hc)
  rw [scheme, authority, hierarchy, List.append_assoc, List.takeWhile_append_of_pos hall,
    List.dropWhile_append_of_pos hall]
  exact ⟨by simp, by simpa using takeWhile_authority ha hpath⟩

/-- The host and the port are the host, followed by the port. -/
theorem host_append_port (a : List UInt8) : host a ++ port a = hostPort a := by
  refine List.prefix_iff_eq_append.1 ?_
  unfold host
  dsimp only
  split
  · conv_rhs => rw [← List.takeWhile_append_dropWhile (p := fun c => decide (c ≠ 0x5d))
      (l := hostPort a)]
    exact (List.prefix_append_right_inj _).2 (List.take_prefix _ _)
  · exact List.takeWhile_prefix _

/-- An authority without an at sign has no user information. -/
theorem userInfo_eq_none (h : (0x40 : UInt8) ∉ a) : userInfo a = none := by
  simp [userInfo, h]

/-- An authority without an at sign is its host and its port. -/
theorem hostPort_eq_self (h : (0x40 : UInt8) ∉ a) : hostPort a = a := by
  simp [hostPort, h]

/-- A host in brackets is read through the closing one. -/
theorem host_bracket {text : List UInt8} (hopen : (hostPort a).head? = some 0x5b)
    (hclose : (hostPort a).dropWhile (· ≠ 0x5d) = 0x5d :: text) :
    host a = (hostPort a).takeWhile (· ≠ 0x5d) ++ [0x5d] ∧ port a = text := by
  have hhost : host a = (hostPort a).takeWhile (· ≠ 0x5d) ++ [0x5d] := by
    rw [host]
    rw [if_pos hopen, hclose, List.take_one, List.head?_cons, Option.toList_some]
  refine ⟨hhost, ?_⟩
  have hsplit : hostPort a = host a ++ text := by
    rw [hhost, List.append_assoc, List.singleton_append, ← hclose,
      List.takeWhile_append_dropWhile]
  exact List.append_cancel_left ((host_append_port a).trans hsplit)

/-- A host without brackets is read up to the colon. -/
theorem host_name (h : (hostPort a).head? ≠ some 0x5b) :
    host a = (hostPort a).takeWhile (· ≠ 0x3a) ∧ port a = (hostPort a).dropWhile (· ≠ 0x3a) := by
  have hhost : host a = (hostPort a).takeWhile (· ≠ 0x3a) := if_neg h
  refine ⟨hhost, ?_⟩
  have hsplit := host_append_port a
  rw [hhost] at hsplit
  exact List.append_cancel_left (hsplit.trans List.takeWhile_append_dropWhile.symm)

end Jevt.Library.Uri
