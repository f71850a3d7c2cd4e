import Mathlib.Data.List.DropRight
import Nifra.Text.Utf8

/-! # URLs of the http and https schemes

The WHATWG URL parser on absolute http(s) URLs: the states of its path, query and fragment, and
the serialization of what it reads. How an authority is read is a parameter, since its host parser
(IDNA, addresses) belongs to the platform.
-/

namespace Nifra.Url

def scalars (s : JSString) : List ℕ := (characters s).map scalarOf

/-- The C0 controls and everything past `~`. -/
def c0Set (c : ℕ) : Bool := decide (c ≤ 0x1F ∨ 0x7E < c)

def fragmentSet (c : ℕ) : Bool := c0Set c || (js " \"<>`").contains c

def querySet (c : ℕ) : Bool := c0Set c || (js " \"#<>").contains c

def specialQuerySet (c : ℕ) : Bool := querySet c || c == 39

/-- The path percent-encode set, with `^` for the parsers that encode it. -/
def pathSet (caret : Bool) (c : ℕ) : Bool :=
  querySet c || (js "?`{}").contains c || (caret && c == 94)

def encodeChar (set : ℕ → Bool) (c : ℕ) : JSString :=
  if set c then (utf8 c).flatMap escape else [c]

def encode (set : ℕ → Bool) (s : List ℕ) : JSString := s.flatMap (encodeChar set)

/-- The text after a leading `.` or `%2e`, the dots of a segment. -/
def afterDot : List ℕ → Option (List ℕ)
  | 46 :: rest => some rest
  | 37 :: 50 :: e :: rest => if e = 69 ∨ e = 101 then some rest else none
  | _ => none

def isSingleDot (segment : List ℕ) : Bool := afterDot segment == some []

def isDoubleDot (segment : List ℕ) : Bool := (afterDot segment).bind afterDot == some []

def isSlash (c : ℕ) : Bool := c == 47 || c == 92

/-- What the end of a segment makes of the path, `slash` when a slash ends it. -/
def endSegment (path : List JSString) (buffer : JSString) (slash : Bool) : List JSString :=
  if isDoubleDot buffer then
    if slash then path.dropLast else path.dropLast ++ [[]]
  else if isSingleDot buffer then
    if slash then path else path ++ [[]]
  else path ++ [buffer]

/-- The path state, and what it leaves unread. A setter's value is read to its end; a URL's path
stops at `?` and `#`. -/
def pathState (set : ℕ → Bool) (stops : Bool) :
    List JSString → JSString → List ℕ → List JSString × List ℕ
  | path, buffer, [] => (endSegment path buffer false, [])
  | path, buffer, c :: rest =>
    if isSlash c then pathState set stops (endSegment path buffer true) [] rest
    else if stops && (c == 63 || c == 35) then (endSegment path buffer false, c :: rest)
    else pathState set stops path (buffer ++ encodeChar set c) rest

def pathStart (set : ℕ → Bool) (stops : Bool) : List ℕ → List JSString × List ℕ
  | [] => pathState set stops [] [] []
  | c :: rest =>
    if isSlash c then pathState set stops [] [] rest else pathState set stops [] [] (c :: rest)

def pathText (path : List JSString) : JSString := path.flatMap (47 :: ·)

/-- An http(s) URL, its credentials, host and port as they are serialized. -/
structure URL where
  secure : Bool
  authority : JSString
  path : List JSString
  query : Option JSString
  fragment : Option JSString
  deriving DecidableEq, Repr

def URL.pathname (url : URL) : JSString := pathText url.path

/-- `url.search`, empty for a query that is empty. -/
def URL.search (url : URL) : JSString :=
  match url.query with
  | none => []
  | some query => if query = [] then [] else 63 :: query

def schemeText (secure : Bool) : JSString := if secure then js "https://" else js "http://"

def marked (mark : ℕ) (part : Option JSString) : JSString :=
  match part with
  | none => []
  | some part => mark :: part

def URL.href (url : URL) : JSString :=
  schemeText url.secure ++ url.authority ++ url.pathname ++ marked 63 url.query ++
    marked 35 url.fragment

def isBreak (c : ℕ) : Bool := c == 9 || c == 10 || c == 13

/-- `url.pathname = value`, which the path start state reads to its end. -/
def URL.setPathname (url : URL) (set : ℕ → Bool) (value : JSString) : URL :=
  { url with path := (pathStart set false ((scalars value).filter (!isBreak ·))).1 }

/-- A C0 control or a space, which the parser drops at both ends of its input. -/
def isTrimmed (c : ℕ) : Bool := decide (c ≤ 0x20)

/-- The input without leading and trailing controls and spaces, tabs and newlines. -/
def strip (s : List ℕ) : List ℕ :=
  ((s.dropWhile isTrimmed).rdropWhile isTrimmed).filter (!isBreak ·)

def lower (c : ℕ) : ℕ := if 65 ≤ c ∧ c ≤ 90 then c + 32 else c

/-- The scheme state: whether the scheme is https, and what is left after the colon. -/
def scheme (s : List ℕ) : Option (Bool × List ℕ) :=
  match s.dropWhile (· != 58) with
  | [] => none
  | _ :: rest =>
    let name := (s.takeWhile (· != 58)).map lower
    if name = js "http" then some (false, rest)
    else if name = js "https" then some (true, rest)
    else none

def endsAuthority (c : ℕ) : Bool := isSlash c || c == 63 || c == 35

def queryState (s : List ℕ) : Option JSString × List ℕ :=
  match s with
  | 63 :: rest =>
    (some (encode specialQuerySet (rest.takeWhile (· != 35))), rest.dropWhile (· != 35))
  | _ => (none, s)

def fragmentState (s : List ℕ) : Option JSString :=
  match s with
  | 35 :: rest => some (encode fragmentSet rest)
  | _ => none

/-- How a platform reads an authority: its serialization, `none` for one it refuses. -/
abbrev Authorities := Bool → List ℕ → Option JSString

def parseScalars (authorities : Authorities) (set : ℕ → Bool) (s : List ℕ) : Option URL :=
  (scheme (strip s)).bind fun (secure, rest) =>
    let rest := rest.dropWhile isSlash
    (authorities secure (rest.takeWhile (!endsAuthority ·))).map fun authority =>
      let (path, rest) := pathStart set true (rest.dropWhile (!endsAuthority ·))
      let (query, rest) := queryState rest
      ⟨secure, authority, path, query, fragmentState rest⟩

/-- `new URL(s)` for an http(s) URL, `none` when there is no such URL. -/
def parse (authorities : Authorities) (set : ℕ → Bool) (s : JSString) : Option URL :=
  parseScalars authorities set (scalars s)

/-- What every platform documents of its authorities: a serialization is printable, ends at no
delimiter, and is read again as itself; an empty authority is refused. -/
structure Documented (authorities : Authorities) : Prop where
  printable : ∀ {secure text authority}, authorities secure text = some authority →
    ∀ c ∈ authority, 0x20 < c ∧ c ≤ 0x7E ∧ endsAuthority c = false
  again : ∀ {secure text authority}, authorities secure text = some authority →
    authorities secure authority = some authority
  nonempty : ∀ secure, authorities secure [] = none
  localhost : authorities false (js "localhost") = some (js "localhost")

theorem scalars_ascii {s : JSString} (h : ∀ c ∈ s, c < 0x80) (rest : JSString) :
    scalars (s ++ rest) = s ++ scalars rest := by
  induction s with
  | nil => rfl
  | cons c s ih =>
    obtain ⟨hc, hs⟩ := List.forall_mem_cons.mp h
    have hscalar : IsScalar c := Or.inl (by omega)
    have hchars := characters_utf16 hscalar (s ++ rest)
    rw [JSString.utf16, if_pos (by omega), List.singleton_append] at hchars
    simp only [scalars, List.cons_append, hchars, List.map_cons, scalarOf,
      unitScalar_of_isScalar hscalar, List.cons.injEq, true_and]
    exact ih hs

theorem isScalar_unitScalar (c : ℕ) : IsScalar (unitScalar c) := by
  unfold unitScalar
  split_ifs with h
  · exact h
  · decide

theorem isScalar_pairScalar {c d : ℕ} (hc : 0xD800 ≤ c ∧ c < 0xDC00)
    (hd : 0xDC00 ≤ d ∧ d < 0xE000) : IsScalar (pairScalar c d) := by
  unfold IsScalar pairScalar
  omega

theorem isScalar_of_mem_scalars {s : JSString} : ∀ c ∈ scalars s, IsScalar c := by
  unfold scalars
  fun_induction characters s with
  | case1 => simp
  | case2 c =>
    simp only [List.map_cons, List.map_nil, List.mem_singleton, forall_eq]
    exact isScalar_unitScalar c
  | case3 c d rest h ih =>
    simp only [JSON.isLeadSurrogate, JSON.isTrailSurrogate, decide_eq_true_eq] at h
    exact List.forall_mem_cons.mpr ⟨isScalar_pairScalar h.1 h.2, ih⟩
  | case4 c d rest h ih =>
    exact List.forall_mem_cons.mpr ⟨isScalar_unitScalar c, ih⟩

def EscapeChar (c : ℕ) : Prop := c = 37 ∨ (48 ≤ c ∧ c ≤ 57) ∨ (65 ≤ c ∧ c ≤ 70)

theorem escapeChar_hexDigit {d : ℕ} (h : d < 16) : EscapeChar (hexDigit d) := by
  unfold EscapeChar hexDigit
  split_ifs <;> omega

theorem mem_encodeChar {set : ℕ → Bool} {c d : ℕ} (hc : IsScalar c) (hd : d ∈ encodeChar set c) :
    (d = c ∧ set c = false) ∨ EscapeChar d := by
  unfold encodeChar at hd
  split_ifs at hd with hset
  · obtain ⟨b, hb, hd⟩ := List.mem_flatMap.mp hd
    have hlt := utf8_lt hc b hb
    rcases List.mem_cons.mp hd with rfl | hd
    · exact Or.inr (Or.inl rfl)
    rcases List.mem_cons.mp hd with rfl | hd
    · exact Or.inr (escapeChar_hexDigit (by omega))
    · rw [List.mem_singleton.mp hd]
      exact Or.inr (escapeChar_hexDigit (Nat.mod_lt _ (by omega)))
  · exact Or.inl ⟨List.mem_singleton.mp hd, by simpa using hset⟩

theorem encode_of_forall {set : ℕ → Bool} {s : List ℕ} (h : ∀ c ∈ s, set c = false) :
    encode set s = s := by
  induction s with
  | nil => rfl
  | cons c s ih =>
    obtain ⟨hc, hs⟩ := List.forall_mem_cons.mp h
    have hrest := ih hs
    unfold encode at hrest ⊢
    simp [encodeChar, hc, hrest]

theorem encode_kept {set : ℕ → Bool} (hset : ∀ c, EscapeChar c → set c = false) {s : List ℕ}
    (hs : ∀ c ∈ s, IsScalar c) : ∀ d ∈ encode set s, set d = false := by
  intro d hd
  obtain ⟨c, hc, hd⟩ := List.mem_flatMap.mp hd
  rcases mem_encodeChar (hs c hc) hd with ⟨rfl, hkept⟩ | hescape
  · exact hkept
  · exact hset d hescape

end Nifra.Url
