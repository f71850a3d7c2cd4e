import Nifra.Lib.Conditions
import Nifra.Lib.Double
import Nifra.Server.Query
import Nifra.Text.JSString

/-! # Cookies

The `Cookie` header of a request as a walk over its positions, the check for a name given
twice, and the text of a `Set-Cookie` header.
-/

namespace Nifra.Server

def safeDecode (v : JSString) : JSString :=
  if 37 ∈ v then (decodeURIComponent v).getD v else v

/-- What the walk finds of a segment: its bounds without spaces around it, where the next one
begins, and the first equals sign from its start on. -/
structure CookieSegment where
  start : ℕ
  stop : ℕ
  next : ℕ
  eq : Option ℕ

/-- The segment at `pos`; `eq` is the equals sign kept from the segments before it. -/
def cookieSegment (header : JSString) (pos : ℕ) (eq : Option ℕ) : CookieSegment :=
  let stop := (header.indexFrom 59 pos).getD header.length
  let start := List.skipWhile (· = 32) header stop pos
  { start := start
    stop := List.retreatWhile (· = 32) header start stop
    next := stop + 1
    eq := match eq with
      | some e => if e < start then header.indexFrom 61 start else some e
      | none => none }

theorem lt_next_cookieSegment {header : JSString} {pos : ℕ} (h : pos < header.length)
    (eq : Option ℕ) : pos < (cookieSegment header pos eq).next := by
  unfold cookieSegment
  cases hend : header.indexFrom 59 pos with
  | none => simp only [Option.getD_none]; omega
  | some stop =>
    have := (List.indexFrom_eq_some_iff.mp hend).1
    simp only [Option.getD_some]
    omega

def CookieSegment.bounds (header : JSString) (segment : CookieSegment) : Option (ℕ × ℕ) :=
  match segment.eq with
  | some e =>
    if segment.start < e ∧ e < segment.stop then
      some (List.retreatWhile (· = 32) header segment.start e, e)
    else none
  | none => none

abbrev CookieState := InsertionMap JSString JSString × ParseKeyIntern

/-- What a turn of `parseCookies` does with its segment. -/
def storeSegment (fresh : Bool) (header : JSString) (segment : CookieSegment)
    (state : CookieState) : CookieState :=
  match segment.bounds header with
  | none => state
  | some (nameEnd, e) =>
    let valueStart := List.skipWhile (· = 32) header segment.stop (e + 1)
    if segment.start < nameEnd then
      let value :=
        if 2 ≤ segment.stop - valueStart ∧ header[valueStart]? = some 34 ∧
            header[segment.stop - 1]? = some 34 then
          header.slice (valueStart + 1) (segment.stop - 1)
        else header.slice valueStart segment.stop
      let (key, intern) := internParseKey fresh state.2 (header.slice segment.start nameEnd)
      if state.1.has key then (state.1, intern) else (state.1.set key (safeDecode value), intern)
    else state

/-- The loop of `parseCookies` from `pos` on. -/
def parseSegments (fresh : Bool) (header : JSString) (pos : ℕ) (eq : Option ℕ)
    (state : CookieState) : CookieState :=
  if pos < header.length then
    let segment := cookieSegment header pos eq
    parseSegments fresh header segment.next segment.eq (storeSegment fresh header segment state)
  else state
  termination_by header.length - pos
  decreasing_by all_goals exact Nat.sub_lt_sub_left ‹_› (lt_next_cookieSegment ‹_› eq)

/-- `parseCookies`, `none` for a missing header. -/
def parseCookies (fresh : Bool) (intern : ParseKeyIntern) (header : Option JSString) :
    CookieState :=
  match header with
  | none => (∅, intern)
  | some header =>
    if header = [] then (∅, intern)
    else parseSegments fresh header 0 (header.indexFrom 61 0) (∅, intern)

def namesSegment (header target : JSString) (segment : CookieSegment) : Bool :=
  match segment.bounds header with
  | none => false
  | some (nameEnd, _) => header.slice segment.start nameEnd == target

def findDuplicate (header target : JSString) (pos : ℕ) (eq : Option ℕ) (found : Bool) : Bool :=
  if pos < header.length then
    let segment := cookieSegment header pos eq
    if namesSegment header target segment then
      if found then true else findDuplicate header target segment.next segment.eq true
    else findDuplicate header target segment.next segment.eq found
  else false
  termination_by header.length - pos
  decreasing_by all_goals exact Nat.sub_lt_sub_left ‹_› (lt_next_cookieSegment ‹_› eq)

def hasDuplicateCookie (header : Option JSString) (targetName : JSString) : Bool :=
  match header with
  | none => false
  | some header =>
    if header = [] ∨ targetName = [] then false
    else findDuplicate header targetName 0 (header.indexFrom 61 0) false

inductive SameSite
  | strict
  | lax
  | none

/-- `CookieOptions`. A lifetime is `none` within `some` when it is no integer; an expiry is
given by its `toUTCString()`. -/
structure CookieOptions where
  maxAge : Option (Option ℤ) := .none
  expires : Option JSString := .none
  path : Option JSString := .none
  domain : Option JSString := .none
  secure : Bool := false
  httpOnly : Bool := false
  sameSite : Option SameSite := .none
  partitioned : Bool := false

def isCookieNameChar (c : ℕ) : Bool := isAlphanumeric c || (js "!#$%&'*+-.^_`|~").contains c

/-- `COOKIE_NAME.test(name)` -/
def isCookieName (name : JSString) : Bool := !name.isEmpty && name.all isCookieNameChar

inductive CookieError
  | error (message : JSString)
  | uriError

def maxCookieBytes : ℕ := 4096

inductive CookiePrefix
  | secure
  | host
  deriving DecidableEq

def cookieNamePrefix (name : JSString) : Option CookiePrefix :=
  let lowered := name.map fun c => if 65 ≤ c ∧ c ≤ 90 then c + 32 else c
  if (js "__secure-").isPrefixOf lowered then some .secure
  else if (js "__host-").isPrefixOf lowered then some .host
  else none

def hasIllegalChar (v : JSString) : Bool :=
  v.any fun code => decide (code < 0x20) || code == 0x7f || code == 0x3b

def integerText (n : ℤ) : JSString :=
  if n < 0 then 45 :: Double.text n.natAbs else Double.text n.natAbs

/-- `` `${name}=${encodeURIComponent(value)}` `` -/
def cookiePart (name value : JSString) : Option JSString :=
  (encodeURIComponent value).map fun encoded => name ++ 61 :: encoded

def checkPrefix (name : JSString) (options : CookieOptions) : Except CookieError Unit :=
  match cookieNamePrefix name with
  | none => .ok ()
  | some kind =>
    let quoted := JSON.ofString name
    if !options.secure then
      .error (.error <| js "[nifra] cookie " ++ quoted ++ js ": "
        ++ (if kind = .host then js "__Host-" else js "__Secure-") ++ js " requires Secure")
    else if kind = .host ∧ options.domain.isSome then
      .error (.error <| js "[nifra] cookie " ++ quoted ++ js ": __Host- forbids Domain")
    else if kind = .host ∧ options.path ≠ some (js "/") then
      .error (.error <| js "[nifra] cookie " ++ quoted ++ js ": __Host- requires Path=/")
    else .ok ()

/-- The attribute a text option adds, with the name of the option in its error. -/
def textAttribute (label : JSString) : Option JSString → Except CookieError JSString
  | none => .ok []
  | some text =>
    if hasIllegalChar text then
      .error (.error <| js "[nifra] cookie " ++ label ++ js " contains an illegal character")
    else .ok (js "; " ++ label ++ js "=" ++ text)

def flagAttribute (label : String) (set : Bool) : JSString :=
  if set then js "; " ++ js label else []

def maxAgeAttribute : Option (Option ℤ) → Except CookieError JSString
  | none => .ok []
  | some none => .error (.error <| js "[nifra] cookie maxAge must be an integer number of seconds")
  | some (some n) => .ok (js "; Max-Age=" ++ integerText n)

def expiresAttribute : Option JSString → JSString
  | none => []
  | some date => js "; Expires=" ++ date

def sameSiteAttribute : Option SameSite → JSString
  | none => []
  | some .strict => js "; SameSite=Strict"
  | some .none => js "; SameSite=None"
  | some .lax => js "; SameSite=Lax"

def serializeCookie (name value : JSString) (options : CookieOptions) :
    Except CookieError JSString := do
  unless isCookieName name do
    throw (.error <| js "[nifra] invalid cookie name " ++ JSON.ofString name
      ++ js ": must be an RFC 6265 token")
  checkPrefix name options
  let some part := cookiePart name value | throw .uriError
  let maxAge ← maxAgeAttribute options.maxAge
  let domain ← textAttribute (js "Domain") options.domain
  let path ← textAttribute (js "Path") options.path
  let str := part ++ maxAge ++ domain ++ path ++ expiresAttribute options.expires
    ++ flagAttribute "HttpOnly" options.httpOnly ++ flagAttribute "Secure" options.secure
    ++ flagAttribute "Partitioned" options.partitioned ++ sameSiteAttribute options.sameSite
  if maxCookieBytes < str.length then
    throw (.error <| js "[nifra] cookie " ++ JSON.ofString name ++ js " is " ++ Double.text str.length
      ++ js "B, over the " ++ Double.text maxCookieBytes ++ js "B limit")
  return str

/-! ## Cookies as they are read

The walks over a `Cookie` header against its reading segment by segment, and the values that
were written into it.
-/

def trimSpaces (text : JSString) : JSString := (text.dropWhile (· = 32)).rdropWhile (· = 32)

/-- The name and the text after the first equals sign of a segment, without the spaces around
them; `none` for a segment without a name. -/
def readPair (segment : JSString) : Option (JSString × JSString) :=
  let trimmed := trimSpaces segment
  let name := (trimmed.takeWhile (· ≠ 61)).rdropWhile (· = 32)
  if 61 ∈ trimmed ∧ name ≠ [] then
    some (name, ((trimmed.dropWhile (· ≠ 61)).drop 1).dropWhile (· = 32))
  else none

def readPairs (header : JSString) : List (JSString × JSString) :=
  (header.splitOn 59).filterMap readPair

def unquote (text : JSString) : JSString :=
  if 2 ≤ text.length ∧ text[0]? = some 34 ∧ text[text.length - 1]? = some 34 then
    text.slice 1 (text.length - 1)
  else text

variable (fresh : Bool) {header target : JSString} {pos p : ℕ}

def segmentEnd (header : JSString) (pos : ℕ) : ℕ := (header.indexFrom 59 pos).getD header.length

theorem segmentEnd_le (h : pos ≤ header.length) :
    pos ≤ segmentEnd header pos ∧ segmentEnd header pos ≤ header.length := by
  unfold segmentEnd
  cases hend : header.indexFrom 59 pos with
  | none => exact ⟨h, le_rfl⟩
  | some stop =>
    obtain ⟨hle, hget, -⟩ := List.indexFrom_eq_some_iff.mp hend
    exact ⟨hle, (List.getElem?_eq_some_iff.mp hget).1.le⟩

theorem readPairs_drop_of_le (h : header.length ≤ pos) : readPairs (header.drop pos) = [] := by
  rw [List.drop_eq_nil_of_le h]
  rfl

theorem readPairs_drop (header : JSString) (pos : ℕ) : readPairs (header.drop pos) =
    (readPair (header.slice pos (segmentEnd header pos))).toList
      ++ readPairs (header.drop (segmentEnd header pos + 1)) := by
  unfold segmentEnd
  cases hend : header.indexFrom 59 pos with
  | none =>
    rw [Option.getD_none, readPairs_drop_of_le (Nat.le_succ _), List.append_nil, readPairs,
      List.splitOn_drop_of_indexFrom_none hend, List.slice_length, List.filterMap_cons]
    cases readPair (header.drop pos) <;> rfl
  | some stop =>
    rw [Option.getD_some, readPairs, List.splitOn_drop_of_indexFrom hend, readPairs,
      List.filterMap_cons]
    cases readPair (header.slice pos stop) <;> rfl

/-- What a turn finds: the segment at `pos` without the spaces around it, and the first equals
sign from its start on. -/
structure Located (header : JSString) (pos : ℕ) (segment : CookieSegment) : Prop where
  le : pos ≤ segment.start
  start_le : segment.start ≤ segment.stop
  stop_le : segment.stop ≤ header.length
  lt_next : segment.start < segment.next
  next : segment.next = segmentEnd header pos + 1
  trimmed : header.slice segment.start segment.stop
    = trimSpaces (header.slice pos (segmentEnd header pos))
  eq : segment.eq = header.indexFrom 61 segment.start

theorem located_cookieSegment (hpos : pos ≤ header.length) (hp : p ≤ pos) :
    Located header pos (cookieSegment header pos (header.indexFrom 61 p)) := by
  obtain ⟨hle, hlength⟩ := segmentEnd_le hpos
  have hskip := List.skipped_skipWhile (· = 32) hle hlength
  have hretreat := List.retreated_retreatWhile (· = 32) hskip.le_stop hlength
  have hstart : p ≤ List.skipWhile (· = 32) header (segmentEnd header pos) pos := hp.trans hskip.le
  refine ⟨hskip.le, hretreat.le, hretreat.le_stop.trans hlength, Nat.lt_succ_of_le hskip.le_stop, rfl,
    ?_, ?_⟩
  · rw [trimSpaces, ← hskip.left]
    exact hretreat.kept
  · change (match header.indexFrom 61 p with
      | some e => if e < List.skipWhile (· = 32) header (segmentEnd header pos) pos then
          header.indexFrom 61 (List.skipWhile (· = 32) header (segmentEnd header pos) pos)
        else some e
      | none => none) = header.indexFrom 61 (List.skipWhile (· = 32) header (segmentEnd header pos) pos)
    generalize List.skipWhile (· = 32) header (segmentEnd header pos) pos = start at hstart
    cases heq : header.indexFrom 61 p with
    | none => exact (List.indexFrom_none_of_le heq hstart).symm
    | some e =>
      by_cases hlt : e < start
      · exact if_pos hlt
      · exact (if_neg hlt).trans (List.indexFrom_of_le heq hstart (by omega)).symm

/-- A segment has a pair where the walk finds bounds with a name between them. -/
inductive Bounded (header : JSString) (segment : CookieSegment) (pair : Option (JSString × JSString)) :
    Prop
  | found (nameEnd e : ℕ) (hbounds : segment.bounds header = some (nameEnd, e))
      (hle : segment.start ≤ nameEnd) (he : nameEnd ≤ e) (hstop : e + 1 ≤ segment.stop)
      (hpair : pair = if header.slice segment.start nameEnd = [] then none
        else some (header.slice segment.start nameEnd,
          (header.slice (e + 1) segment.stop).dropWhile (· = 32)))
  | none (hbounds : segment.bounds header = none) (hpair : pair = none)

theorem Located.bounded {segment : CookieSegment} (h : Located header pos segment) :
    Bounded header segment (readPair (header.slice pos (segmentEnd header pos))) := by
  have hstop := h.stop_le
  have hnone (hbounds : segment.bounds header = none)
      (hname : ((header.slice segment.start segment.stop).takeWhile (· ≠ 61)) = [] ∨
        61 ∉ header.slice segment.start segment.stop) :
      Bounded header segment (readPair (header.slice pos (segmentEnd header pos))) := by
    refine .none hbounds ?_
    rw [readPair, ← h.trimmed]
    apply if_neg
    rintro ⟨hmem, hne⟩
    rcases hname with hname | hname
    · exact hne (by rw [hname, List.rdropWhile_nil])
    · exact hname hmem
  cases heq : header.indexFrom 61 segment.start with
  | none =>
    refine hnone ?_ ?_
    · rw [CookieSegment.bounds, h.eq, heq]
    · right
      exact fun hmem => List.indexFrom_eq_none_iff.mp heq (List.mem_of_mem_take hmem)
  | some e =>
    obtain ⟨hle, hget, hnot⟩ := List.indexFrom_eq_some_iff.mp heq
    by_cases hin : segment.start < e ∧ e < segment.stop
    · have hretreat := List.retreated_retreatWhile (· = 32) hle (hin.2.le.trans hstop)
      have hslice := List.slice_of_indexFrom heq hin.2 hstop
      have htake : (header.slice segment.start segment.stop).takeWhile (· ≠ 61)
          = header.slice segment.start e := by
        rw [hslice, List.takeWhile_append_of_pos fun c hc =>
          decide_eq_true (ne_of_mem_of_not_mem hc hnot)]
        simp
      have hdrop : ((header.slice segment.start segment.stop).dropWhile (· ≠ 61)).drop 1
          = header.slice (e + 1) segment.stop := by
        rw [hslice, List.dropWhile_append_of_pos fun c hc =>
          decide_eq_true (ne_of_mem_of_not_mem hc hnot)]
        simp
      have hmem : 61 ∈ header.slice segment.start segment.stop := by
        rw [hslice]
        exact List.mem_append_right _ List.mem_cons_self
      refine .found (List.retreatWhile (· = 32) header segment.start e) e ?_
        hretreat.le hretreat.le_stop hin.2 ?_
      · rw [CookieSegment.bounds, h.eq, heq]
        exact if_pos hin
      · rw [readPair, ← h.trimmed, htake, hdrop, ← hretreat.kept]
        by_cases hname : header.slice segment.start (List.retreatWhile (· = 32) header segment.start e) = []
        · rw [if_pos hname]
          exact if_neg fun hboth => hboth.2 hname
        · rw [if_neg hname]
          exact if_pos ⟨hmem, hname⟩
    · refine hnone ?_ ?_
      · rw [CookieSegment.bounds, h.eq, heq]
        exact if_neg hin
      · by_cases hlt : e < segment.stop
        · left
          obtain rfl : e = segment.start := by omega
          rw [List.slice_of_indexFrom heq hlt hstop, List.slice_self]
          simp
        · right
          exact fun hmem => hnot (List.slice_subset le_rfl (by omega) hmem)

def storePair (state : CookieState) (pair : JSString × JSString) : CookieState :=
  let (key, intern) := internParseKey fresh state.2 pair.1
  if state.1.has key then (state.1, intern)
  else (state.1.set key (safeDecode (unquote pair.2)), intern)

theorem unquote_slice {start stop : ℕ} (hle : start ≤ stop) (hstop : stop ≤ header.length) :
    unquote (header.slice start stop)
      = if 2 ≤ stop - start ∧ header[start]? = some 34 ∧ header[stop - 1]? = some 34 then
          header.slice (start + 1) (stop - 1)
        else header.slice start stop := by
  rw [unquote, List.length_slice hstop]
  by_cases htwo : 2 ≤ stop - start
  · have hlast : start + (stop - start - 1) = stop - 1 := by omega
    rw [List.getElem?_slice (by omega), List.getElem?_slice (by omega),
      List.slice_slice (by omega), hlast, Nat.add_zero]
  · rw [if_neg fun h => htwo h.1, if_neg fun h => htwo h.1]

theorem storeSegment_eq {segment : CookieSegment} {pair : Option (JSString × JSString)}
    (hstop : segment.stop ≤ header.length) (h : Bounded header segment pair) (state : CookieState) :
    storeSegment fresh header segment state = pair.elim state (storePair fresh state) := by
  unfold storeSegment
  cases h with
  | none hbounds hpair =>
    rw [hbounds, hpair]
    rfl
  | found nameEnd e hbounds hle he hnext hpair =>
    have hskip := List.skipped_skipWhile (· = 32) hnext hstop
    have hname : header.slice segment.start nameEnd = [] ↔ nameEnd ≤ segment.start :=
      List.slice_eq_nil_iff (by omega)
    rw [hbounds, hpair]
    by_cases hlt : segment.start < nameEnd
    · have hne : header.slice segment.start nameEnd ≠ [] := by
        rw [Ne, hname]
        omega
      simp only [if_pos hlt, if_neg hne, Option.elim_some, storePair, ← hskip.left,
        unquote_slice hskip.le_stop hstop]
    · have hnil : header.slice segment.start nameEnd = [] := by
        rw [hname]
        omega
      simp only [if_neg hlt, if_pos hnil, Option.elim_none]

theorem parseSegments_eq (hp : p ≤ pos) (state : CookieState) :
    parseSegments fresh header pos (header.indexFrom 61 p) state
      = (readPairs (header.drop pos)).foldl (storePair fresh) state := by
  induction hn : header.length - pos using Nat.strong_induction_on generalizing pos p state with
  | _ n ih =>
    rw [parseSegments]
    by_cases hpos : pos < header.length
    · have hseg := located_cookieSegment hpos.le hp
      have hnext := lt_next_cookieSegment hpos (header.indexFrom 61 p)
      rw [if_pos hpos, readPairs_drop]
      simp only
      rw [storeSegment_eq fresh hseg.stop_le hseg.bounded, hseg.eq,
        ih _ (by omega) hseg.lt_next.le _ rfl, hseg.next, List.foldl_append]
      cases readPair (header.slice pos (segmentEnd header pos)) <;> rfl
    · rw [if_neg hpos, readPairs_drop_of_le (by omega)]
      rfl

theorem namesSegment_eq {segment : CookieSegment} {pair : Option (JSString × JSString)}
    (h : Bounded header segment pair) (htarget : target ≠ []) :
    namesSegment header target segment = pair.any fun pair => pair.1 == target := by
  unfold namesSegment
  cases h with
  | none hbounds hpair =>
    rw [hbounds, hpair]
    rfl
  | found nameEnd e hbounds hle he hnext hpair =>
    rw [hbounds, hpair]
    by_cases hnil : header.slice segment.start nameEnd = []
    · simpa [hnil] using htarget
    · simp [hnil]

def timesNamed (target : JSString) (pairs : List (JSString × JSString)) : ℕ :=
  pairs.countP fun pair => pair.1 == target

theorem findDuplicate_iff (htarget : target ≠ []) (hp : p ≤ pos) (found : Bool) :
    findDuplicate header target pos (header.indexFrom 61 p) found = true ↔
      2 ≤ timesNamed target (readPairs (header.drop pos)) + found.toNat := by
  induction hn : header.length - pos using Nat.strong_induction_on generalizing pos p found with
  | _ n ih =>
    rw [findDuplicate]
    by_cases hpos : pos < header.length
    · have hseg := located_cookieSegment hpos.le hp
      have hnext := lt_next_cookieSegment hpos (header.indexFrom 61 p)
      have hrest (found : Bool) := ih _ (by omega) hseg.lt_next.le found rfl
      have hcount : timesNamed target (readPairs (header.drop pos))
          = (namesSegment header target (cookieSegment header pos (header.indexFrom 61 p))).toNat
            + timesNamed target (readPairs (header.drop (segmentEnd header pos + 1))) := by
        rw [readPairs_drop, namesSegment_eq hseg.bounded htarget, timesNamed,
          List.countP_append, timesNamed]
        cases readPair (header.slice pos (segmentEnd header pos)) with
        | none => rfl
        | some pair => cases hname : pair.1 == target <;> simp [hname]
      simp only [if_pos hpos, hseg.eq]
      rw [hcount]
      cases namesSegment header target (cookieSegment header pos (header.indexFrom 61 p)) with
      | false =>
        rw [if_neg Bool.false_ne_true, hrest, hseg.next, Bool.toNat_false, Nat.zero_add]
      | true =>
        cases found with
        | false =>
          rw [if_pos rfl, if_neg Bool.false_ne_true, hrest, hseg.next]
          simp only [Bool.toNat_true, Bool.toNat_false]
          omega
        | true => simp
    · rw [if_neg hpos, readPairs_drop_of_le (by omega)]
      cases found <;> simp [timesNamed]

theorem hasDuplicateCookie_iff (header : JSString) (htarget : target ≠ []) :
    hasDuplicateCookie (some header) target = true ↔ 2 ≤ timesNamed target (readPairs header) := by
  unfold hasDuplicateCookie
  by_cases hempty : header = []
  · subst hempty
    simp [readPairs, readPair, trimSpaces, timesNamed]
  · simp only [hempty, htarget, or_self, if_false]
    rw [findDuplicate_iff htarget le_rfl, List.drop_zero]
    rfl

theorem parseCookies_eq (intern : ParseKeyIntern) (header : JSString) :
    parseCookies fresh intern (some header) = (readPairs header).foldl (storePair fresh) (∅, intern) := by
  unfold parseCookies
  by_cases hempty : header = []
  · subst hempty
    rfl
  · simp only [hempty, if_false]
    rw [parseSegments_eq fresh le_rfl, List.drop_zero]

theorem storePair_eq (state : CookieState) (pair : JSString × JSString) :
    (storePair fresh state pair).1 = if state.1.has pair.1 then state.1
      else state.1.set pair.1 (safeDecode (unquote pair.2)) := by
  unfold storePair
  simp only [internParseKey_fst]
  split_ifs <;> rfl

theorem get_foldl_storePair (pairs : List (JSString × JSString)) (state : CookieState)
    (name : JSString) : (pairs.foldl (storePair fresh) state).1.get name
      = (state.1.get name).or
          ((pairs.find? fun pair => pair.1 == name).map fun pair => safeDecode (unquote pair.2)) := by
  induction pairs generalizing state with
  | nil => simp
  | cons pair pairs ih =>
    rw [List.foldl_cons, ih, storePair_eq, List.find?_cons]
    by_cases hname : pair.1 = name
    · subst hname
      cases hget : state.1.get pair.1 <;> simp [InsertionMap.has, hget]
    · have hne : (pair.1 == name) = false := by simpa using hname
      rw [hne]
      split_ifs with hhas
      · rfl
      · rw [InsertionMap.get_set_of_ne (Ne.symm hname)]

theorem get_parseCookies (intern : ParseKeyIntern) (header name : JSString) :
    (parseCookies fresh intern (some header)).1.get name
      = ((readPairs header).find? fun pair => pair.1 == name).map
          fun pair => safeDecode (unquote pair.2) := by
  rw [parseCookies_eq, get_foldl_storePair]
  rfl

theorem has_parseCookies_iff (intern : ParseKeyIntern) (header name : JSString) :
    (parseCookies fresh intern (some header)).1.has name = true ↔
      1 ≤ timesNamed name (readPairs header) := by
  rw [InsertionMap.has, get_parseCookies, Option.isSome_map, List.find?_isSome, timesNamed,
    Nat.one_le_iff_ne_zero, ← Nat.pos_iff_ne_zero, List.countP_pos_iff]

theorem mem_encodeURIComponent {value encoded : JSString} (h : encodeURIComponent value = some encoded)
    {c : ℕ} (hc : c ∈ encoded) : uriUnreserved c = true ∨ c = 37 := by
  obtain ⟨ps, hps, rfl⟩ := Option.map_eq_some_iff.mp h
  obtain ⟨p, hp, hc⟩ := List.mem_flatMap.mp hc
  have hdigit (d : ℕ) (hd : d < 16) : uriUnreserved (hexDigit d) = true := by
    have hall : ∀ d < 16, uriUnreserved (hexDigit d) = true := by decide
    exact hall d hd
  split_ifs at hc with hraw
  · obtain rfl := List.mem_singleton.mp hc
    exact Or.inl hraw.2
  · obtain ⟨b, hb, hc⟩ := List.mem_flatMap.mp hc
    have hlt : b < 256 := utf8_lt ((codePoints_scalar_units hps).2 p hp) b hb
    simp only [escape, List.mem_cons, List.not_mem_nil, or_false] at hc
    rcases hc with rfl | rfl | rfl
    · exact Or.inr rfl
    · exact Or.inl (hdigit _ (by omega))
    · exact Or.inl (hdigit _ (by omega))

theorem decodeURIComponent_of_not_mem {s : JSString} (h : 37 ∉ s) : decodeURIComponent s = some s := by
  induction s with
  | nil => rfl
  | cons c s ih =>
    have hc : c ≠ 37 := fun hc => h (by simp [hc])
    rw [decodeURIComponent_unit hc, ih (mt (List.mem_cons_of_mem _) h), Option.map_some]

theorem safeDecode_encodeURIComponent {value encoded : JSString}
    (h : encodeURIComponent value = some encoded) : safeDecode encoded = value := by
  have hdecode := decodeURIComponent_encodeURIComponent h
  unfold safeDecode
  by_cases hpercent : 37 ∈ encoded
  · rw [if_pos hpercent, hdecode, Option.getD_some]
  · rw [if_neg hpercent]
    rw [decodeURIComponent_of_not_mem hpercent] at hdecode
    exact Option.some.inj hdecode

theorem readPair_space (segment : JSString) : readPair (32 :: segment) = readPair segment := by
  have htrim : trimSpaces (32 :: segment) = trimSpaces segment := by
    rw [trimSpaces, List.dropWhile_cons_of_pos (by decide), trimSpaces]
  simp only [readPair, htrim]

theorem rdropWhile_of_not_mem {s : JSString} (h : 32 ∉ s) : s.rdropWhile (· = 32) = s :=
  List.rdropWhile_eq_self_iff.mpr fun hne hlast =>
    h (of_decide_eq_true hlast ▸ List.getLast_mem hne)

theorem dropWhile_of_not_mem {s : JSString} (h : 32 ∉ s) : s.dropWhile (· = 32) = s :=
  List.dropWhile_eq_self_iff.mpr fun hlt hhead => h (of_decide_eq_true hhead ▸ List.getElem_mem hlt)

theorem readPair_cookiePart {name encoded : JSString} (hname : name ≠ []) (hname32 : 32 ∉ name)
    (hname61 : 61 ∉ name) (hencoded : 32 ∉ encoded) :
    readPair (name ++ 61 :: encoded) = some (name, encoded) := by
  have hspace : 32 ∉ name ++ 61 :: encoded := by simp [hname32, hencoded]
  have htrim : trimSpaces (name ++ 61 :: encoded) = name ++ 61 :: encoded := by
    rw [trimSpaces, dropWhile_of_not_mem hspace, rdropWhile_of_not_mem hspace]
  have hpass : ∀ c ∈ name, decide (c ≠ 61) = true :=
    fun c hc => decide_eq_true (ne_of_mem_of_not_mem hc hname61)
  have htake : (name ++ 61 :: encoded).takeWhile (· ≠ 61) = name := by
    rw [List.takeWhile_append_of_pos hpass]
    simp
  have hdrop : ((name ++ 61 :: encoded).dropWhile (· ≠ 61)).drop 1 = encoded := by
    rw [List.dropWhile_append_of_pos hpass]
    simp
  simp only [readPair, htrim, htake, hdrop, rdropWhile_of_not_mem hname32,
    dropWhile_of_not_mem hencoded]
  exact if_pos ⟨by simp, hname⟩

theorem splitOn_join {part : JSString} {parts : List JSString} (hpart : 59 ∉ part)
    (hparts : ∀ q ∈ parts, 59 ∉ q) :
    ((js "; ").intercalate (part :: parts)).splitOn 59 = part :: parts.map (32 :: ·) := by
  have hjoin : (js "; ").intercalate (part :: parts)
      = [59].intercalate (part :: parts.map (32 :: ·)) := by
    clear hpart hparts
    induction parts generalizing part with
    | nil => simp
    | cons q parts ih =>
      have hspace : [59].intercalate ((32 :: q) :: parts.map (32 :: ·))
          = 32 :: [59].intercalate (q :: parts.map (32 :: ·)) := by
        cases parts <;> simp
      have hsep : js "; " = [59, 32] := by decide
      rw [List.intercalate_cons_cons, ih, List.map_cons, List.intercalate_cons_cons, hspace, hsep]
      simp
  rw [hjoin, List.splitOn_intercalate 59 _ (List.cons_ne_nil _ _)]
  rintro l hl
  rcases List.mem_cons.mp hl with rfl | hl
  · exact hpart
  · obtain ⟨q, hq, rfl⟩ := List.mem_map.mp hl
    simpa using hparts q hq

theorem intercalate_cons (part : JSString) (parts : List JSString) :
    (js "; ").intercalate (part :: parts) = part ++ parts.flatMap (js "; " ++ ·) := by
  induction parts generalizing part with
  | nil => simp
  | cons q parts ih =>
    rw [List.intercalate_cons_cons, ih, List.flatMap_cons, List.append_assoc, List.append_assoc]

theorem isCookieName_ne {name : JSString} (h : isCookieName name = true) {c : ℕ}
    (hc : isCookieNameChar c = false) : name ≠ [] ∧ c ∉ name := by
  simp only [isCookieName, Bool.and_eq_true, Bool.not_eq_true', List.isEmpty_eq_false_iff,
    List.all_eq_true] at h
  refine ⟨h.1, ?_⟩
  rintro hmem
  rw [h.2 c hmem] at hc
  cases hc

structure WrittenPart (pair : JSString × JSString) (part : JSString) : Prop where
  read : ∃ raw, readPair part = some (pair.1, raw) ∧ safeDecode (unquote raw) = pair.2
  separate : 59 ∉ part

theorem writtenPart {pair : JSString × JSString} {part : JSString}
    (hname : isCookieName pair.1 = true) (h : cookiePart pair.1 pair.2 = some part) :
    WrittenPart pair part := by
  obtain ⟨encoded, hencoded, rfl⟩ := Option.map_eq_some_iff.mp h
  obtain ⟨hne, hname32⟩ := isCookieName_ne hname (c := 32) (by decide)
  have hname61 := (isCookieName_ne hname (c := 61) (by decide)).2
  have hname59 := (isCookieName_ne hname (c := 59) (by decide)).2
  have hnot (c : ℕ) (hraw : uriUnreserved c = false) (hc : c ≠ 37) : c ∉ encoded := by
    rintro hmem
    rcases mem_encodeURIComponent hencoded hmem with htrue | rfl
    · exact Bool.false_ne_true (hraw.symm.trans htrue)
    · exact hc rfl
  have hunquote : unquote encoded = encoded := by
    apply if_neg
    rintro ⟨-, hquote, -⟩
    exact hnot 34 (by decide) (by decide) (List.mem_of_getElem? hquote)
  refine ⟨⟨encoded, readPair_cookiePart hne hname32 hname61 (hnot 32 (by decide) (by decide)), ?_⟩, ?_⟩
  · rw [hunquote]
    exact safeDecode_encodeURIComponent hencoded
  · simp [hname59, hnot 59 (by decide) (by decide)]

theorem find?_filterMap_readPair {pairs : List (JSString × JSString)} {parts : List JSString}
    (h : List.Forall₂ WrittenPart pairs parts) (name : JSString) :
    ((parts.filterMap readPair).find? fun pair => pair.1 == name).map
        (fun pair => safeDecode (unquote pair.2))
      = (pairs.find? fun pair => pair.1 == name).map Prod.snd := by
  induction h with
  | nil => rfl
  | @cons pair part pairs parts hpart hparts ih =>
    obtain ⟨raw, hread, hvalue⟩ := hpart.read
    rw [List.filterMap_cons, hread, List.find?_cons, List.find?_cons]
    cases hname : pair.1 == name with
    | true => simp [hvalue]
    | false => exact ih

theorem readPairs_join (parts : List JSString) (h : ∀ part ∈ parts, 59 ∉ part) :
    readPairs ((js "; ").intercalate parts) = parts.filterMap readPair := by
  cases parts with
  | nil => rfl
  | cons part parts =>
    obtain ⟨hpart, hparts⟩ := List.forall_mem_cons.mp h
    have hspaces : (parts.map (32 :: ·)).filterMap readPair = parts.filterMap readPair := by
      rw [List.filterMap_map]
      exact List.filterMap_congr fun q _ => readPair_space q
    rw [readPairs, splitOn_join hpart hparts, List.filterMap_cons, List.filterMap_cons, hspaces]

theorem exists_parts {pairs : List (JSString × JSString)}
    (h : ∀ pair ∈ pairs, isCookieName pair.1 = true ∧ WellFormed pair.2) :
    ∃ parts, List.Forall₂ (fun pair part => cookiePart pair.1 pair.2 = some part) pairs parts ∧
      List.Forall₂ WrittenPart pairs parts ∧ ∀ part ∈ parts, 59 ∉ part := by
  induction pairs with
  | nil => exact ⟨[], .nil, .nil, fun _ hmem => nomatch hmem⟩
  | cons pair pairs ih =>
    obtain ⟨⟨hname, hvalue⟩, hpairs⟩ := List.forall_mem_cons.mp h
    obtain ⟨parts, hparts, hwritten, hseparate⟩ := ih hpairs
    obtain ⟨part, hpart⟩ : ∃ part, cookiePart pair.1 pair.2 = some part := by
      rw [← Option.isSome_iff_exists, cookiePart, Option.isSome_map, encodeURIComponent,
        percentEncode, Option.isSome_map]
      exact hvalue
    have hfirst := writtenPart hname hpart
    exact ⟨part :: parts, .cons hpart hparts, .cons hfirst hwritten,
      List.forall_mem_cons.mpr ⟨hfirst.separate, hseparate⟩⟩

theorem WrittenPart.get_parseCookies {name value part : JSString}
    (h : WrittenPart (name, value) part) (fresh : Bool) (intern : ParseKeyIntern) (other : JSString) :
    (parseCookies fresh intern (some part)).1.get other = if name = other then some value else none := by
  obtain ⟨raw, hread, hvalue⟩ := h.read
  have hpairs : readPairs part = [(name, raw)] := by
    rw [readPairs, List.splitOn_eq_singleton h.separate]
    simp [hread]
  rw [Server.get_parseCookies, hpairs]
  by_cases hother : name = other <;> simp [hother, hvalue]

def SameSite.segment : SameSite → JSString
  | .strict => js "SameSite=Strict"
  | .none => js "SameSite=None"
  | .lax => js "SameSite=Lax"

/-- The attributes that the options of a cookie stand for. -/
def CookieOptions.attributes (options : CookieOptions) : List JSString :=
  (options.maxAge.join.map fun n => js "Max-Age=" ++ integerText n).toList ++
    ((options.domain.map fun domain => js "Domain" ++ js "=" ++ domain).toList ++
    ((options.path.map fun path => js "Path" ++ js "=" ++ path).toList ++
    ((options.expires.map fun date => js "Expires=" ++ date).toList ++
    ((if options.httpOnly then [js "HttpOnly"] else []) ++
    ((if options.secure then [js "Secure"] else []) ++
    ((if options.partitioned then [js "Partitioned"] else []) ++
    (options.sameSite.map SameSite.segment).toList))))))

/-- A text that adds these segments behind a cookie's pair. -/
structure Adds (text : JSString) (segments : List JSString) : Prop where
  join : text = segments.flatMap (js "; " ++ ·)
  separate : ∀ q ∈ segments, 59 ∉ q

theorem Adds.append {text text' : JSString} {segments segments' : List JSString}
    (h : Adds text segments) (h' : Adds text' segments') :
    Adds (text ++ text') (segments ++ segments') := by
  refine ⟨?_, List.forall_mem_append.mpr ⟨h.separate, h'.separate⟩⟩
  rw [List.flatMap_append, ← h.join, ← h'.join]

theorem adds_nil : Adds [] [] := ⟨rfl, List.forall_mem_nil _⟩

theorem adds_one {text : JSString} (h : 59 ∉ text) : Adds (js "; " ++ text) [text] :=
  ⟨by simp, by simpa using h⟩

theorem adds_textAttribute {label added : JSString} {text : Option JSString} (hlabel : 59 ∉ label)
    (h : textAttribute label text = .ok added) :
    Adds added (text.map fun text => label ++ js "=" ++ text).toList := by
  cases text with
  | none =>
    obtain rfl := Except.ok.inj h
    exact adds_nil
  | some text =>
    simp only [textAttribute] at h
    split_ifs at h with hillegal
    obtain rfl := Except.ok.inj h
    have htext : 59 ∉ text := fun hmem => hillegal (List.any_eq_true.mpr ⟨59, hmem, rfl⟩)
    have hequals : 59 ∉ js "=" := by decide
    have hsegment : 59 ∉ label ++ js "=" ++ text :=
      List.not_mem_append (List.not_mem_append hlabel hequals) htext
    rw [List.append_assoc, List.append_assoc, ← List.append_assoc label]
    exact adds_one hsegment

theorem adds_maxAgeAttribute {added : JSString} {maxAge : Option (Option ℤ)}
    (h : maxAgeAttribute maxAge = .ok added) :
    Adds added (maxAge.join.map fun n => js "Max-Age=" ++ integerText n).toList := by
  have htext (m : ℕ) : 59 ∉ Double.text m := fun hmem => by
    have hdigit := Double.isDecimalChar_of_mem_render hmem
    simp [Double.IsDecimalChar] at hdigit
  have hinteger (n : ℤ) : 59 ∉ integerText n := by
    unfold integerText
    split_ifs
    · simpa using htext _
    · exact htext _
  cases maxAge with
  | none =>
    obtain rfl := Except.ok.inj h
    exact adds_nil
  | some seconds =>
    cases seconds with
    | none => cases h
    | some n =>
      obtain rfl := Except.ok.inj h
      have hlabel : 59 ∉ js "Max-Age=" := by decide
      exact adds_one (List.not_mem_append hlabel (hinteger n))

theorem adds_expiresAttribute {expires : Option JSString} (h : ∀ date ∈ expires, 59 ∉ date) :
    Adds (expiresAttribute expires) (expires.map fun date => js "Expires=" ++ date).toList := by
  cases expires with
  | none => exact adds_nil
  | some date =>
    have hlabel : 59 ∉ js "Expires=" := by decide
    exact adds_one (List.not_mem_append hlabel (h date rfl))

theorem adds_sameSiteAttribute (sameSite : Option SameSite) :
    Adds (sameSiteAttribute sameSite) (sameSite.map SameSite.segment).toList := by
  cases sameSite with
  | none => exact adds_nil
  | some sameSite =>
    cases sameSite with
    | strict => exact @adds_one SameSite.strict.segment (by decide)
    | none => exact @adds_one SameSite.none.segment (by decide)
    | lax => exact @adds_one SameSite.lax.segment (by decide)

theorem adds_flagAttribute {label : String} (h : 59 ∉ js label) (set : Bool) :
    Adds (flagAttribute label set) (if set then [js label] else []) := by
  cases set with
  | false => exact adds_nil
  | true => exact adds_one h

/-- What `serializeCookie` returns is its pair and the attributes of its options, of which none
adds another, and the pair is read back. -/
theorem serializeCookie_segments {name value str : JSString} {options : CookieOptions}
    (h : serializeCookie name value options = .ok str) (hdate : ∀ date ∈ options.expires, 59 ∉ date) :
    ∃ part, str.splitOn 59 = part :: options.attributes.map (32 :: ·) ∧
      ∀ (fresh : Bool) (intern : ParseKeyIntern) other,
        (parseCookies fresh intern (some part)).1.get other =
          if name = other then some value else none := by
  unfold serializeCookie at h
  by_cases hname : isCookieName name
  · simp only [hname, if_true] at h
    obtain ⟨-, -, h⟩ := except_bind_eq_ok_iff.mp h
    cases hpart : cookiePart name value with
    | none =>
      rw [hpart] at h
      cases h
    | some part =>
      have hwritten := @writtenPart (name, value) part hname hpart
      rw [hpart] at h
      obtain ⟨maxAge, hmaxAge, h⟩ := except_bind_eq_ok_iff.mp h
      obtain ⟨domain, hdomain, h⟩ := except_bind_eq_ok_iff.mp h
      obtain ⟨path, hpath, h⟩ := except_bind_eq_ok_iff.mp h
      split_ifs at h
      · cases h
      · obtain rfl := Except.ok.inj h
        have hadds :=
          (adds_maxAgeAttribute hmaxAge).append <|
            (adds_textAttribute (by decide) hdomain).append <|
            (adds_textAttribute (by decide) hpath).append <|
            (adds_expiresAttribute hdate).append <|
            (@adds_flagAttribute "HttpOnly" (by decide) options.httpOnly).append <|
            (@adds_flagAttribute "Secure" (by decide) options.secure).append <|
            (@adds_flagAttribute "Partitioned" (by decide) options.partitioned).append <|
            adds_sameSiteAttribute options.sameSite
        refine ⟨part, ?_, fun fresh intern other => ?_⟩
        · simp only [List.append_assoc]
          rw [hadds.join, ← intercalate_cons]
          exact splitOn_join hwritten.separate hadds.separate
        · exact hwritten.get_parseCookies fresh intern other
  · simp [hname, bind, Except.bind] at h

theorem serializeCookie_segments_session :
    (∃ part, (js "sid=a%3Bb; Path=/; Secure").splitOn 59 = part :: [js " Path=/", js " Secure"] ∧
      ∀ (fresh : Bool) (intern : ParseKeyIntern) other,
        (parseCookies fresh intern (some part)).1.get other =
          if js "sid" = other then some (js "a;b") else none) :=
  @serializeCookie_segments (js "sid") (js "a;b") _ { path := some (js "/"), secure := true } rfl
    (by decide)

/-- Cookies are read as they were written, the first of a name before the others, and the check
for duplicates counts the segments that are read. -/
theorem cookies_sound (intern : ParseKeyIntern) :
    (∀ pairs : List (JSString × JSString),
      (∀ pair ∈ pairs, isCookieName pair.1 = true ∧ WellFormed pair.2) →
      ∃ parts, List.Forall₂ (fun pair part => cookiePart pair.1 pair.2 = some part) pairs parts ∧
        ∀ name, (parseCookies fresh intern (some ((js "; ").intercalate parts))).1.get name
          = (pairs.find? fun pair => pair.1 == name).map Prod.snd) ∧
    ∀ header name : JSString, name ≠ [] →
      (hasDuplicateCookie (some header) name = true ↔ 2 ≤ timesNamed name (readPairs header)) ∧
      ((parseCookies fresh intern (some header)).1.has name = true ↔
        1 ≤ timesNamed name (readPairs header)) := by
  constructor
  · rintro pairs hpairs
    obtain ⟨parts, hparts, hwritten, hseparate⟩ := exists_parts hpairs
    refine ⟨parts, hparts, ?_⟩
    rintro name
    rw [get_parseCookies, readPairs_join parts hseparate, find?_filterMap_readPair hwritten]
  · rintro header name hname
    exact ⟨hasDuplicateCookie_iff header hname, has_parseCookies_iff fresh intern header name⟩

theorem cookies_sound_session :
    (∃ parts, List.Forall₂ (fun pair part => cookiePart pair.1 pair.2 = some part)
        [(js "sid", js "a b"), (js "sid", js "c")] parts ∧
      ∀ name, (parseCookies true ∅ (some ((js "; ").intercalate parts))).1.get name
        = ([(js "sid", js "a b"), (js "sid", js "c")].find? fun pair => pair.1 == name).map
            Prod.snd) ∧
    (hasDuplicateCookie (some (js "sid=a; sid; sid=b")) (js "sid") = true ↔
      2 ≤ timesNamed (js "sid") (readPairs (js "sid=a; sid; sid=b"))) := by
  refine ⟨(cookies_sound true ∅).1 _ ?_, ((cookies_sound true ∅).2 _ _ (by decide)).1⟩
  rintro pair hpair
  rcases List.mem_cons.mp hpair with rfl | hpair
  · exact ⟨by decide, wellFormed_ascii (by decide)⟩
  · obtain rfl := List.mem_singleton.mp hpair
    exact ⟨by decide, wellFormed_ascii (by decide)⟩

end Nifra.Server
