import Mathlib.Data.List.Infix
import Nifra.Text.UrlParse

/-! # The path a request target is routed on

A runtime that hands over the raw target resolves it first, unless a regular expression says that a
URL parser would leave its path as written. What is routed is the path of the parsed URL, whichever
of the two happens.
-/

namespace Nifra.RequestTarget

open Nifra.Url

/-- What the platform's `URL` does where platforms differ or the standard's tables decide: how it
reads an authority, whether it encodes `^` in a path, and the `href`, its path's carets encoded, of
a URL of another scheme. -/
structure Platform where
  authorities : Authorities
  caret : Bool
  others : JSString → Option JSString

def isKept (c : ℕ) : Bool := isAlphanumeric c || (js "!#$%&'()*+,-./:;=?@[\\]_|~").contains c

def isMark (c : ℕ) : Bool := c == 63 || c == 35

/-- `(?:[/?#]|$)` -/
def segmentEnds : List ℕ → Bool
  | [] => true
  | c :: _ => c == 47 || isMark c

/-- `(?:\.|%2e){1,2}(?:[/?#]|$)`, at the front of a text. -/
def dotsAt (s : List ℕ) : Bool :=
  (afterDot s).any segmentEnds || ((afterDot s).bind afterDot).any segmentEnds

/-- `/(?:\.|%2e){1,2}(?:[/?#]|$)`, at the front of a text. -/
def dotSegmentAt : List ℕ → Bool
  | 47 :: rest => dotsAt rest
  | _ => false

def needsResolving (target : JSString) : Bool :=
  target.contains 92 || target.tails.any dotSegmentAt ||
    (target.takeWhile (!isMark ·)).any (!isKept ·)

def urlText (target : JSString) : JSString :=
  if target.head? = some 47 then js "http://localhost" ++ target else target

/-- `none` for the `TypeError` of a text no URL parser accepts. -/
def resolveDotSegments (platform : Platform) (target : JSString) : Option JSString :=
  let parsed := parse platform.authorities (pathSet platform.caret) (urlText target)
  if target.head? = some 47 then
    parsed.map fun url => replaceCaret url.pathname ++ url.search
  else
    match parsed with
    | some url =>
      some (url.setPathname (pathSet platform.caret) (replaceCaret url.pathname)).href
    | none => some ((platform.others target).getD target)

def normalizeTarget (platform : Platform) (target : JSString) : Option JSString :=
  if needsResolving target then resolveDotSegments platform target else some target

def writtenRest (target : JSString) : JSString :=
  if target.head? = some 47 then target
  else afterAuthority ((target.dropWhile (· != 58)).drop 1)

def writtenPath (target : JSString) : JSString := (writtenRest target).takeWhile (!isMark ·)

/-- The query written in a target behind its `?`, nothing for an empty one. -/
def writtenSearch (target : JSString) : JSString :=
  match (writtenRest target).dropWhile (!isMark ·) with
  | 63 :: rest =>
    if rest.takeWhile (· != 35) = [] then [] else 63 :: rest.takeWhile (· != 35)
  | _ => []

/-- The path written in a target, where a URL that writes none asks for the root. -/
def routedPath (target : JSString) : JSString :=
  if writtenPath target = [] then [47] else writtenPath target

/-- The URL of a target by the reference parser, which encodes `^` in a path. -/
def reference (platform : Platform) (target : JSString) : Option URL :=
  parse platform.authorities (pathSet true) (urlText target)

variable {platform : Platform} {target : JSString} {url : URL}

theorem isMark_iff {c : ℕ} : isMark c = true ↔ c = 63 ∨ c = 35 := by simp [isMark]

theorem segmentEnds_of_endsSegment {tail : List ℕ} (h : EndsSegment tail) :
    segmentEnds tail = true := by
  cases tail with
  | nil => rfl
  | cons c tail => simpa [segmentEnds, isMark] using h c rfl

theorem dotsAt_of_dots {segment tail : List ℕ} (htail : EndsSegment tail)
    (h : isSingleDot segment = true ∨ isDoubleDot segment = true) :
    dotsAt (segment ++ tail) = true := by
  have hends := segmentEnds_of_endsSegment htail
  rcases h with h | h
  · rw [isSingleDot, beq_iff_eq] at h
    simp [dotsAt, afterDot_append htail, h, hends]
  · rw [isDoubleDot, beq_iff_eq] at h
    obtain ⟨rest, hrest, hlast⟩ := Option.bind_eq_some_iff.mp h
    simp [dotsAt, afterDot_append htail, hrest, hlast, hends]

theorem isKept_lt {c : ℕ} (h : isKept c = true) : c < 128 := by
  rw [isKept, Bool.or_eq_true, isAlphanumeric, decide_eq_true_eq, List.contains_iff_mem] at h
  rcases h with h | h
  · omega
  · have hall : ∀ c ∈ js "!#$%&'()*+,-./:;=?@[\\]_|~", c < 128 := by decide
    exact hall c h

theorem pathSet_of_isKept {c : ℕ} (h : isKept c = true) (hmark : isMark c = false) :
    pathSet true c = false := by
  have hall : ∀ c < 128, isKept c = true → isMark c = false → pathSet true c = false := by
    decide +kernel
  exact hall c (isKept_lt h) h hmark

structure Plain (target : JSString) : Prop where
  backslash : 92 ∉ target
  dots : ∀ {front rest}, target = front ++ 47 :: rest → dotsAt rest = false
  kept : ∀ c ∈ target.takeWhile (!isMark ·), isKept c = true

theorem plain_of_needsResolving (h : needsResolving target = false) : Plain target := by
  simp only [needsResolving, Bool.or_eq_false_iff] at h
  obtain ⟨⟨hbackslash, hdots⟩, hkept⟩ := h
  refine ⟨by simpa using hbackslash, ?_, ?_⟩
  · rintro front rest rfl
    have hat := List.any_eq_false.mp hdots (47 :: rest)
      ((List.mem_tails _ _).mpr (List.suffix_append front (47 :: rest)))
    simpa [dotSegmentAt] using hat
  · intro c hc
    simpa using List.any_eq_false.mp hkept c hc

theorem exists_segments (text : JSString) :
    ∃ segments, 47 :: text = pathText segments ∧ segments ≠ [] ∧
      ∀ segment ∈ segments, 47 ∉ segment := by
  induction text with
  | nil => exact ⟨[[]], rfl, by simp, by simp⟩
  | cons c text ih =>
    obtain ⟨segments, htext, hne, hslash⟩ := ih
    by_cases hc : c = 47
    · subst hc
      refine ⟨[] :: segments, ?_, List.cons_ne_nil _ _, ?_⟩
      · rw [htext]
        rfl
      · exact List.forall_mem_cons.mpr ⟨List.not_mem_nil, hslash⟩
    · cases segments with
      | nil => exact (hne rfl).elim
      | cons segment segments =>
        obtain ⟨hsegment, hsegments⟩ := List.forall_mem_cons.mp hslash
        refine ⟨(c :: segment) :: segments, ?_, List.cons_ne_nil _ _, ?_⟩
        · simpa [pathText] using htext
        · refine List.forall_mem_cons.mpr ⟨?_, hsegments⟩
          rintro hmem
          rcases List.mem_cons.mp hmem with rfl | hmem
          · exact hc rfl
          · exact hsegment hmem

theorem pathText_append (front rest : List JSString) :
    pathText (front ++ rest) = pathText front ++ pathText rest := List.flatMap_append

theorem exists_clean {front text rest : JSString} (hplain : Plain (front ++ 47 :: text ++ rest))
    (hrest : ∀ c ∈ rest.head?, isMark c = true)
    (hkept : ∀ c ∈ 47 :: text, isKept c = true ∧ isMark c = false) :
    ∃ segments, 47 :: text = pathText segments ∧ segments ≠ [] ∧
      ∀ segment ∈ segments, Clean (pathSet true) segment := by
  obtain ⟨segments, htext, hne, hslash⟩ := exists_segments text
  refine ⟨segments, htext, hne, fun segment hmem => ?_⟩
  obtain ⟨before, after, rfl⟩ := List.append_of_mem hmem
  have hends : EndsSegment (pathText after ++ rest) := by
    intro c hc
    cases after with
    | nil =>
      have hmark := isMark_iff.mp (hrest c hc)
      omega
    | cons next after =>
      exact Or.inl (by simpa [pathText, eq_comm] using hc)
  have hdots : dotsAt (segment ++ (pathText after ++ rest)) = false := by
    refine @Plain.dots _ hplain (front ++ pathText before) _ ?_
    rw [htext, pathText_append]
    simp [pathText]
  have hnodots : ¬(isSingleDot segment = true ∨ isDoubleDot segment = true) := by
    rintro hsome
    rw [dotsAt_of_dots hends hsome] at hdots
    cases hdots
  obtain ⟨hsingle, hdouble⟩ := not_or.mp hnodots
  refine ⟨fun c hc => ?_, by simpa using hsingle, by simpa using hdouble⟩
  have hc' : c ∈ 47 :: text := by
    rw [htext]
    exact List.mem_flatMap.mpr ⟨segment, hmem, List.mem_cons_of_mem _ hc⟩
  obtain ⟨hk, hm⟩ := hkept c hc'
  refine ⟨pathSet_of_isKept hk hm, ?_⟩
  simp only [isSlash, Bool.or_eq_false_iff, beq_eq_false_iff_ne]
  constructor
  · rintro rfl
    exact hslash segment hmem hc
  · rintro rfl
    exact hplain.backslash (List.mem_append_left _ (List.mem_append_right _ hc'))

theorem pathStart_end {set : ℕ → Bool} {tail : List ℕ} (htail : EndsPath true tail) :
    pathStart set true tail = ([[]], tail) := by
  have hslash : ∀ c ∈ tail.head?, isSlash c = false := by
    intro c hc
    rcases htail with rfl | ⟨-, d, hd, hmark⟩
    · cases hc
    · obtain rfl : d = c := Option.some.inj (hd.symm.trans hc)
      rcases hmark with rfl | rfl <;> rfl
  cases tail with
  | nil =>
    rw [pathStart]
    exact pathState_end htail [] []
  | cons c tail =>
    rw [pathStart, if_neg (by rw [hslash c rfl]; exact Bool.false_ne_true)]
    exact pathState_end htail [] []

theorem Plain.printable (h : Plain target) :
    ∀ c ∈ target.takeWhile (!isMark ·), Printable c := by
  intro c hc
  have hmark : isMark c = false := by simpa using List.mem_takeWhile_imp hc
  exact printable_of_pathSet (pathSet_of_isKept (h.kept c hc) hmark)

theorem head_dropWhile_isMark (s : List ℕ) :
    ∀ c ∈ (s.dropWhile (!isMark ·)).head?, isMark c = true := by
  intro c hc
  have hnot := List.head?_dropWhile_not (fun c => !isMark c) s
  rw [Option.mem_def.mp hc] at hnot
  simpa using hnot

theorem pathText_written {front written rest tail : JSString}
    (hplain : Plain (front ++ written ++ rest)) (hrest : ∀ c ∈ rest.head?, isMark c = true)
    (hkept : ∀ c ∈ written, isKept c = true ∧ isMark c = false)
    (hhead : ∀ c ∈ written.head?, c = 47) (htail : EndsPath true tail) :
    pathText (pathStart (pathSet true) true (written ++ tail)).1 =
      if written = [] then [47] else written := by
  cases written with
  | nil =>
    rw [List.nil_append, pathStart_end htail]
    rfl
  | cons c text =>
    obtain rfl : c = 47 := hhead c rfl
    obtain ⟨segments, htext, hne, hclean⟩ := exists_clean hplain hrest hkept
    rw [htext, pathStart_segments delimited_pathSet htail hne hclean, ← htext,
      if_neg (List.cons_ne_nil _ _)]

theorem strip_scalars {front rest : JSString}
    (hfront : ∀ c ∈ front, Printable c) (hrest : ∀ c ∈ rest.head?, isMark c = true) :
    ∃ tail, strip (scalars (front ++ rest)) = front ++ tail ∧ EndsPath true tail := by
  cases rest with
  | nil =>
    refine ⟨[], ?_, Or.inl rfl⟩
    rw [scalars_printable hfront]
    simpa [scalars, characters] using strip_printable hfront
  | cons mark rest =>
    have hmark : mark = 63 ∨ mark = 35 := isMark_iff.mp (hrest mark rfl)
    have hprintable : ∀ c ∈ front ++ [mark], Printable c := by
      intro c hc
      rcases List.mem_append.mp hc with hc | hc
      · exact hfront c hc
      · rw [List.mem_singleton.mp hc]
        unfold Printable
        omega
    refine ⟨mark :: ((scalars rest).rdropWhile isTrimmed).filter (!isBreak ·), ?_,
      Or.inr ⟨rfl, mark, rfl, hmark⟩⟩
    rw [show front ++ mark :: rest = front ++ [mark] ++ rest by simp,
      scalars_printable hprintable, strip_append hprintable (by simp), List.append_assoc]
    rfl

theorem head_of_endsPath {tail : List ℕ} (h : EndsPath true tail) :
    ∀ c ∈ tail.head?, c = 63 ∨ c = 35 := by
  intro c hc
  rcases h with rfl | ⟨-, d, hd, hmark⟩
  · cases hc
  · rwa [← Option.some.inj (hd.symm.trans hc)]

theorem afterAuthority_append {tail : List ℕ} (htail : ∀ c ∈ tail.head?, c = 63 ∨ c = 35)
    (text : List ℕ) : afterAuthority (text ++ tail) = afterAuthority text ++ tail := by
  unfold afterAuthority
  rw [dropWhile_append_of_head, dropWhile_append_of_head]
  all_goals
    intro c hc
    rcases htail c hc with rfl | rfl <;> rfl

theorem head_afterAuthority (text : List ℕ) :
    ∀ c ∈ (afterAuthority text).head?, endsAuthority c = true := by
  intro c hc
  have hnot := List.head?_dropWhile_not (fun c => !endsAuthority c) (text.dropWhile isSlash)
  unfold afterAuthority at hc
  rw [Option.mem_def.mp hc] at hnot
  simpa using hnot

theorem afterAuthority_suffix (text : List ℕ) : afterAuthority text <:+ text :=
  (List.dropWhile_suffix _).trans (List.dropWhile_suffix _)

theorem exists_scheme {front tail rest : List ℕ} {secure : Bool}
    (htail : ∀ c ∈ tail.head?, c = 63 ∨ c = 35)
    (hscheme : scheme (front ++ tail) = some (secure, rest)) :
    ∃ text, front.dropWhile (· != 58) = 58 :: text ∧ rest = text ++ tail := by
  obtain ⟨hdrop, hname⟩ := scheme_suffix hscheme
  cases hfront : front.dropWhile (· != 58) with
  | cons c text =>
    rw [List.dropWhile_append, if_neg (by simp [hfront]), hfront] at hdrop
    obtain ⟨rfl, rfl⟩ := List.cons.inj hdrop
    exact ⟨text, rfl, rfl⟩
  | nil =>
    have hall := List.dropWhile_eq_nil_iff.mp hfront
    rw [List.dropWhile_append_of_pos hall] at hdrop
    cases tail with
    | nil => cases hdrop
    | cons c tail =>
      have hmark := htail c rfl
      have hne : (c != 58) = true := by
        rw [bne_iff_ne]
        omega
      have htake : (c :: tail).takeWhile (· != 58) = c :: tail.takeWhile (· != 58) :=
        List.takeWhile_cons_of_pos hne
      have hmem : lower c ∈ (if secure then js "https" else js "http") := by
        rw [← hname, List.takeWhile_append_of_pos hall, htake]
        simp
      exfalso
      rcases hmark with rfl | rfl <;> cases secure <;> exact absurd hmem (by decide)

theorem takeWhile_isMark_append {front rest : JSString} (hfront : ∀ c ∈ front, isMark c = false)
    (hrest : ∀ c ∈ rest.head?, isMark c = true) :
    (front ++ rest).takeWhile (!isMark ·) = front := by
  refine takeWhile_append_of_forall (fun c hc => ?_) fun c hc => ?_
  · rw [hfront c hc, Bool.not_false]
  · rw [hrest c hc, Bool.not_true]

theorem afterAuthority_localhost {text : List ℕ} (h : text.head? = some 47) :
    afterAuthority (47 :: 47 :: (js "localhost" ++ text)) = text := by
  have hends : ∀ c ∈ text.head?, (!endsAuthority c) = false := by
    intro c hc
    rw [h] at hc
    rw [← Option.some.inj hc]
    rfl
  exact dropWhile_append_of_forall (by decide) hends

theorem routedPath_origin {path query : JSString}
    (hurl : reference platform (47 :: path ++ query) = some url) (h : Plain (47 :: path ++ query))
    (hkept : ∀ c ∈ 47 :: path, isKept c = true ∧ isMark c = false)
    (hprintable : ∀ c ∈ 47 :: path, Printable c) (hquery : ∀ c ∈ query.head?, isMark c = true) :
    routedPath (47 :: path ++ query) = url.pathname := by
  obtain ⟨rest, segments, left, hscheme, -, hpath, rfl, -, -⟩ := parseScalars_eq_some_iff.mp hurl
  have hlocalhost : ∀ c ∈ js "http://localhost" ++ 47 :: path, Printable c := by
    intro c hc
    rcases List.mem_append.mp hc with hc | hc
    · have hall : ∀ c ∈ js "http://localhost", 0x20 < c ∧ c ≤ 0x7E := by decide
      exact hall c hc
    · exact hprintable c hc
  obtain ⟨tail, hstrip, htail⟩ := strip_scalars hlocalhost hquery
  have hurlText : urlText (47 :: path ++ query) = js "http://localhost" ++ 47 :: path ++ query := by
    rw [urlText, if_pos (by rfl), List.append_assoc]
  rw [hurlText, hstrip] at hscheme
  have hrest : rest = 47 :: 47 :: (js "localhost" ++ (47 :: path ++ tail)) := by
    have hscheme' : scheme (schemeText false ++ (js "localhost" ++ (47 :: path ++ tail))) =
        some (url.secure, rest) := by
      rw [← hscheme]
      rfl
    rw [scheme_schemeText] at hscheme'
    exact (Prod.mk.inj (Option.some.inj hscheme')).2.symm
  rw [hrest, afterAuthority_localhost (by rfl)] at hpath
  have htext := @pathText_written [] (47 :: path) query tail h hquery hkept (by simp) htail
  rw [hpath] at htext
  have hwritten : writtenPath (47 :: path ++ query) = 47 :: path :=
    takeWhile_isMark_append (fun c hc => (hkept c hc).2) hquery
  rw [URL.pathname, htext, routedPath, hwritten]

theorem routedPath_absolute {front query : JSString}
    (horigin : (front ++ query).head? ≠ some 47)
    (hurl : reference platform (front ++ query) = some url) (h : Plain (front ++ query))
    (hkept : ∀ c ∈ front, isKept c = true ∧ isMark c = false)
    (hprintable : ∀ c ∈ front, Printable c) (hquery : ∀ c ∈ query.head?, isMark c = true) :
    routedPath (front ++ query) = url.pathname := by
  obtain ⟨rest, segments, left, hscheme, -, hpath, rfl, -, -⟩ := parseScalars_eq_some_iff.mp hurl
  obtain ⟨tail, hstrip, htail⟩ := strip_scalars hprintable hquery
  rw [urlText, if_neg horigin, hstrip] at hscheme
  obtain ⟨text, hdrop, rfl⟩ := exists_scheme (head_of_endsPath htail) hscheme
  have hfront : afterAuthority text <:+ front :=
    (afterAuthority_suffix text).trans
      ((List.suffix_cons 58 text).trans (hdrop ▸ List.dropWhile_suffix _))
  have hhead : ∀ c ∈ (afterAuthority text).head?, c = 47 := by
    intro c hc
    have hmem : c ∈ front := hfront.subset (List.mem_of_mem_head? hc)
    have hends := head_afterAuthority text c hc
    have hmark := (hkept c hmem).2
    simp only [endsAuthority, isSlash, Bool.or_eq_true, beq_iff_eq] at hends
    simp only [isMark, Bool.or_eq_false_iff, beq_eq_false_iff_ne] at hmark
    have hbackslash : c ≠ 92 := by
      rintro rfl
      exact h.backslash (List.mem_append_left _ hmem)
    omega
  rw [afterAuthority_append (head_of_endsPath htail)] at hpath
  obtain ⟨before, hbefore⟩ := hfront
  have hwritten := fun c hc => hkept c (hbefore ▸ List.mem_append_right before hc)
  have htext := pathText_written (hbefore.symm ▸ h) hquery hwritten hhead htail
  rw [hpath] at htext
  have hrest : writtenRest (front ++ query) = afterAuthority text ++ query := by
    rw [writtenRest, if_neg horigin, List.dropWhile_append, if_neg (by simp [hdrop]), hdrop]
    exact afterAuthority_append (fun c hc => isMark_iff.mp (hquery c hc)) text
  have hpath' : writtenPath (front ++ query) = afterAuthority text := by
    rw [writtenPath, hrest]
    exact takeWhile_isMark_append (fun c hc => (hwritten c hc).2) hquery
  rw [URL.pathname, htext, routedPath, hpath']

theorem routedPath_of_plain (hurl : reference platform target = some url) (h : Plain target) :
    routedPath target = url.pathname := by
  have hsplit : target.takeWhile (!isMark ·) ++ target.dropWhile (!isMark ·) = target :=
    List.takeWhile_append_dropWhile
  have hquery := head_dropWhile_isMark target
  have hprintable := h.printable
  have hkept : ∀ c ∈ target.takeWhile (!isMark ·), isKept c = true ∧ isMark c = false :=
    fun c hc => ⟨h.kept c hc, by simpa using List.mem_takeWhile_imp hc⟩
  generalize target.takeWhile (!isMark ·) = front at *
  generalize target.dropWhile (!isMark ·) = query at *
  subst hsplit
  by_cases horigin : (front ++ query).head? = some 47
  · cases front with
    | nil =>
      have hmark := hquery 47 horigin
      exact absurd hmark (by decide)
    | cons c path =>
      obtain rfl : c = 47 := by simpa using horigin
      exact routedPath_origin hurl h hkept hprintable hquery
  · exact routedPath_absolute horigin hurl h hkept hprintable hquery

/-- The URL of a resolved origin-form target: no fragment, and no query where it is empty. -/
def originForm (url : URL) : URL :=
  ⟨false, js "localhost", url.path, if url.query = some [] then none else url.query, none⟩

theorem originForm_tail (url : URL) : (originForm url).tail = url.search := by
  unfold originForm URL.tail URL.search
  cases url.query with
  | none => rfl
  | some query => cases query <;> simp

theorem originForm_search (url : URL) : (originForm url).search = url.search := by
  unfold originForm URL.search
  cases url.query with
  | none => rfl
  | some query => cases query <;> simp

theorem originForm_sound (h : Documented platform.authorities)
    (hsound : url.Sound platform.authorities) : (originForm url).Sound platform.authorities := by
  refine ⟨h.localhost, hsound.path_ne, hsound.path, ?_, by rintro fragment ⟨⟩⟩
  intro query hquery
  unfold originForm at hquery
  dsimp only at hquery
  split_ifs at hquery
  · cases hquery
  · exact hsound.query query hquery

theorem resolveDotSegments_origin (hurl : reference platform target = some url)
    (horigin : target.head? = some 47) :
    resolveDotSegments platform target = some (url.pathname ++ url.search) := by
  rw [reference, parse_caret platform.caret, Option.map_eq_some_iff] at hurl
  obtain ⟨kept, hkept, rfl⟩ := hurl
  simp only [resolveDotSegments, hkept, if_pos horigin, Option.map_some]
  rw [URL.encodeCaret_pathname]
  rfl

theorem setPathname_pathname {set : ℕ → Bool} (hset : Delimited set)
    (hclean : ∀ segment ∈ url.path, Clean set segment) (hne : url.path ≠ [])
    (hprintable : ∀ c ∈ url.pathname, Printable c) (other : URL) :
    other.setPathname set url.pathname = { other with path := url.path } := by
  have hread : scalars url.pathname = url.pathname := by
    simpa [scalars, characters] using scalars_printable hprintable []
  have hstart : pathStart set false (pathText url.path ++ []) = (url.path, []) :=
    pathStart_segments hset (Or.inl rfl) hne hclean
  rw [List.append_nil] at hstart
  rw [URL.setPathname, hread, filter_printable hprintable, URL.pathname, hstart]

theorem resolveDotSegments_absolute (h : Documented platform.authorities)
    (hurl : reference platform target = some url) (horigin : target.head? ≠ some 47) :
    resolveDotSegments platform target = some url.href := by
  have hsound := parse_sound h hurl
  rw [reference, parse_caret platform.caret, Option.map_eq_some_iff] at hurl
  obtain ⟨kept, hkept, rfl⟩ := hurl
  simp only [resolveDotSegments, hkept, if_neg horigin]
  rw [← URL.encodeCaret_pathname, setPathname_pathname delimited_pathSet
    (fun segment hmem => (hsound.path segment hmem).of_true) hsound.path_ne
    fun c hc => (hsound.pathname_printable c hc).1]
  rfl

/-- A text that is resolved: its URL, and where its path and query are written. -/
structure Resolves (platform : Platform) (resolved : JSString) (url : URL) : Prop where
  sound : url.Sound platform.authorities
  parsed : reference platform resolved = some url
  written : writtenRest resolved = url.pathname ++ url.tail
  again : resolveDotSegments platform resolved = some resolved

theorem resolves_origin (h : Documented platform.authorities)
    (hsound : url.Sound platform.authorities) :
    Resolves platform (url.pathname ++ url.search) (originForm url) := by
  have hform := originForm_sound h hsound
  have horigin : (url.pathname ++ url.search).head? = some 47 := by
    obtain ⟨text, htext⟩ := pathText_head hsound.path_ne
    rw [URL.pathname, htext]
    rfl
  have hparsed : reference platform (url.pathname ++ url.search) = some (originForm url) := by
    have hhref : (originForm url).href = js "http://localhost" ++ (url.pathname ++ url.search) := by
      rw [URL.href_eq, originForm_tail]
      rfl
    rw [reference, urlText, if_pos horigin, ← hhref]
    exact parse_href h hform
  refine ⟨hform, hparsed, ?_, ?_⟩
  · rw [writtenRest, if_pos horigin, originForm_tail]
    rfl
  · rw [resolveDotSegments_origin hparsed horigin, originForm_search]
    rfl

theorem resolves_absolute (h : Documented platform.authorities)
    (hsound : url.Sound platform.authorities) : Resolves platform url.href url := by
  have horigin : url.href.head? ≠ some 47 := by
    rw [URL.href_eq]
    cases url.secure <;> simp [schemeText, js, JSString.utf16]
  have hparsed : reference platform url.href = some url := by
    rw [reference, urlText, if_neg horigin]
    exact parse_href h hsound
  refine ⟨hsound, hparsed, ?_, resolveDotSegments_absolute h hparsed horigin⟩
  have hauthority : ∀ c ∈ url.authority, (!endsAuthority c) = true := fun c hc => by
    rw [(hsound.authority_printable h c hc).2, Bool.not_false]
  have hends : ∀ c ∈ (url.pathname ++ url.tail).head?, (!endsAuthority c) = false := fun c hc => by
    rw [hsound.head_pathname c hc]
    rfl
  have hdrop : (url.href.dropWhile (· != 58)).drop 1 =
      47 :: 47 :: (url.authority ++ (url.pathname ++ url.tail)) := by
    rw [URL.href_eq]
    cases url.secure <;> rfl
  rw [writtenRest, if_neg horigin, hdrop, afterAuthority, hsound.split_authority h,
    dropWhile_append_of_forall hauthority hends]

theorem Resolves.writtenPath {resolved : JSString} (h : Resolves platform resolved url) :
    writtenPath resolved = url.pathname := by
  rw [RequestTarget.writtenPath, h.written]
  refine takeWhile_isMark_append (fun c hc => ?_) fun c hc => ?_
  · obtain ⟨-, hquestion, hhash, -, -⟩ := h.sound.pathname_printable c hc
    simp [isMark, hquestion, hhash]
  · exact isMark_iff.mpr (url.tail_head c hc)

theorem Resolves.writtenSearch {resolved : JSString} (h : Resolves platform resolved url) :
    writtenSearch resolved = url.search := by
  have hdrop : (url.pathname ++ url.tail).dropWhile (!isMark ·) = url.tail := by
    refine dropWhile_append_of_forall (fun c hc => ?_) fun c hc => ?_
    · obtain ⟨-, hquestion, hhash, -, -⟩ := h.sound.pathname_printable c hc
      simp [isMark, hquestion, hhash]
    · rw [isMark_iff.mpr (url.tail_head c hc), Bool.not_true]
  rw [RequestTarget.writtenSearch, h.written, hdrop, URL.tail, URL.search]
  cases hquery : url.query with
  | none => cases url.fragment <;> rfl
  | some query =>
    have hne : ∀ c ∈ query, (c != 35) = true := by
      intro c hc
      rw [bne_iff_ne]
      rintro rfl
      exact absurd (h.sound.query query hquery 35 hc) (by decide)
    have htake : (query ++ marked 35 url.fragment).takeWhile (· != 35) = query := by
      refine takeWhile_append_of_forall hne fun c hc => ?_
      rw [marked_head c hc]
      rfl
    simp only [marked_some, List.cons_append, htake]

theorem exists_resolves (h : Documented platform.authorities)
    (hurl : reference platform target = some url) :
    ∃ resolved parsed, resolveDotSegments platform target = some resolved ∧
      Resolves platform resolved parsed ∧ parsed.pathname = url.pathname ∧
      parsed.search = url.search := by
  have hsound := parse_sound h hurl
  by_cases horigin : target.head? = some 47
  · exact ⟨_, originForm url, resolveDotSegments_origin hurl horigin, resolves_origin h hsound, rfl,
      originForm_search url⟩
  · exact ⟨_, url, resolveDotSegments_absolute h hurl horigin, resolves_absolute h hsound, rfl, rfl⟩

theorem exists_reference (h : Documented platform.authorities) (horigin : target.head? = some 47) :
    ∃ url, reference platform target = some url := by
  have hprintable : ∀ c ∈ js "http://localhost", Printable c := by
    have hall : ∀ c ∈ js "http://localhost", 0x20 < c ∧ c ≤ 0x7E := by decide
    exact hall
  have hstrip : strip (scalars (urlText target)) = js "http://localhost" ++
      ((scalars target).rdropWhile isTrimmed).filter (!isBreak ·) := by
    rw [urlText, if_pos horigin, scalars_printable hprintable,
      strip_append hprintable (by decide)]
  have hhead : ∀ c ∈ (((scalars target).rdropWhile isTrimmed).filter (!isBreak ·)).head?,
      c = 47 := by
    obtain ⟨text, rfl⟩ : ∃ text, target = 47 :: text := by
      cases target with
      | nil => cases horigin
      | cons c text =>
        obtain rfl := Option.some.inj horigin
        exact ⟨text, rfl⟩
    have hslash : ∀ c ∈ [47], Printable c := by
      have hall : ∀ c ∈ [47], 0x20 < c ∧ c ≤ 0x7E := by decide
      exact hall
    have hread : scalars (47 :: text) = 47 :: scalars text := scalars_printable hslash text
    have hstart := List.rdropWhile_prefix isTrimmed (47 :: scalars text)
    rw [hread]
    rcases List.prefix_cons_iff.mp hstart with hnil | ⟨rest, hrest, -⟩
    · rw [hnil]
      rintro c ⟨⟩
    · rw [hrest]
      rintro c hc
      exact (Option.some.inj hc).symm
  generalize ((scalars target).rdropWhile isTrimmed).filter (!isBreak ·) = text at hstrip hhead
  have hname : (js "localhost" ++ text).takeWhile (!endsAuthority ·) = js "localhost" := by
    refine takeWhile_append_of_forall (by decide) fun c hc => ?_
    rw [hhead c hc]
    rfl
  have hscheme : scheme (js "http://localhost" ++ text) =
      some (false, 47 :: 47 :: (js "localhost" ++ text)) :=
    scheme_schemeText false (js "localhost" ++ text)
  have hslashes : (47 :: 47 :: (js "localhost" ++ text)).dropWhile isSlash =
      js "localhost" ++ text := rfl
  rw [reference, parse, parseScalars, hstrip, hscheme, Option.bind_some]
  dsimp only
  rw [hslashes, hname, h.localhost, Option.map_some]
  exact ⟨_, rfl⟩

theorem routedPath_of_ne {resolved : JSString} (h : writtenPath resolved = url.pathname)
    (hne : url.path ≠ []) : routedPath resolved = url.pathname := by
  obtain ⟨text, htext⟩ := pathText_head hne
  rw [routedPath, h, if_neg (by rw [URL.pathname, htext]; exact List.cons_ne_nil _ _)]

/-- A target that needs no resolving writes the path a URL parser reads, with nothing written for
the root; resolving gives the path and query the parser reads; so a runtime that resolves only
where it is needed routes the path that one that always resolves does, and resolving again changes
nothing. -/
theorem one_path (platform : Platform) (h : Documented platform.authorities) (target : JSString)
    (htarget : target.head? = some 47 ∨
      (parse platform.authorities (pathSet true) target).isSome) :
    ∃ url resolved normalized, reference platform target = some url ∧
      resolveDotSegments platform target = some resolved ∧
      normalizeTarget platform target = some normalized ∧
      (needsResolving target = false → routedPath target = url.pathname) ∧
      writtenPath resolved = url.pathname ∧ writtenSearch resolved = url.search ∧
      routedPath normalized = routedPath resolved ∧
      resolveDotSegments platform resolved = some resolved ∧
      normalizeTarget platform normalized = some normalized := by
  have hurl : ∃ url, reference platform target = some url := by
    by_cases horigin : target.head? = some 47
    · exact exists_reference h horigin
    · rcases htarget with htarget | htarget
      · exact (horigin htarget).elim
      · rw [reference, urlText, if_neg horigin]
        exact Option.isSome_iff_exists.mp htarget
  obtain ⟨url, hurl⟩ := hurl
  obtain ⟨resolved, parsed, hresolved, hresolves, hpathname, hsearch⟩ := exists_resolves h hurl
  have hpath : writtenPath resolved = url.pathname := hresolves.writtenPath.trans hpathname
  have hrouted : routedPath resolved = url.pathname :=
    routedPath_of_ne hpath (parse_sound h hurl).path_ne
  have hagain : normalizeTarget platform resolved = some resolved := by
    rw [normalizeTarget, hresolves.again, ite_self]
  cases hneeds : needsResolving target with
  | false =>
    have hplain := routedPath_of_plain hurl (plain_of_needsResolving hneeds)
    refine ⟨url, resolved, target, hurl, hresolved, ?_, fun _ => hplain, hpath,
      hresolves.writtenSearch.trans hsearch, hplain.trans hrouted.symm, hresolves.again, ?_⟩
    all_goals rw [normalizeTarget, hneeds, if_neg Bool.false_ne_true]
  | true =>
    refine ⟨url, resolved, resolved, hurl, hresolved, ?_, ?_, hpath,
      hresolves.writtenSearch.trans hsearch, rfl, hresolves.again, hagain⟩
    · rw [normalizeTarget, hneeds, if_pos rfl, hresolved]
    · rintro ⟨⟩

def lettersOnly (_secure : Bool) (text : List ℕ) : Option JSString :=
  if text ≠ [] ∧ ∀ c ∈ text, 97 ≤ c ∧ c ≤ 122 then some text else none

theorem documented_lettersOnly : Documented lettersOnly := by
  have hsome : ∀ {secure text authority}, lettersOnly secure text = some authority →
      (text ≠ [] ∧ ∀ c ∈ text, 97 ≤ c ∧ c ≤ 122) ∧ text = authority := by
    intro secure text authority h
    unfold lettersOnly at h
    split_ifs at h with hletters
    exact ⟨hletters, Option.some.inj h⟩
  refine ⟨fun h c hc => ?_, fun h => ?_, fun secure => rfl, by decide⟩
  · obtain ⟨⟨-, hletters⟩, rfl⟩ := hsome h
    have hletter := hletters c hc
    refine ⟨by omega, by omega, ?_⟩
    simp only [endsAuthority, isSlash, Bool.or_eq_false_iff, beq_eq_false_iff_ne]
    omega
  · obtain ⟨-, rfl⟩ := hsome h
    exact h

def lettersPlatform : Platform := ⟨lettersOnly, true, fun _ => none⟩

theorem one_path_vault :
    ∃ url resolved normalized, reference lettersPlatform (js "/a/../vault<tag>?q") = some url ∧
      resolveDotSegments lettersPlatform (js "/a/../vault<tag>?q") = some resolved ∧
      normalizeTarget lettersPlatform (js "/a/../vault<tag>?q") = some normalized ∧
      (needsResolving (js "/a/../vault<tag>?q") = false →
        routedPath (js "/a/../vault<tag>?q") = url.pathname) ∧
      writtenPath resolved = url.pathname ∧ writtenSearch resolved = url.search ∧
      routedPath normalized = routedPath resolved ∧
      resolveDotSegments lettersPlatform resolved = some resolved ∧
      normalizeTarget lettersPlatform normalized = some normalized :=
  one_path lettersPlatform documented_lettersOnly (js "/a/../vault<tag>?q") (Or.inl (by decide))

example : resolveDotSegments lettersPlatform (js "/a/../vault<tag>?q") =
    some (js "/vault%3Ctag%3E?q") := by decide +kernel

/-- `http://h` needs no resolving, though the parsed path is `/` and none is written. -/
theorem no_path_written : ∃ url, Documented lettersPlatform.authorities ∧
    reference lettersPlatform (js "http://h") = some url ∧
    needsResolving (js "http://h") = false ∧ writtenPath (js "http://h") ≠ url.pathname :=
  ⟨⟨false, js "h", [[]], none, none⟩, documented_lettersOnly, by decide +kernel, by decide +kernel,
    by decide +kernel⟩

end Nifra.RequestTarget
