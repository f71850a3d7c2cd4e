import Nifra.Text.UrlPath

/-! # Reading a URL back

A URL that has been parsed serializes to a text that is parsed as the same URL.
-/

namespace Nifra.Url

variable {set : ℕ → Bool} {caret : Bool} {authorities : Authorities} {url : URL}

theorem dropWhile_append_of_head {p : ℕ → Bool} {rest : List ℕ} (h : ∀ c ∈ rest.head?, p c = false)
    (front : List ℕ) : (front ++ rest).dropWhile p = front.dropWhile p ++ rest := by
  induction front with
  | nil =>
    cases rest with
    | nil => rfl
    | cons c rest => simp [h c rfl]
  | cons c front ih =>
    by_cases hc : p c
    · simp only [List.cons_append, List.dropWhile_cons_of_pos hc, ih]
    · simp only [List.cons_append, List.dropWhile_cons_of_neg hc]

theorem dropWhile_append_of_forall {p : ℕ → Bool} {front rest : List ℕ} (hfront : ∀ c ∈ front, p c)
    (h : ∀ c ∈ rest.head?, p c = false) : (front ++ rest).dropWhile p = rest := by
  rw [dropWhile_append_of_head h, List.dropWhile_eq_nil_iff.mpr hfront, List.nil_append]

theorem takeWhile_append_of_forall {p : ℕ → Bool} {front rest : List ℕ} (hfront : ∀ c ∈ front, p c)
    (h : ∀ c ∈ rest.head?, p c = false) : (front ++ rest).takeWhile p = front := by
  rw [List.takeWhile_append_of_pos hfront]
  cases rest with
  | nil => simp
  | cons c rest => simp [h c rfl]

def Printable (c : ℕ) : Prop := 0x20 < c ∧ c ≤ 0x7E

theorem printable_of_c0Set {c : ℕ} (h : c0Set c = false) (hspace : c ≠ 32) : Printable c := by
  simp only [c0Set, decide_eq_false_iff_not] at h
  unfold Printable
  omega

theorem printable_of_querySet {c : ℕ} (h : querySet c = false) : Printable c := by
  rw [querySet, Bool.or_eq_false_iff] at h
  refine printable_of_c0Set h.1 ?_
  rintro rfl
  exact absurd h.2 (by decide)

theorem printable_of_pathSet {c : ℕ} (h : pathSet caret c = false) : Printable c := by
  simp only [pathSet, Bool.or_eq_false_iff] at h
  exact printable_of_querySet h.1.1

theorem printable_of_specialQuerySet {c : ℕ} (h : specialQuerySet c = false) : Printable c := by
  rw [specialQuerySet, Bool.or_eq_false_iff] at h
  exact printable_of_querySet h.1

theorem printable_of_fragmentSet {c : ℕ} (h : fragmentSet c = false) : Printable c := by
  rw [fragmentSet, Bool.or_eq_false_iff] at h
  refine printable_of_c0Set h.1 ?_
  rintro rfl
  exact absurd h.2 (by decide)

theorem isTrimmed_of_printable {c : ℕ} (h : Printable c) : isTrimmed c = false := by
  unfold Printable at h
  simp only [isTrimmed, decide_eq_false_iff_not]
  omega

theorem isBreak_of_printable {c : ℕ} (h : Printable c) : isBreak c = false := by
  unfold Printable at h
  simp only [isBreak, Bool.or_eq_false_iff, beq_eq_false_iff_ne]
  omega

theorem scalars_printable {s : JSString} (h : ∀ c ∈ s, Printable c) (rest : JSString) :
    scalars (s ++ rest) = s ++ scalars rest := by
  refine scalars_ascii (fun c hc => ?_) rest
  have := (h c hc).2
  omega

theorem filter_printable {s : List ℕ} (h : ∀ c ∈ s, Printable c) :
    s.filter (!isBreak ·) = s :=
  List.filter_eq_self.mpr fun c hc => by rw [isBreak_of_printable (h c hc), Bool.not_false]

theorem strip_append {front : List ℕ} (hfront : ∀ c ∈ front, Printable c) (hne : front ≠ [])
    (rest : List ℕ) : strip (front ++ rest) =
      front ++ (rest.rdropWhile isTrimmed).filter (!isBreak ·) := by
  have hhead : (front ++ rest).dropWhile isTrimmed = front ++ rest := by
    cases front with
    | nil => exact (hne rfl).elim
    | cons c front =>
      have hc := isTrimmed_of_printable (hfront c List.mem_cons_self)
      simp [hc]
  have hlast : (front ++ rest).rdropWhile isTrimmed = front ++ rest.rdropWhile isTrimmed := by
    have hkept : front.reverse.dropWhile isTrimmed = front.reverse := by
      cases hreverse : front.reverse with
      | nil => rfl
      | cons c others =>
        have hc : c ∈ front := List.mem_reverse.mp (hreverse ▸ List.mem_cons_self)
        simp [isTrimmed_of_printable (hfront c hc)]
    rw [List.rdropWhile, List.rdropWhile, List.reverse_append, List.dropWhile_append]
    split_ifs with hempty
    · rw [List.isEmpty_iff.mp hempty, hkept]
      simp
    · simp
  rw [strip, hhead, hlast, List.filter_append, filter_printable hfront]

theorem strip_printable {s : List ℕ} (h : ∀ c ∈ s, Printable c) : strip s = s := by
  cases s with
  | nil => rfl
  | cons c s =>
    have hstrip := strip_append h (List.cons_ne_nil c s) []
    rw [List.append_nil] at hstrip
    rw [hstrip]
    simp

theorem forall_strip {P : ℕ → Prop} {s : List ℕ} (h : ∀ c ∈ s, P c) : ∀ c ∈ strip s, P c := by
  intro c hc
  have hmem := List.mem_of_mem_filter hc
  exact h c ((List.dropWhile_sublist _).subset ((List.rdropWhile_prefix _ _).subset hmem))

theorem scheme_suffix {s rest : List ℕ} {secure : Bool} (h : scheme s = some (secure, rest)) :
    s.dropWhile (· != 58) = 58 :: rest ∧
      (s.takeWhile (· != 58)).map lower = if secure then js "https" else js "http" := by
  unfold scheme at h
  split at h
  · cases h
  · next c others hdrop =>
    have hcolon : c = 58 := by
      have hhead := List.head?_dropWhile_not (fun c => c != 58) s
      rw [hdrop] at hhead
      simpa using hhead
    subst hcolon
    dsimp only at h
    split_ifs at h with hhttp hhttps
    · cases h
      exact ⟨hdrop, by simpa using hhttp⟩
    · cases h
      exact ⟨hdrop, by simpa using hhttps⟩

def afterAuthority (rest : List ℕ) : List ℕ :=
  (rest.dropWhile isSlash).dropWhile (!endsAuthority ·)

theorem parseScalars_eq_some_iff {s : List ℕ} : parseScalars authorities set s = some url ↔
    ∃ rest path tail, scheme (strip s) = some (url.secure, rest) ∧
      authorities url.secure ((rest.dropWhile isSlash).takeWhile (!endsAuthority ·)) =
        some url.authority ∧
      pathStart set true (afterAuthority rest) = (path, tail) ∧ url.path = path ∧
      url.query = (queryState tail).1 ∧ url.fragment = fragmentState (queryState tail).2 := by
  simp only [parseScalars, Option.bind_eq_some_iff, Option.map_eq_some_iff]
  constructor
  · rintro ⟨⟨secure, rest⟩, hscheme, authority, hauthority, rfl⟩
    exact ⟨rest, _, _, hscheme, hauthority, rfl, rfl, rfl, rfl⟩
  · rintro ⟨rest, path, tail, hscheme, hauthority, hpath, rfl, hquery, hfragment⟩
    refine ⟨(url.secure, rest), hscheme, url.authority, hauthority, ?_⟩
    unfold afterAuthority at hpath
    rw [hpath]
    dsimp only
    rw [← hquery, ← hfragment]

theorem isScalar_afterAuthority {s : JSString} {secure : Bool} {rest : List ℕ}
    (hscheme : scheme (strip (scalars s)) = some (secure, rest)) :
    ∀ c ∈ afterAuthority rest, IsScalar c := by
  intro c hc
  have hstrip : c ∈ strip (scalars s) := by
    refine (List.dropWhile_sublist _).subset
      ((scheme_suffix hscheme).1 ▸ List.mem_cons_of_mem _ ?_)
    exact (List.dropWhile_sublist _).subset ((List.dropWhile_sublist _).subset hc)
  exact forall_strip isScalar_of_mem_scalars c hstrip

structure URL.Sound (authorities : Authorities) (url : URL) : Prop where
  authority : authorities url.secure url.authority = some url.authority
  path_ne : url.path ≠ []
  path : ∀ segment ∈ url.path, Clean (pathSet true) segment
  query : ∀ query ∈ url.query, ∀ c ∈ query, specialQuerySet c = false
  fragment : ∀ fragment ∈ url.fragment, ∀ c ∈ fragment, fragmentSet c = false

theorem pathState_rest {stops : Bool} {path : List JSString} {buffer : JSString} {text : List ℕ} :
    (pathState set stops path buffer text).2 <:+ text := by
  induction text generalizing path buffer with
  | nil => exact List.suffix_rfl
  | cons c text ih =>
    rw [pathState]
    split_ifs
    · exact ih.trans (List.suffix_cons c text)
    · exact List.suffix_rfl
    · exact ih.trans (List.suffix_cons c text)

theorem pathStart_rest {stops : Bool} {text : List ℕ} :
    (pathStart set stops text).2 <:+ text := by
  cases text with
  | nil =>
    rw [pathStart]
    exact pathState_rest
  | cons c text =>
    rw [pathStart]
    split_ifs
    · exact pathState_rest.trans (List.suffix_cons c text)
    · exact pathState_rest

theorem queryState_kept {tail : List ℕ} (htail : ∀ c ∈ tail, IsScalar c) :
    (∀ query ∈ (queryState tail).1, ∀ c ∈ query, specialQuerySet c = false) ∧
      ∀ c ∈ (queryState tail).2, IsScalar c := by
  unfold queryState
  split
  · next rest =>
    have hrest : ∀ c ∈ rest, IsScalar c := fun c hc => htail c (List.mem_cons_of_mem _ hc)
    constructor
    · rintro query hquery
      obtain rfl := Option.some.inj hquery
      exact encode_kept keepsEscapes_specialQuerySet
        fun c hc => hrest c ((List.takeWhile_sublist _).subset hc)
    · exact fun c hc => hrest c ((List.dropWhile_sublist _).subset hc)
  · constructor
    · rintro query ⟨⟩
    · exact htail

theorem fragmentState_kept {tail : List ℕ} (htail : ∀ c ∈ tail, IsScalar c) :
    ∀ fragment ∈ fragmentState tail, ∀ c ∈ fragment, fragmentSet c = false := by
  unfold fragmentState
  split
  · next rest =>
    rintro fragment hfragment
    obtain rfl := Option.some.inj hfragment
    exact encode_kept keepsEscapes_fragmentSet fun c hc => htail c (List.mem_cons_of_mem _ hc)
  · rintro fragment ⟨⟩

theorem parse_sound (h : Documented authorities) {s : JSString}
    (hparse : parse authorities (pathSet true) s = some url) : url.Sound authorities := by
  obtain ⟨rest, path, tail, hscheme, hauthority, hpath, rfl, hquery, hfragment⟩ :=
    parseScalars_eq_some_iff.mp hparse
  have hafter := isScalar_afterAuthority hscheme
  have hclean : (pathStart (pathSet true) true (afterAuthority rest)).1 ≠ [] ∧
      ∀ segment ∈ (pathStart (pathSet true) true (afterAuthority rest)).1,
        Clean (pathSet true) segment := pathStart_clean keepsEscapes_pathSet hafter
  have htail : ∀ c ∈ tail, IsScalar c := by
    intro c hc
    have hsuffix : (pathStart (pathSet true) true (afterAuthority rest)).2 <:+ _ := pathStart_rest
    rw [hpath] at hsuffix
    exact hafter c (hsuffix.subset hc)
  rw [hpath] at hclean
  obtain ⟨hkept, hleft⟩ := queryState_kept htail
  exact {
    authority := h.again hauthority
    path_ne := hclean.1
    path := hclean.2
    query := hquery ▸ hkept
    fragment := hfragment ▸ fragmentState_kept hleft
  }

def URL.encodeCaret (url : URL) : URL := { url with path := url.path.map replaceCaret }

theorem URL.encodeCaret_pathname (url : URL) :
    url.encodeCaret.pathname = replaceCaret url.pathname := pathText_replaceCaret url.path

theorem parse_caret (caret : Bool) {s : JSString} : parse authorities (pathSet true) s =
    (parse authorities (pathSet caret) s).map URL.encodeCaret := by
  unfold parse parseScalars
  cases hscheme : scheme (strip (scalars s)) with
  | none => rfl
  | some found =>
    obtain ⟨secure, rest⟩ := found
    have hstart : pathStart (pathSet true) true (afterAuthority rest) =
        ((pathStart (pathSet caret) true (afterAuthority rest)).1.map replaceCaret,
          (pathStart (pathSet caret) true (afterAuthority rest)).2) :=
      pathStart_replaceCaret (isScalar_afterAuthority hscheme)
    unfold afterAuthority at hstart
    simp only [Option.bind_some, Option.map_map]
    congr 1
    funext authority
    simp only [hstart, Function.comp_apply, URL.encodeCaret]

theorem Clean.of_true {segment : JSString} (h : Clean (pathSet true) segment) :
    Clean (pathSet caret) segment := by
  refine ⟨fun c hc => ⟨?_, (h.kept c hc).2⟩, h.single, h.double⟩
  have hkept := (h.kept c hc).1
  simp only [pathSet, Bool.or_eq_false_iff, Bool.and_eq_false_iff] at hkept ⊢
  exact ⟨hkept.1, Or.inr (by simpa using hkept.2)⟩

theorem mem_pathText {path : List JSString} {c : ℕ} (hc : c ∈ pathText path) :
    c = 47 ∨ ∃ segment ∈ path, c ∈ segment := by
  obtain ⟨segment, hmem, hc⟩ := List.mem_flatMap.mp hc
  rcases List.mem_cons.mp hc with rfl | hc
  · exact Or.inl rfl
  · exact Or.inr ⟨segment, hmem, hc⟩

theorem pathText_head {path : List JSString} (h : path ≠ []) :
    ∃ text, pathText path = 47 :: text := by
  cases path with
  | nil => exact (h rfl).elim
  | cons segment path => exact ⟨segment ++ pathText path, rfl⟩

@[simp] theorem marked_none (mark : ℕ) : marked mark none = [] := rfl

@[simp] theorem marked_some (mark : ℕ) (part : JSString) : marked mark (some part) = mark :: part :=
  rfl

theorem marked_head {mark : ℕ} {part : Option JSString} :
    ∀ c ∈ (marked mark part).head?, c = mark := by
  cases part <;> simp [marked]

def URL.tail (url : URL) : JSString := marked 63 url.query ++ marked 35 url.fragment

theorem URL.href_eq (url : URL) : url.href =
    schemeText url.secure ++ (url.authority ++ (url.pathname ++ url.tail)) := by
  simp [URL.href, URL.tail]

theorem URL.tail_head (url : URL) : ∀ c ∈ url.tail.head?, c = 63 ∨ c = 35 := by
  intro c hc
  unfold URL.tail at hc
  cases hquery : url.query with
  | none =>
    rw [hquery, marked_none, List.nil_append] at hc
    exact Or.inr (marked_head c hc)
  | some query =>
    rw [hquery] at hc
    exact Or.inl (by simpa [eq_comm] using hc)

theorem URL.endsPath_tail (url : URL) : EndsPath true url.tail := by
  cases htail : url.tail with
  | nil => exact Or.inl rfl
  | cons c tail =>
    exact Or.inr ⟨rfl, c, rfl, URL.tail_head url c (by rw [htail]; rfl)⟩

theorem scheme_schemeText (secure : Bool) (rest : List ℕ) :
    scheme (schemeText secure ++ rest) = some (secure, 47 :: 47 :: rest) := by
  cases secure <;> rfl

section Sound

variable (h : Documented authorities) (hsound : url.Sound authorities)
include hsound

theorem URL.Sound.pathname_printable : ∀ c ∈ url.pathname, Printable c ∧ c ≠ 63 ∧ c ≠ 35 ∧ c ≠ 92 ∧
    c ≠ 94 := by
  intro c hc
  rcases mem_pathText hc with rfl | ⟨segment, hmem, hc⟩
  · exact ⟨by unfold Printable; omega, by omega, by omega, by omega, by omega⟩
  · obtain ⟨hset, hslash⟩ := (hsound.path segment hmem).kept c hc
    refine ⟨printable_of_pathSet hset, ?_, ?_, ?_, ?_⟩
    all_goals
      rintro rfl
      first
        | exact absurd hset (by decide)
        | exact absurd hslash (by decide)

theorem URL.Sound.marked_printable : ∀ c ∈ marked 63 url.query ++ marked 35 url.fragment,
    Printable c := by
  intro c hc
  rcases List.mem_append.mp hc with hc | hc
  · cases hquery : url.query with
    | none => simp [hquery, marked] at hc
    | some query =>
      rw [hquery] at hc
      rcases List.mem_cons.mp hc with rfl | hc
      · unfold Printable
        omega
      · exact printable_of_specialQuerySet (hsound.query query hquery c hc)
  · cases hfragment : url.fragment with
    | none => simp [hfragment, marked] at hc
    | some fragment =>
      rw [hfragment] at hc
      rcases List.mem_cons.mp hc with rfl | hc
      · unfold Printable
        omega
      · exact printable_of_fragmentSet (hsound.fragment fragment hfragment c hc)

theorem queryState_marked :
    queryState (marked 63 url.query ++ marked 35 url.fragment) =
      (url.query, marked 35 url.fragment) := by
  have hhash : ∀ c ∈ (marked 35 url.fragment).head?, (c != 35) = false := by
    intro c hc
    rw [marked_head c hc]
    rfl
  cases hquery : url.query with
  | none => cases url.fragment <;> rfl
  | some query =>
    have hkept := hsound.query query hquery
    have hne : ∀ c ∈ query, (c != 35) = true := by
      intro c hc
      rw [bne_iff_ne]
      rintro rfl
      exact absurd (hkept 35 hc) (by decide)
    simp only [marked_some, List.cons_append, queryState]
    rw [takeWhile_append_of_forall hne hhash, dropWhile_append_of_forall hne hhash,
      encode_of_forall hkept]

theorem fragmentState_marked : fragmentState (marked 35 url.fragment) = url.fragment := by
  cases hfragment : url.fragment with
  | none => rfl
  | some fragment =>
    simp only [marked_some, fragmentState]
    rw [encode_of_forall (hsound.fragment fragment hfragment)]

theorem URL.Sound.head_pathname : ∀ c ∈ (url.pathname ++ url.tail).head?, c = 47 := by
  obtain ⟨text, htext⟩ := pathText_head hsound.path_ne
  rw [URL.pathname, htext]
  simp

include h

theorem URL.Sound.authority_printable :
    ∀ c ∈ url.authority, Printable c ∧ endsAuthority c = false := by
  intro c hc
  obtain ⟨hlow, hhigh, hends⟩ := h.printable hsound.authority c hc
  exact ⟨⟨hlow, hhigh⟩, hends⟩

theorem URL.Sound.authority_ne : url.authority ≠ [] := by
  intro hnil
  have hauthority := hsound.authority
  rw [hnil, h.nonempty] at hauthority
  cases hauthority

theorem URL.Sound.href_printable : ∀ c ∈ url.href, Printable c := by
  intro c hc
  rw [URL.href_eq] at hc
  rcases List.mem_append.mp hc with hc | hc
  · have hscheme : ∀ secure, ∀ c ∈ schemeText secure, 0x20 < c ∧ c ≤ 0x7E := by decide
    exact hscheme url.secure c hc
  rcases List.mem_append.mp hc with hc | hc
  · exact (hsound.authority_printable h c hc).1
  rcases List.mem_append.mp hc with hc | hc
  · exact (hsound.pathname_printable c hc).1
  · exact hsound.marked_printable c hc

theorem URL.Sound.split_authority :
    (47 :: 47 :: (url.authority ++ (url.pathname ++ url.tail))).dropWhile isSlash =
      url.authority ++ (url.pathname ++ url.tail) := by
  cases hauthority : url.authority with
  | nil => exact (hsound.authority_ne h hauthority).elim
  | cons c authority =>
    have hends := (hsound.authority_printable h c (hauthority ▸ List.mem_cons_self)).2
    have hslash : isSlash c = false := by
      simp only [endsAuthority, Bool.or_eq_false_iff] at hends
      exact hends.1.1
    rw [List.dropWhile_cons_of_pos (by rfl), List.dropWhile_cons_of_pos (by rfl), List.cons_append,
      List.dropWhile_cons_of_neg (by rw [hslash]; exact Bool.false_ne_true)]

theorem parse_href : parse authorities (pathSet caret) url.href = some url := by
  have hprintable := hsound.href_printable h
  have hread : strip (scalars url.href) = url.href := by
    have hscalars := scalars_printable hprintable []
    rw [List.append_nil] at hscalars
    rw [hscalars]
    simp only [scalars, characters, List.map_nil, List.append_nil]
    exact strip_printable hprintable
  have hauthority : ∀ c ∈ url.authority, (!endsAuthority c) = true := fun c hc => by
    rw [(hsound.authority_printable h c hc).2, Bool.not_false]
  have hends : ∀ c ∈ (url.pathname ++ url.tail).head?, (!endsAuthority c) = false := fun c hc => by
    rw [hsound.head_pathname c hc]
    rfl
  have hstart : pathStart (pathSet caret) true (url.pathname ++ url.tail) = (url.path, url.tail) :=
    pathStart_segments delimited_pathSet url.endsPath_tail hsound.path_ne
      fun segment hmem => (hsound.path segment hmem).of_true
  refine parseScalars_eq_some_iff.mpr ⟨47 :: 47 :: (url.authority ++ (url.pathname ++ url.tail)),
    url.path, url.tail, ?_, ?_, ?_, rfl, ?_, ?_⟩
  · rw [hread, URL.href_eq, scheme_schemeText]
  · rw [hsound.split_authority h, takeWhile_append_of_forall hauthority hends]
    exact hsound.authority
  · rw [afterAuthority, hsound.split_authority h, dropWhile_append_of_forall hauthority hends,
      hstart]
  · rw [URL.tail, queryState_marked hsound]
  · rw [URL.tail, queryState_marked hsound, fragmentState_marked hsound]

end Sound

end Nifra.Url
