import Nifra.Lib.StableSort
import Nifra.Server.Query
import Nifra.Text.FormText
import Nifra.Text.Url

/-! # Keys of page URLs

The default key of a cached page: its origin and path, and the parameters that the policy admits,
sorted by name and written out again.
-/

namespace Nifra.Isr

open Url
open Server (valuesOf)

inductive ISRQuery
  | bypass
  | all
  | names (list : List JSString)
  deriving DecidableEq

/-- `url.origin`: the credentials end at an at sign, and there is no other. -/
def originOf (url : URL) : JSString :=
  schemeText url.secure ++ (url.authority.splitOn 64).getLastD []

def searchParams (url : URL) : List (JSString × JSString) :=
  match url.query with
  | none => []
  | some query => parseForm (encodeUtf8 query)

/-- The key under a set of admitted names, `none` for a URL that skips the cache. -/
def admittedKey (allowed : List JSString) (url : URL) : Option JSString :=
  if url.search = [] then some (originOf url ++ url.pathname)
  else if allowed = [] then none
  else if (searchParams url).all fun entry => entry.1 ∈ allowed then
    some (originOf url ++ url.pathname ++ js "?" ++ formText ((searchParams url).sortOn Prod.fst))
  else none

def urlKeyOf (query : ISRQuery) : Except JSError (URL → Option JSString) :=
  match query with
  | .all => .ok fun url => some (originOf url ++ url.pathname ++ url.search)
  | .bypass => .ok (admittedKey [])
  | .names names =>
    if [] ∈ names then
      .error (.typeError "[nifra/web] ISR query parameter names must be non-empty strings")
    else .ok (admittedKey names)

def ISRQuery.admitted : ISRQuery → Option (List JSString)
  | .bypass => some []
  | .all => none
  | .names list => some list

def Admitted (names : List JSString) (url : URL) : Prop :=
  ∀ entry ∈ searchParams url, entry.1 ∈ names

def Idle (url : URL) : Prop := url.search ≠ [] ∧ searchParams url = []

/-- The keys of two URLs are those of their meanings: a URL has none when a parameter is not
admitted, and keys differ when the values of an admitted parameter do. -/
def KeyedByMeaning (keyOf : URL → Option JSString) (names : List JSString) (u v : URL) : Prop :=
  (keyOf u = none ↔ ¬ Admitted names u) ∧ (keyOf v = none ↔ ¬ Admitted names v) ∧
    (keyOf u ≠ none → keyOf v ≠ none → (keyOf u = keyOf v ↔
      ∀ name ∈ names, valuesOf name (searchParams u) = valuesOf name (searchParams v)))

variable {names : List JSString} {u v : URL}

theorem urlKeyOf_eq_admittedKey {query : ISRQuery} {keyOf : URL → Option JSString}
    (hkey : urlKeyOf query = .ok keyOf) (hnames : query.admitted = some names) :
    keyOf = admittedKey names := by
  cases query with
  | bypass =>
    cases hnames
    exact (Except.ok.inj hkey).symm
  | all => cases hnames
  | names list =>
    cases hnames
    unfold urlKeyOf at hkey
    simp only at hkey
    split_ifs at hkey
    exact (Except.ok.inj hkey).symm

theorem searchParams_of_search_eq_nil (h : u.search = []) : searchParams u = [] := by
  unfold URL.search at h
  unfold searchParams
  cases hquery : u.query with
  | none => rfl
  | some query =>
    rw [hquery] at h
    simp only at h ⊢
    split_ifs at h with hempty
    rw [hempty]
    rfl

theorem wellFormed_searchParams {entry : JSString × JSString} (h : entry ∈ searchParams u) :
    WellFormed entry.1 ∧ WellFormed entry.2 := by
  unfold searchParams at h
  cases hquery : u.query with
  | none => simp [hquery] at h
  | some query =>
    rw [hquery] at h
    exact wellFormed_of_mem_parseForm h

theorem filter_eq_iff_valuesOf_eq {pairs pairs' : List (JSString × JSString)} {name : JSString} :
    pairs.filter (·.1 = name) = pairs'.filter (·.1 = name) ↔
      valuesOf name pairs = valuesOf name pairs' := by
  constructor
  · intro h
    rw [valuesOf, valuesOf, h]
  · intro h
    have hpairs (l : List (JSString × JSString)) :
        l.filter (·.1 = name) = (valuesOf name l).map fun value => (name, value) := by
      rw [valuesOf, List.map_map]
      refine ((List.map_congr_left fun pair hpair => ?_).trans (List.map_id _)).symm
      have hname : pair.1 = name := by simpa using List.of_mem_filter hpair
      rw [Function.comp_apply, ← hname]
      rfl
    rw [hpairs, hpairs, h]

theorem formText_sortOn_eq_iff (hu : Admitted names u) (hv : Admitted names v) :
    formText ((searchParams u).sortOn Prod.fst) = formText ((searchParams v).sortOn Prod.fst) ↔
      ∀ name ∈ names, valuesOf name (searchParams u) = valuesOf name (searchParams v) := by
  constructor
  · intro h name _
    have hsorted := formText_injective
      (fun pair hpair => wellFormed_searchParams (List.mem_sortOn_iff.mp hpair))
      (fun pair hpair => wellFormed_searchParams (List.mem_sortOn_iff.mp hpair)) h
    exact filter_eq_iff_valuesOf_eq.mp (List.sortOn_eq_iff.mp hsorted name)
  · intro h
    rw [List.sortOn_eq_iff.mpr fun name => ?_]
    by_cases hname : name ∈ names
    · exact filter_eq_iff_valuesOf_eq.mpr (h name hname)
    · have hnone {w : URL} (hw : Admitted names w) :
          (searchParams w).filter (·.1 = name) = [] := by
        rw [List.filter_eq_nil_iff]
        intro entry hentry hsame
        exact hname (of_decide_eq_true hsame ▸ hw entry hentry)
      rw [hnone hu, hnone hv]

theorem admittedKey_of_search_ne_nil (hsearch : u.search ≠ []) (hne : names ≠ []) :
    (Admitted names u → admittedKey names u = some (originOf u ++ u.pathname ++ js "?" ++
      formText ((searchParams u).sortOn Prod.fst))) ∧
    (¬ Admitted names u → admittedKey names u = none) := by
  have hall : ((searchParams u).all fun entry => decide (entry.1 ∈ names)) = true ↔
      Admitted names u := by
    rw [List.all_eq_true]
    exact forall₂_congr fun _ _ => decide_eq_true_iff
  unfold admittedKey
  rw [if_neg hsearch, if_neg hne]
  constructor
  · intro h
    rw [if_pos (hall.mpr h)]
  · intro h
    rw [if_neg fun hadmitted => h (hall.mp hadmitted)]

theorem admitted_of_searchParams_eq_nil (h : searchParams u = []) : Admitted names u := by
  intro entry hentry
  rw [h] at hentry
  cases hentry

/-- A URL has no key when a parameter is not admitted, except for separators alone under a policy
that admits nothing. -/
theorem admittedKey_eq_none_iff :
    admittedKey names u = none ↔ ¬ Admitted names u ∨ Idle u ∧ names = [] := by
  by_cases hsearch : u.search = []
  · have hparams := searchParams_of_search_eq_nil hsearch
    have hadmitted : Admitted names u := admitted_of_searchParams_eq_nil hparams
    simp [admittedKey, hsearch, hadmitted, Idle]
  · by_cases hne : names = []
    · subst hne
      have hkey : admittedKey [] u = none := by simp [admittedKey, hsearch]
      simp only [hkey, true_iff, and_true]
      cases hparams : searchParams u with
      | nil => exact Or.inr ⟨hsearch, hparams⟩
      | cons entry entries =>
        refine Or.inl fun hadmitted => ?_
        have := hadmitted entry (by simp [hparams])
        cases this
    · obtain ⟨hsome, hnone⟩ := admittedKey_of_search_ne_nil hsearch hne
      by_cases hadmitted : Admitted names u
      · simp [hsome hadmitted, hadmitted, hne]
      · simp [hnone hadmitted, hadmitted]

theorem admitted_of_key (h : admittedKey names u ≠ none) : Admitted names u := by
  by_contra hadmitted
  exact h (admittedKey_eq_none_iff.mpr (Or.inl hadmitted))

theorem admittedKey_eq_iff (horigin : originOf u = originOf v) (hpath : u.pathname = v.pathname)
    (hu : admittedKey names u ≠ none) (hv : admittedKey names v ≠ none) :
    admittedKey names u = admittedKey names v ↔ (u.search = [] ↔ v.search = []) ∧
      ∀ name ∈ names, valuesOf name (searchParams u) = valuesOf name (searchParams v) := by
  have hbare {w : URL} (h : w.search = []) :
      admittedKey names w = some (originOf w ++ w.pathname) := by rw [admittedKey, if_pos h]
  have hqueried {w : URL} (h : w.search ≠ []) (hw : admittedKey names w ≠ none) :
      admittedKey names w = some (originOf w ++ w.pathname ++ js "?" ++
        formText ((searchParams w).sortOn Prod.fst)) := by
    have hne : names ≠ [] := by
      rintro rfl
      simp [admittedKey, h] at hw
    exact (admittedKey_of_search_ne_nil h hne).1 (admitted_of_key hw)
  have hmark : js "?" = [63] := rfl
  by_cases hsearch : u.search = [] <;> by_cases hsearch' : v.search = []
  · rw [hbare hsearch, hbare hsearch', searchParams_of_search_eq_nil hsearch,
      searchParams_of_search_eq_nil hsearch', horigin, hpath]
    simp [hsearch, hsearch']
  · rw [hbare hsearch, hqueried hsearch' hv, horigin, hpath]
    simp [hsearch, hsearch', hmark]
  · rw [hqueried hsearch hu, hbare hsearch', horigin, hpath]
    simp [hsearch, hsearch', hmark]
  · rw [hqueried hsearch hu, hqueried hsearch' hv, horigin, hpath, Option.some.injEq,
      List.append_cancel_left_eq,
      formText_sortOn_eq_iff (admitted_of_key hu) (admitted_of_key hv)]
    simp [hsearch, hsearch']

theorem searchParams_eq_nil_of_values (hadmitted : Admitted names u)
    (h : ∀ name ∈ names, valuesOf name (searchParams u) = []) : searchParams u = [] := by
  refine List.eq_nil_iff_forall_not_mem.mpr fun entry hentry => ?_
  have hvalue : entry.2 ∈ valuesOf entry.1 (searchParams u) :=
    List.mem_map_of_mem (List.mem_filter.mpr ⟨hentry, by simp⟩)
  rw [h entry.1 (hadmitted entry hentry)] at hvalue
  cases hvalue

/-- Two URLs of one page are keyed by what their queries mean, except for separators alone: where
names are admitted their key is not that of no query, and where none is they have no key. -/
theorem urlKeyOf_keyedByMeaning_iff {query : ISRQuery} {keyOf : URL → Option JSString}
    (hkey : urlKeyOf query = .ok keyOf) (hnames : query.admitted = some names)
    (horigin : originOf u = originOf v) (hpath : u.pathname = v.pathname) :
    KeyedByMeaning keyOf names u v ↔
      ¬ (Idle u ∧ (names = [] ∨ v.search = [])) ∧ ¬ (Idle v ∧ (names = [] ∨ u.search = [])) := by
  obtain rfl := urlKeyOf_eq_admittedKey hkey hnames
  have hidle {w : URL} (h : Idle w) : Admitted names w := admitted_of_searchParams_eq_nil h.2
  have hnone (w : URL) : (admittedKey names w = none ↔ ¬ Admitted names w) ↔
      ¬ (Idle w ∧ names = []) := by
    rw [admittedKey_eq_none_iff]
    have := @hidle w
    tauto
  unfold KeyedByMeaning
  rw [hnone, hnone]
  constructor
  · rintro ⟨hu, hv, hequal⟩
    -- separators alone beside no query: the same values, and other keys
    have hbeside {w w' : URL} (hw : Idle w) (hw' : w'.search = []) (hne : ¬ (Idle w ∧ names = [])) :
        admittedKey names w ≠ none ∧ admittedKey names w' ≠ none ∧
          ∀ name, valuesOf name (searchParams w) = valuesOf name (searchParams w') := by
      refine ⟨fun h => ?_, fun h => ?_, fun name => ?_⟩
      · exact ((hnone w).mpr hne).mp h (hidle hw)
      · simp [admittedKey, hw'] at h
      · rw [hw.2, searchParams_of_search_eq_nil hw']
    constructor
    · rintro ⟨h, hempty | hsearch⟩
      · exact hu ⟨h, hempty⟩
      · obtain ⟨hku, hkv, hvalues⟩ := hbeside h hsearch hu
        have hsame := (admittedKey_eq_iff horigin hpath hku hkv).mp
          ((hequal hku hkv).mpr fun name _ => hvalues name)
        exact h.1 (hsame.1.mpr hsearch)
    · rintro ⟨h, hempty | hsearch⟩
      · exact hv ⟨h, hempty⟩
      · obtain ⟨hkv, hku, hvalues⟩ := hbeside h hsearch hv
        have hsame := (admittedKey_eq_iff horigin hpath hku hkv).mp
          ((hequal hku hkv).mpr fun name _ => (hvalues name).symm)
        exact h.1 (hsame.1.mp hsearch)
  · rintro ⟨hu, hv⟩
    refine ⟨fun h => hu ⟨h.1, Or.inl h.2⟩, fun h => hv ⟨h.1, Or.inl h.2⟩, fun hku hkv => ?_⟩
    rw [admittedKey_eq_iff horigin hpath hku hkv, and_iff_right_iff_imp]
    intro hvalues
    constructor
    · intro hsearch
      by_contra hsearch'
      refine hv ⟨⟨hsearch', ?_⟩, Or.inr hsearch⟩
      refine searchParams_eq_nil_of_values (admitted_of_key hkv) fun name hname => ?_
      rw [← hvalues name hname, searchParams_of_search_eq_nil hsearch]
      rfl
    · intro hsearch
      by_contra hsearch'
      refine hu ⟨⟨hsearch', ?_⟩, Or.inr hsearch⟩
      refine searchParams_eq_nil_of_values (admitted_of_key hku) fun name hname => ?_
      rw [hvalues name hname, searchParams_of_search_eq_nil hsearch]
      rfl

def pageUrl (query : String) : URL := ⟨true, js "example.com", [js "p"], some (js query), none⟩

theorem keyedByMeaning_spellings :
    KeyedByMeaning (admittedKey [js "a", js "b"]) [js "a", js "b"] (pageUrl "b=2&a=1&&a=%33")
      (pageUrl "a=1&a=3&b=2") := by
  have hkey : urlKeyOf (.names [js "a", js "b"]) = .ok (admittedKey [js "a", js "b"]) := rfl
  have horigin : originOf (pageUrl "b=2&a=1&&a=%33") = originOf (pageUrl "a=1&a=3&b=2") := rfl
  refine (urlKeyOf_keyedByMeaning_iff hkey rfl horigin rfl).mpr ⟨?_, ?_⟩
  · exact fun h => absurd h.1.2 (by decide)
  · exact fun h => absurd h.1.2 (by decide)

/-- `/p?&` and `/p` are one page without parameters, under two keys. -/
theorem not_keyedByMeaning_separator :
    urlKeyOf (.names [js "a"]) = .ok (admittedKey [js "a"]) ∧
    originOf (pageUrl "&") = originOf (pageUrl "") ∧
    (pageUrl "&").pathname = (pageUrl "").pathname ∧
    admittedKey [js "a"] (pageUrl "&") = some (js "https://example.com/p?") ∧
    admittedKey [js "a"] (pageUrl "") = some (js "https://example.com/p") ∧
    ¬ KeyedByMeaning (admittedKey [js "a"]) [js "a"] (pageUrl "&") (pageUrl "") := by
  have hempty : searchParams (pageUrl "&") = [] := by decide
  have hkey : admittedKey [js "a"] (pageUrl "&") = some (js "https://example.com/p?") := by
    rw [admittedKey, if_neg (by decide), if_neg (by decide), hempty, List.sortOn,
      List.mergeSort_nil]
    rfl
  have hkey' : admittedKey [js "a"] (pageUrl "") = some (js "https://example.com/p") := by decide
  refine ⟨rfl, rfl, rfl, hkey, hkey', fun h => ?_⟩
  have hequal := (h.2.2 (by simp [hkey]) (by simp [hkey'])).mpr (by decide)
  rw [hkey, hkey'] at hequal
  exact absurd hequal (by decide)

end Nifra.Isr
