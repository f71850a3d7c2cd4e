import Nifra.Text.FormText

/-! # Route slots in a query

The parameters under a reserved prefix belong to the framework, and are cut out of a query before a
page sees it. The rest of the query stays as it is written.
-/

namespace Nifra.Search

def routeSlotQueryPrefix : JSString := js "slot."

/-- The scan of a key that cannot be decoded, with what is still to come of the prefix: an escape
stands for its octet, and the first mismatch ends it. -/
def spellsPrefix : JSString → JSString → Bool
  | [], _ => true
  | _ :: _, [] => false
  | e :: rest, 37 :: x :: y :: raw =>
    match hexValue x, hexValue y with
    | some a, some b => decide (16 * a + b = e) && spellsPrefix rest raw
    | _, _ => false
  | _ :: _, 37 :: _ => false
  | e :: rest, c :: raw => decide (plusToSpace c = e) && spellsPrefix rest raw

def rawKeyStartsWithRouteSlotPrefix (rawKey : JSString) : Bool :=
  spellsPrefix routeSlotQueryPrefix rawKey

/-- The slot that a parameter names, empty for a key under the prefix that is too long or cannot be
decoded. -/
def slotNameFromSegment (segment : JSString) : Option JSString :=
  let rawKey := segment.takeWhile (· ≠ 61)
  if (routeSlotQueryPrefix.length + 32) * 3 < rawKey.length then
    if rawKeyStartsWithRouteSlotPrefix rawKey then some [] else none
  else
    match decodeURIComponent (rawKey.map plusToSpace) with
    | some key =>
      if routeSlotQueryPrefix <+: key then some (key.drop routeSlotQueryPrefix.length) else none
    | none => if rawKeyStartsWithRouteSlotPrefix rawKey then some [] else none

def isRouteSlotsParameter (segment : JSString) : Bool := (slotNameFromSegment segment).isSome

def stripRouteSlotsSearch (search : JSString) : JSString :=
  let segments := search.splitOn 38
  if segments.any isRouteSlotsParameter then
    [38].intercalate (segments.filter fun segment => !isRouteSlotsParameter segment)
  else search

theorem decodeUtf8_ascii_cons {b : ℕ} (hb : b < 0x80) (bytes : List ℕ) :
    decodeUtf8 (b :: bytes) = b :: decodeUtf8 bytes := by
  rw [decodeUtf8, decodeUtf8From, utf8First, if_pos hb]
  rfl

theorem formComponent_cons {c : ℕ} (hc : plusToSpace c < 0x80) (hpercent : c ≠ 37)
    (raw : JSString) : formComponent (c :: raw) = plusToSpace c :: formComponent raw := by
  have hplus : plusToSpace c ≠ 37 := by
    unfold plusToSpace
    split_ifs <;> omega
  rw [formComponent, List.map_cons, percentDecode, decodeUtf8_ascii_cons hc, formComponent]
  exact fun _ _ _ heq _ => hplus heq

theorem plusToSpace_of_hexValue {c v : ℕ} (h : hexValue c = some v) : plusToSpace c = c := by
  unfold plusToSpace
  rw [if_neg]
  rintro rfl
  cases h

theorem formComponent_escape {x y a b : ℕ} (hx : hexValue x = some a) (hy : hexValue y = some b)
    (hlt : 16 * a + b < 0x80) (raw : JSString) :
    formComponent (37 :: x :: y :: raw) = (16 * a + b) :: formComponent raw := by
  have hpercent : plusToSpace 37 = 37 := rfl
  rw [formComponent, List.map_cons, List.map_cons, List.map_cons, hpercent,
    plusToSpace_of_hexValue hx, plusToSpace_of_hexValue hy, percentDecode, hx, hy]
  exact decodeUtf8_ascii_cons hlt _

theorem prefix_of_spellsPrefix {expected raw : JSString} (hascii : ∀ e ∈ expected, e < 0x80)
    (h : spellsPrefix expected raw = true) : expected <+: formComponent raw := by
  induction expected, raw using spellsPrefix.induct with
  | case1 raw => exact List.nil_prefix
  | case2 e rest => cases h
  | case3 e rest x y raw a b hy hx ih =>
    obtain ⟨he, hrest⟩ := List.forall_mem_cons.mp hascii
    rw [spellsPrefix, hx, hy, Bool.and_eq_true, decide_eq_true_eq] at h
    obtain ⟨rfl, h⟩ := h
    rw [formComponent_escape hx hy he, List.cons_prefix_cons]
    exact ⟨rfl, ih hrest h⟩
  | case4 e rest x y raw hhex =>
    rw [spellsPrefix] at h
    split at h
    · next a b hx hy => exact (hhex a b hx hy).elim
    · cases h
  | case5 e rest raw hraw =>
    rw [spellsPrefix] at h
    · cases h
    · exact hraw
  | case6 e rest c raw hc hpercent ih =>
    obtain ⟨he, hrest⟩ := List.forall_mem_cons.mp hascii
    rw [spellsPrefix.eq_5 e rest c raw hc hpercent, Bool.and_eq_true, decide_eq_true_eq] at h
    obtain ⟨rfl, h⟩ := h
    rw [formComponent_cons he hpercent, List.cons_prefix_cons]
    exact ⟨rfl, ih hrest h⟩

/-- What stays as written in a name or a value, once its plus signs are spaces. -/
def formRaw (c : ℕ) : Bool := c == 32 || formKept c

theorem plusToSpace_formUnit {b : ℕ} (hb : b < 256) :
    (formUnit b).map plusToSpace = if formRaw b then [b] else escape b := by
  unfold formUnit formRaw
  by_cases hspace : b = 32
  · subst hspace
    rfl
  · have hbeq : (b == 32) = false := beq_eq_false_iff_ne.mpr hspace
    rw [if_neg hspace, hbeq, Bool.false_or]
    split_ifs with hkept
    · rw [List.map_singleton, plusToSpace, if_neg (plain_of_formKept hkept).2.1]
    · have hhigh := hexDigit_plain (d := b / 16) (by omega)
      have hlow := hexDigit_plain (d := b % 16) (by omega)
      simp [escape, plusToSpace, hhigh.2.1, hlow.2.1]

theorem percentEncode_formRaw {s : JSString} (h : WellFormed s) :
    percentEncode formRaw s = some ((formSpelling s).map plusToSpace) := by
  obtain ⟨ps, hps⟩ := Option.isSome_iff_exists.mp h
  obtain ⟨hs, hscalar⟩ := codePoints_scalar_units hps
  have hlong {c b : ℕ} (hc : ¬ c < 0x80) (hb : b ∈ utf8 c) : 0x80 ≤ b := by
    unfold utf8 at hb
    split_ifs at hb <;> simp only [List.mem_cons, List.not_mem_nil, or_false] at hb <;> omega
  rw [percentEncode, hps, Option.map_some, Option.some.injEq, formSpelling, hs,
    encodeUtf8_flatMap_utf16 hscalar, List.flatMap_assoc, List.map_flatMap]
  refine List.flatMap_congr fun c hc => ?_
  by_cases hascii : c < 0x80
  · rw [utf8_of_ascii hascii, List.flatMap_singleton, List.flatMap_singleton,
      plusToSpace_formUnit (by omega)]
    simp [hascii]
  · rw [if_neg fun h => hascii h.1, List.map_flatMap]
    refine List.flatMap_congr fun b hb => ?_
    have hraw : formRaw b = false := by
      rw [Bool.eq_false_iff]
      intro hraw
      have := hlong hascii hb
      rcases Bool.or_eq_true_iff.mp hraw with hspace | hkept
      · have := beq_iff_eq.mp hspace
        omega
      · have := (plain_of_formKept hkept).1
        omega
    rw [plusToSpace_formUnit (utf8_lt (hscalar c hc) b hb), hraw]
    rfl

theorem decodeURIComponent_formSpelling {s : JSString} (h : WellFormed s) :
    decodeURIComponent ((formSpelling s).map plusToSpace) = some s :=
  decodeURIComponent_percentEncode (by decide) (percentEncode_formRaw h)

theorem slotNameFromSegment_eq_none {name value : JSString} (h : WellFormed name)
    (hslot : ¬ routeSlotQueryPrefix <+: name) :
    slotNameFromSegment (formSpelling name ++ 61 :: value) = none := by
  have hkey : (formSpelling name ++ 61 :: value).takeWhile (· ≠ 61) = formSpelling name := by
    have hkept : ∀ c ∈ formSpelling name, decide (c ≠ 61) = true :=
      fun c hc => decide_eq_true (mem_formSpelling hc).2.2.1
    rw [List.takeWhile_append_of_pos hkept, List.takeWhile_cons_of_neg (by simp), List.append_nil]
  have hscan : rawKeyStartsWithRouteSlotPrefix (formSpelling name) = false := by
    rw [Bool.eq_false_iff]
    intro hspells
    have hascii : ∀ e ∈ routeSlotQueryPrefix, e < 0x80 := by decide
    have := prefix_of_spellsPrefix hascii hspells
    rw [formComponent_formSpelling h] at this
    exact hslot this
  unfold slotNameFromSegment
  simp only [hkey, hscan, decodeURIComponent_formSpelling h]
  split_ifs
  · contradiction
  · rfl
  · rfl

theorem stripRouteSlotsSearch_formText {pairs : List (JSString × JSString)}
    (h : ∀ pair ∈ pairs, WellFormed pair.1 ∧ ¬ routeSlotQueryPrefix <+: pair.1) :
    stripRouteSlotsSearch (formText pairs) = formText pairs := by
  have hnone : ((formText pairs).splitOn 38).any isRouteSlotsParameter = false := by
    rw [List.any_eq_false]
    intro segment hsegment
    cases pairs with
    | nil =>
      obtain rfl : segment = [] := by simpa [formText] using hsegment
      decide
    | cons first pairs =>
      rw [splitOn_formText (List.cons_ne_nil _ _)] at hsegment
      obtain ⟨pair, hpair, rfl⟩ := List.mem_map.mp hsegment
      rw [isRouteSlotsParameter, slotNameFromSegment_eq_none (h pair hpair).1 (h pair hpair).2]
      decide
  rw [stripRouteSlotsSearch, hnone]
  rfl

end Nifra.Search
