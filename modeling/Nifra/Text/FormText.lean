import Nifra.Lib.Split
import Nifra.Text.JSONUtf8
import Nifra.Text.Utf8

/-! # URL-encoded forms

The parser of `application/x-www-form-urlencoded`, on octets, and what `URLSearchParams`
reads out of a string with it.
-/

namespace Nifra

/-- An escape is an octet; a percent sign that starts none stands for itself. -/
def percentDecode : List ℕ → List ℕ
  | [] => []
  | 37 :: x :: y :: rest =>
    match hexValue x, hexValue y with
    | some a, some b => (16 * a + b) :: percentDecode rest
    | _, _ => 37 :: percentDecode (x :: y :: rest)
  | b :: rest => b :: percentDecode rest

def plusToSpace (b : ℕ) : ℕ := if b = 43 then 32 else b

def formComponent (bytes : List ℕ) : JSString :=
  decodeUtf8 (percentDecode (bytes.map plusToSpace))

/-- The name ends at the first equals sign; without one the value is empty. -/
def formPair (bytes : List ℕ) : JSString × JSString :=
  (formComponent (bytes.takeWhile (· ≠ 61)), formComponent ((bytes.dropWhile (· ≠ 61)).drop 1))

def parseForm (input : List ℕ) : List (JSString × JSString) :=
  ((input.splitOn 38).filter (· ≠ [])).map formPair

/-- The pairs of `new URLSearchParams(init)`: one leading question mark is not part of them. -/
def urlSearchParams (init : JSString) : List (JSString × JSString) :=
  parseForm (encodeUtf8 (if init.head? = some 63 then init.tail else init))

def unescapedPair (segment : JSString) : JSString × JSString :=
  (segment.takeWhile (· ≠ 61), (segment.dropWhile (· ≠ 61)).drop 1)

def unescapedPairs (form : JSString) : List (JSString × JSString) :=
  ((form.splitOn 38).filter (· ≠ [])).map unescapedPair

theorem percentDecode_of_not_mem {bytes : List ℕ} (h : 37 ∉ bytes) : percentDecode bytes = bytes := by
  induction bytes with
  | nil => rfl
  | cons b bytes ih =>
    have hb : b ≠ 37 := fun hb => h (by simp [hb])
    rw [percentDecode, ih (mt (List.mem_cons_of_mem _) h)]
    rintro x y rest rfl
    exact absurd rfl hb

theorem map_plusToSpace_of_not_mem {bytes : List ℕ} (h : 43 ∉ bytes) :
    bytes.map plusToSpace = bytes := by
  have hid : ∀ b ∈ bytes, plusToSpace b = b :=
    fun b hb => if_neg (ne_of_mem_of_not_mem hb h)
  rw [List.map_congr_left hid, List.map_id']

theorem formComponent_encodeUtf8 {s : JSString} (h : WellFormed s) (hplus : 43 ∉ s)
    (hpercent : 37 ∉ s) : formComponent (encodeUtf8 s) = s := by
  have hplus' : 43 ∉ encodeUtf8 s := by rwa [mem_encodeUtf8_ascii_iff h (by decide)]
  have hpercent' : 37 ∉ encodeUtf8 s := by rwa [mem_encodeUtf8_ascii_iff h (by decide)]
  rw [formComponent, map_plusToSpace_of_not_mem hplus', percentDecode_of_not_mem hpercent',
    decodeUtf8_encodeUtf8 h]

section CodePoints

variable {ps : List ℕ} {c : ℕ}

theorem utf8_of_ascii (hc : c < 0x80) : utf8 c = [c] := by simp [utf8, hc]

theorem utf16_of_ascii (hc : c < 0x80) : JSString.utf16 c = [c] := by
  simp [JSString.utf16, show c < 0x10000 by omega]

theorem not_mem_utf8_of_ne (hc : c < 0x80) {p : ℕ} (hpc : p ≠ c) : c ∉ utf8 p := by
  unfold utf8
  split_ifs <;> simp only [List.mem_cons, List.not_mem_nil, or_false] <;> omega

theorem not_mem_utf16_of_ne (hc : c < 0x80) {p : ℕ} (hpc : p ≠ c) : c ∉ JSString.utf16 p := by
  unfold JSString.utf16
  split_ifs <;> simp only [List.mem_cons, List.not_mem_nil, or_false] <;> omega

theorem encodeUtf8_flatMap_utf16 (h : ∀ p ∈ ps, IsScalar p) :
    encodeUtf8 (ps.flatMap JSString.utf16) = ps.flatMap utf8 := by
  induction ps with
  | nil => rfl
  | cons p ps ih =>
    obtain ⟨hp, hps⟩ := List.forall_mem_cons.mp h
    rw [List.flatMap_cons, encodeUtf8_utf16 hp, ih hps, List.flatMap_cons]

end CodePoints

theorem exists_scalars {s : JSString} (h : WellFormed s) :
    ∃ ps : List ℕ, s = ps.flatMap JSString.utf16 ∧ ∀ p ∈ ps, IsScalar p := by
  obtain ⟨ps, hps⟩ := Option.isSome_iff_exists.mp h
  exact ⟨ps, codePoints_scalar_units hps⟩

theorem WellFormed.drop_one {s : JSString} (h : WellFormed s) {c : ℕ} (hhead : s[0]? = some c)
    (hc : c < 0x80) : WellFormed (s.drop 1) := by
  cases s with
  | nil => exact h
  | cons u s =>
    obtain rfl : u = c := by simpa using hhead
    have hu : u < 0x10000 ∧ IsScalar u := ⟨by omega, Or.inl (by omega)⟩
    rwa [WellFormed, codePoints_scalar hu, Option.isSome_map] at h

theorem splitOn_encodeUtf8 {s : JSString} (h : WellFormed s) {c : ℕ} (hc : c < 0x80) :
    (encodeUtf8 s).splitOn c = (s.splitOn c).map encodeUtf8 ∧ ∀ t ∈ s.splitOn c, WellFormed t := by
  obtain ⟨ps, rfl, hps⟩ := exists_scalars h
  rw [encodeUtf8_flatMap_utf16 hps,
    List.splitOn_flatMap (utf8_of_ascii hc) fun _ _ => not_mem_utf8_of_ne hc,
    List.splitOn_flatMap (utf16_of_ascii hc) fun _ _ => not_mem_utf16_of_ne hc]
  have hpiece : ∀ piece ∈ ps.splitOn c, ∀ p ∈ piece, IsScalar p :=
    fun piece hpiece p hp => hps p (List.mem_of_mem_splitOn hpiece hp).1
  constructor
  · rw [List.map_map]
    exact List.map_congr_left fun piece hmem => (encodeUtf8_flatMap_utf16 (hpiece piece hmem)).symm
  · rintro t ht
    obtain ⟨piece, hmem, rfl⟩ := List.mem_map.mp ht
    exact wellFormed_utf16 (hpiece piece hmem)

theorem takeWhile_encodeUtf8 {s : JSString} (h : WellFormed s) {c : ℕ} (hc : c < 0x80) :
    (encodeUtf8 s).takeWhile (· ≠ c) = encodeUtf8 (s.takeWhile (· ≠ c)) ∧
      WellFormed (s.takeWhile (· ≠ c)) := by
  obtain ⟨ps, rfl, hps⟩ := exists_scalars h
  have hkept : ∀ p ∈ ps.takeWhile (· ≠ c), IsScalar p :=
    fun p hp => hps p ((List.takeWhile_prefix _).mem hp)
  rw [encodeUtf8_flatMap_utf16 hps,
    List.takeWhile_flatMap (utf8_of_ascii hc) fun _ _ => not_mem_utf8_of_ne hc,
    List.takeWhile_flatMap (utf16_of_ascii hc) fun _ _ => not_mem_utf16_of_ne hc]
  exact ⟨(encodeUtf8_flatMap_utf16 hkept).symm, wellFormed_utf16 hkept⟩

theorem drop_dropWhile_encodeUtf8 {s : JSString} (h : WellFormed s) {c : ℕ} (hc : c < 0x80) :
    ((encodeUtf8 s).dropWhile (· ≠ c)).drop 1 = encodeUtf8 ((s.dropWhile (· ≠ c)).drop 1) ∧
      WellFormed ((s.dropWhile (· ≠ c)).drop 1) := by
  obtain ⟨ps, rfl, hps⟩ := exists_scalars h
  rw [encodeUtf8_flatMap_utf16 hps,
    List.dropWhile_flatMap (utf8_of_ascii hc) fun _ _ => not_mem_utf8_of_ne hc,
    List.dropWhile_flatMap (utf16_of_ascii hc) fun _ _ => not_mem_utf16_of_ne hc]
  cases hrest : ps.dropWhile (· ≠ c) with
  | nil => exact ⟨rfl, wellFormed_ascii (by simp)⟩
  | cons p rest =>
    have hhead := List.head?_dropWhile_not (· ≠ c) ps
    rw [hrest, List.head?_cons] at hhead
    have hpc : p = c := by simpa using hhead
    have hkept : ∀ q ∈ rest, IsScalar q := fun q hq =>
      hps q ((List.dropWhile_suffix _).mem (hrest ▸ List.mem_cons_of_mem _ hq))
    subst hpc
    rw [List.flatMap_cons, List.flatMap_cons, utf8_of_ascii hc, utf16_of_ascii hc]
    exact ⟨(encodeUtf8_flatMap_utf16 hkept).symm, wellFormed_utf16 hkept⟩

theorem encodeUtf8_eq_nil_iff {s : JSString} (h : WellFormed s) : encodeUtf8 s = [] ↔ s = [] := by
  constructor
  · rintro hnil
    rw [← decodeUtf8_encodeUtf8 h, hnil]
    rfl
  · rintro rfl
    rfl

theorem formPair_encodeUtf8 {s : JSString} (h : WellFormed s) (hplus : 43 ∉ s) (hpercent : 37 ∉ s) :
    formPair (encodeUtf8 s) = unescapedPair s := by
  obtain ⟨hname, hnameOk⟩ := takeWhile_encodeUtf8 h (c := 61) (by decide)
  obtain ⟨hvalue, hvalueOk⟩ := drop_dropWhile_encodeUtf8 h (c := 61) (by decide)
  have hname' : s.takeWhile (· ≠ 61) ⊆ s := (List.takeWhile_prefix _).subset
  have hvalue' : (s.dropWhile (· ≠ 61)).drop 1 ⊆ s :=
    ((List.drop_suffix 1 _).trans (List.dropWhile_suffix _)).subset
  rw [formPair, hname, hvalue,
    formComponent_encodeUtf8 hnameOk (mt (@hname' 43) hplus) (mt (@hname' 37) hpercent),
    formComponent_encodeUtf8 hvalueOk (mt (@hvalue' 43) hplus) (mt (@hvalue' 37) hpercent),
    unescapedPair]

theorem parseForm_encodeUtf8 {s : JSString} (h : WellFormed s) (hplus : 43 ∉ s) (hpercent : 37 ∉ s) :
    parseForm (encodeUtf8 s) = unescapedPairs s := by
  obtain ⟨hsplit, hpieces⟩ := splitOn_encodeUtf8 h (c := 38) (by decide)
  have hempty : ∀ t ∈ s.splitOn 38, (decide (encodeUtf8 t ≠ [])) = decide (t ≠ []) :=
    fun t ht => by simp [encodeUtf8_eq_nil_iff (hpieces t ht)]
  rw [parseForm, hsplit, List.filter_map, List.map_map, unescapedPairs]
  have hfilter : (s.splitOn 38).filter ((fun t => decide (t ≠ [])) ∘ encodeUtf8)
      = (s.splitOn 38).filter fun t => decide (t ≠ []) := List.filter_congr hempty
  rw [hfilter]
  apply List.map_congr_left
  rintro t ht
  have hmem := List.mem_of_mem_filter ht
  exact formPair_encodeUtf8 (hpieces t hmem)
    (fun hm => hplus (List.mem_of_mem_splitOn hmem hm).1)
    (fun hm => hpercent (List.mem_of_mem_splitOn hmem hm).1)

/-! ## Texts of URL-encoded forms

The serializer of `application/x-www-form-urlencoded`. What it writes is read back pair by pair, and
whatever the parser reads can be written: octets decode to well-formed strings.
-/

def formKept (b : ℕ) : Bool := isAlphanumeric b || (js "*-._").contains b

def formUnit (b : ℕ) : JSString :=
  if b = 32 then [43] else if formKept b then [b] else escape b

def formSpelling (s : JSString) : JSString := (encodeUtf8 s).flatMap formUnit

/-- `new URLSearchParams(pairs).toString()` -/
def formText (pairs : List (JSString × JSString)) : JSString :=
  [38].intercalate (pairs.map fun pair => formSpelling pair.1 ++ 61 :: formSpelling pair.2)

theorem hexDigit_plain {d : ℕ} (h : d < 16) :
    hexDigit d < 0x80 ∧ hexDigit d ≠ 43 ∧ hexDigit d ≠ 37 ∧ hexDigit d ≠ 38 ∧ hexDigit d ≠ 61 ∧
      hexDigit d ≠ 63 := by
  unfold hexDigit
  split_ifs <;> omega

theorem plain_of_formKept {b : ℕ} (h : formKept b) :
    b < 0x80 ∧ b ≠ 43 ∧ b ≠ 37 ∧ b ≠ 38 ∧ b ≠ 61 ∧ b ≠ 63 := by
  have hunits : js "*-._" = [42, 45, 46, 95] := rfl
  simp only [formKept, isAlphanumeric, hunits, Bool.or_eq_true, decide_eq_true_eq,
    List.contains_iff_mem, List.mem_cons, List.not_mem_nil, or_false] at h
  omega

theorem formUnit_cases (b : ℕ) : b = 32 ∧ formUnit b = [43] ∨
    (b < 0x80 ∧ b ≠ 43 ∧ b ≠ 37 ∧ b ≠ 38 ∧ b ≠ 61 ∧ b ≠ 63) ∧ formUnit b = [b] ∨
    formUnit b = escape b := by
  unfold formUnit
  split_ifs with hspace hkept
  · exact Or.inl ⟨hspace, rfl⟩
  · exact Or.inr (Or.inl ⟨plain_of_formKept hkept, rfl⟩)
  · exact Or.inr (Or.inr rfl)

theorem mem_formUnit {b c : ℕ} (hb : b < 256) (hc : c ∈ formUnit b) :
    c < 0x80 ∧ c ≠ 38 ∧ c ≠ 61 ∧ c ≠ 63 := by
  rcases formUnit_cases b with ⟨-, heq⟩ | ⟨hplain, heq⟩ | heq
  · rw [heq, List.mem_singleton] at hc
    omega
  · rw [heq, List.mem_singleton] at hc
    omega
  · have hhigh := hexDigit_plain (d := b / 16) (by omega)
    have hlow := hexDigit_plain (d := b % 16) (by omega)
    simp only [heq, escape, List.mem_cons, List.not_mem_nil, or_false] at hc
    omega

theorem percentDecode_formUnit {b : ℕ} (hb : b < 256) (rest : List ℕ) :
    percentDecode ((formUnit b).map plusToSpace ++ rest) = b :: percentDecode rest := by
  rcases formUnit_cases b with ⟨rfl, heq⟩ | ⟨hplain, heq⟩ | heq
  · rw [heq]
    change percentDecode (32 :: rest) = _
    rw [percentDecode]
    exact fun _ _ _ h _ => absurd h (by decide)
  · have hid : plusToSpace b = b := if_neg hplain.2.1
    rw [heq, List.map_singleton, hid, List.singleton_append, percentDecode]
    exact fun _ _ _ h _ => absurd h hplain.2.2.1
  · have hhigh := hexDigit_plain (d := b / 16) (by omega)
    have hlow := hexDigit_plain (d := b % 16) (by omega)
    have hmap : (escape b).map plusToSpace = escape b := by
      simp [escape, plusToSpace, hhigh.2.1, hlow.2.1]
    rw [heq, hmap]
    change percentDecode (37 :: hexDigit (b / 16) :: hexDigit (b % 16) :: rest) = _
    rw [percentDecode, hexValue_hexDigit (by omega), hexValue_hexDigit (by omega)]
    have hsum : 16 * (b / 16) + b % 16 = b := by omega
    simp only [hsum]

theorem percentDecode_flatMap_formUnit {bytes : List ℕ} (h : ∀ b ∈ bytes, b < 256) :
    percentDecode ((bytes.flatMap formUnit).map plusToSpace) = bytes := by
  induction bytes with
  | nil => rfl
  | cons b bytes ih =>
    obtain ⟨hb, hbytes⟩ := List.forall_mem_cons.mp h
    rw [List.flatMap_cons, List.map_append, percentDecode_formUnit hb, ih hbytes]

theorem mem_formSpelling {s : JSString} {c : ℕ} (hc : c ∈ formSpelling s) :
    c < 0x80 ∧ c ≠ 38 ∧ c ≠ 61 ∧ c ≠ 63 := by
  obtain ⟨b, hb, hc⟩ := List.mem_flatMap.mp hc
  exact mem_formUnit (encodeUtf8_lt s b hb) hc

theorem formComponent_formSpelling {s : JSString} (h : WellFormed s) :
    formComponent (formSpelling s) = s := by
  rw [formComponent, formSpelling, percentDecode_flatMap_formUnit (encodeUtf8_lt s),
    decodeUtf8_encodeUtf8 h]

theorem formPair_spelling {name value : JSString} (hname : WellFormed name)
    (hvalue : WellFormed value) :
    formPair (formSpelling name ++ 61 :: formSpelling value) = (name, value) := by
  have hkept : ∀ c ∈ formSpelling name, decide (c ≠ 61) = true :=
    fun c hc => decide_eq_true (mem_formSpelling hc).2.2.1
  rw [formPair, List.takeWhile_append_of_pos hkept, List.dropWhile_append_of_pos hkept,
    List.takeWhile_cons_of_neg (by simp), List.dropWhile_cons_of_neg (by simp), List.append_nil,
    List.drop_succ_cons, List.drop_zero, formComponent_formSpelling hname,
    formComponent_formSpelling hvalue]

theorem encodeUtf8_ascii {s : JSString} (h : ∀ c ∈ s, c < 0x80) : encodeUtf8 s = s := by
  have hself {f : ℕ → List ℕ} (hf : ∀ c, c < 0x80 → f c = [c]) : s.flatMap f = s := by
    induction s with
    | nil => rfl
    | cons c s ih =>
      obtain ⟨hc, hs⟩ := List.forall_mem_cons.mp h
      rw [List.flatMap_cons, hf c hc, ih hs, List.singleton_append]
  have hscalar : ∀ c ∈ s, IsScalar c := fun c hc => Or.inl ((h c hc).trans (by decide))
  have hencode := encodeUtf8_flatMap_utf16 hscalar
  rwa [hself fun c => utf16_of_ascii, hself fun c => utf8_of_ascii] at hencode

theorem urlSearchParams_of_ascii {s : JSString} (h : ∀ c ∈ s, c < 0x80)
    (hmark : s.head? ≠ some 63) : urlSearchParams s = parseForm s := by
  rw [urlSearchParams, if_neg hmark, encodeUtf8_ascii h]

theorem splitOn_formText {pairs : List (JSString × JSString)} (hne : pairs ≠ []) :
    (formText pairs).splitOn 38 =
      pairs.map fun pair => formSpelling pair.1 ++ 61 :: formSpelling pair.2 := by
  refine List.splitOn_intercalate _ ?_ (by simpa using hne)
  intro piece hpiece
  obtain ⟨pair, -, rfl⟩ := List.mem_map.mp hpiece
  simp only [List.mem_append, List.mem_cons, not_or]
  exact ⟨fun hm => (mem_formSpelling hm).2.1 rfl, by decide,
    fun hm => (mem_formSpelling hm).2.1 rfl⟩

theorem parseForm_formText {pairs : List (JSString × JSString)}
    (h : ∀ pair ∈ pairs, WellFormed pair.1 ∧ WellFormed pair.2) :
    parseForm (formText pairs) = pairs := by
  cases pairs with
  | nil => rfl
  | cons first pairs =>
    rw [parseForm, splitOn_formText (List.cons_ne_nil _ _), List.filter_eq_self.mpr, List.map_map]
    · refine (List.map_congr_left fun pair hpair => ?_).trans (List.map_id _)
      exact formPair_spelling (h pair hpair).1 (h pair hpair).2
    · intro piece hpiece
      obtain ⟨pair, -, rfl⟩ := List.mem_map.mp hpiece
      simp

theorem mem_formText {pairs : List (JSString × JSString)} {c : ℕ} (hc : c ∈ formText pairs) :
    c < 0x80 ∧ c ≠ 63 := by
  rcases List.eq_or_mem_of_mem_intercalate hc with rfl | ⟨piece, hpiece, hc⟩
  · decide
  · obtain ⟨pair, -, rfl⟩ := List.mem_map.mp hpiece
    rcases List.mem_append.mp hc with hc | hc
    · exact ⟨(mem_formSpelling hc).1, (mem_formSpelling hc).2.2.2⟩
    · rcases List.mem_cons.mp hc with rfl | hc
      · decide
      · exact ⟨(mem_formSpelling hc).1, (mem_formSpelling hc).2.2.2⟩

theorem urlSearchParams_formText {pairs : List (JSString × JSString)}
    (h : ∀ pair ∈ pairs, WellFormed pair.1 ∧ WellFormed pair.2) :
    urlSearchParams (formText pairs) = pairs := by
  rw [urlSearchParams_of_ascii (fun c hc => (mem_formText hc).1), parseForm_formText h]
  intro hmark
  exact (mem_formText (List.mem_of_head? hmark)).2 rfl

theorem formText_injective {pairs pairs' : List (JSString × JSString)}
    (h : ∀ pair ∈ pairs, WellFormed pair.1 ∧ WellFormed pair.2)
    (h' : ∀ pair ∈ pairs', WellFormed pair.1 ∧ WellFormed pair.2)
    (heq : formText pairs = formText pairs') : pairs = pairs' := by
  rw [← parseForm_formText h, heq, parseForm_formText h']

def Utf8Pending.Valid (p : Utf8Pending) : Prop :=
  0x80 ≤ p.lower ∧ p.upper ≤ 0xBF ∧
  (p.needed = 1 ∧ (∀ x, p.lower ≤ x → x ≤ p.upper → IsScalar (p.codePoint * 0x40 + (x - 0x80))) ∨
    p.needed = 2 ∧ (∀ x y, p.lower ≤ x → x ≤ p.upper → y < 0x40 →
      IsScalar ((p.codePoint * 0x40 + (x - 0x80)) * 0x40 + y)) ∨
    p.needed = 3 ∧ ∀ x y z, p.lower ≤ x → x ≤ p.upper → y < 0x40 → z < 0x40 →
      IsScalar (((p.codePoint * 0x40 + (x - 0x80)) * 0x40 + y) * 0x40 + z))

theorem wellFormed_replacement : WellFormed [0xFFFD] := rfl

theorem valid_two {b : ℕ} (h : 0xC2 ≤ b ∧ b < 0xE0) :
    Utf8Pending.Valid ⟨b - 0xC0, 1, 0x80, 0xBF⟩ := by
  refine ⟨le_rfl, le_rfl, Or.inl ⟨rfl, fun x hx hx' => ?_⟩⟩
  unfold IsScalar
  simp only at hx hx' ⊢
  omega

theorem valid_three {b : ℕ} (h : 0xE0 ≤ b ∧ b < 0xF0) : Utf8Pending.Valid
    ⟨b - 0xE0, 2, if b = 0xE0 then 0xA0 else 0x80, if b = 0xED then 0x9F else 0xBF⟩ := by
  refine ⟨?_, ?_, Or.inr (Or.inl ⟨rfl, fun x y hx hx' hy => ?_⟩)⟩
  · simp only
    split_ifs <;> omega
  · simp only
    split_ifs <;> omega
  · unfold IsScalar
    simp only at hx hx' ⊢
    split_ifs at hx hx' <;> omega

theorem valid_four {b : ℕ} (h : 0xF0 ≤ b ∧ b < 0xF5) : Utf8Pending.Valid
    ⟨b - 0xF0, 3, if b = 0xF0 then 0x90 else 0x80, if b = 0xF4 then 0x8F else 0xBF⟩ := by
  refine ⟨?_, ?_, Or.inr (Or.inr ⟨rfl, fun x y z hx hx' hy hz => ?_⟩)⟩
  · simp only
    split_ifs <;> omega
  · simp only
    split_ifs <;> omega
  · unfold IsScalar
    simp only at hx hx' ⊢
    split_ifs at hx hx' <;> omega

theorem utf8First_cases (b : ℕ) : b < 0x80 ∧ utf8First b = ([b], none) ∨
    utf8First b = ([0xFFFD], none) ∨ ∃ p : Utf8Pending, p.Valid ∧ utf8First b = ([], some p) := by
  unfold utf8First
  by_cases hone : b < 0x80
  · exact Or.inl ⟨hone, if_pos hone⟩
  refine Or.inr ?_
  rw [if_neg hone]
  by_cases htwo : 0xC2 ≤ b ∧ b < 0xE0
  · exact Or.inr ⟨_, valid_two htwo, if_pos htwo⟩
  rw [if_neg htwo]
  by_cases hthree : 0xE0 ≤ b ∧ b < 0xF0
  · exact Or.inr ⟨_, valid_three hthree, if_pos hthree⟩
  rw [if_neg hthree]
  by_cases hfour : 0xF0 ≤ b ∧ b < 0xF5
  · exact Or.inr ⟨_, valid_four hfour, if_pos hfour⟩
  exact Or.inl (if_neg hfour)

theorem utf8Next_cases {p : Utf8Pending} (h : p.Valid) (b : ℕ) :
    (∃ c, IsScalar c ∧ utf8Next p b = (JSString.utf16 c, none)) ∨
    (∃ q : Utf8Pending, q.Valid ∧ utf8Next p b = ([], some q)) ∨
    utf8Next p b = (0xFFFD :: (utf8First b).1, (utf8First b).2) := by
  unfold utf8Next
  by_cases hrange : p.lower ≤ b ∧ b ≤ p.upper
  · rw [if_pos hrange]
    have hlower := h.1
    have hupper := h.2.1
    rcases h.2.2 with ⟨hneeded, hlong⟩ | ⟨hneeded, hlong⟩ | ⟨hneeded, hlong⟩
    · exact Or.inl ⟨_, hlong b hrange.1 hrange.2, if_pos hneeded⟩
    · refine Or.inr (Or.inl ⟨_, ⟨le_rfl, le_rfl, Or.inl ⟨by simp only; omega, ?_⟩⟩,
        if_neg (by omega)⟩)
      intro x hx hx'
      simp only at hx hx'
      exact hlong b (x - 0x80) hrange.1 hrange.2 (by omega)
    · refine Or.inr (Or.inl ⟨_, ⟨le_rfl, le_rfl, Or.inr (Or.inl ⟨by simp only; omega, ?_⟩)⟩,
        if_neg (by omega)⟩)
      intro x y hx hx' hy
      simp only at hx hx'
      exact hlong b (x - 0x80) y hrange.1 hrange.2 (by omega) hy
  · exact Or.inr (Or.inr (if_neg hrange))

theorem wellFormed_decodeUtf8From {pending : Option Utf8Pending} (h : ∀ p ∈ pending, p.Valid)
    (bytes : List ℕ) : WellFormed (decodeUtf8From pending bytes) := by
  induction bytes generalizing pending with
  | nil => cases pending <;> rfl
  | cons b bytes ih =>
    have hfirst : WellFormed ((utf8First b).1 ++ decodeUtf8From (utf8First b).2 bytes) := by
      rcases utf8First_cases b with ⟨hlt, heq⟩ | heq | ⟨p, hp, heq⟩
      · rw [heq]
        exact (wellFormed_ascii (by simpa using hlt)).append (ih (by simp))
      · rw [heq]
        exact wellFormed_replacement.append (ih (by simp))
      · rw [heq]
        exact ih (by simpa using hp)
    cases pending with
    | none => exact hfirst
    | some p =>
      rw [decodeUtf8From]
      rcases utf8Next_cases (h p rfl) b with ⟨c, hc, heq⟩ | ⟨q, hq, heq⟩ | heq
      · rw [heq]
        refine WellFormed.append ?_ (ih (by simp))
        rw [← List.flatMap_singleton JSString.utf16]
        exact wellFormed_utf16 (List.forall_mem_singleton.mpr hc)
      · rw [heq]
        exact ih (by simpa using hq)
      · rw [heq]
        exact wellFormed_replacement.append hfirst

theorem wellFormed_decodeUtf8 (bytes : List ℕ) : WellFormed (decodeUtf8 bytes) :=
  wellFormed_decodeUtf8From (by simp) bytes

theorem wellFormed_of_mem_parseForm {bytes : List ℕ} {pair : JSString × JSString}
    (h : pair ∈ parseForm bytes) : WellFormed pair.1 ∧ WellFormed pair.2 := by
  obtain ⟨segment, -, rfl⟩ := List.mem_map.mp h
  exact ⟨wellFormed_decodeUtf8 _, wellFormed_decodeUtf8 _⟩

end Nifra
