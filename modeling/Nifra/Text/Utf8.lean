import Mathlib.Tactic.Common
import Nifra.Text.JSString
import Nifra.Text.URI

/-! # UTF-8

`TextEncoder` and `TextDecoder` between strings and octets. Neither ever fails: a lone
surrogate is written as U+FFFD, and octets that are no UTF-8 are read as U+FFFD.
-/

namespace Nifra

/-- The characters that `for … of` gives: a surrogate pair is one. -/
def characters : JSString → List JSString
  | [] => []
  | [c] => [[c]]
  | c :: d :: rest =>
    if JSON.isLeadSurrogate c ∧ JSON.isTrailSurrogate d then [c, d] :: characters rest
    else [c] :: characters (d :: rest)

def unitScalar (c : ℕ) : ℕ := if IsScalar c then c else 0xFFFD

def pairScalar (c d : ℕ) : ℕ := 0x10000 + (c - 0xD800) * 0x400 + (d - 0xDC00)

def scalarOf : JSString → ℕ
  | [] => 0
  | [c] => unitScalar c
  | c :: d :: _ => pairScalar c d

def encodeUtf8 (s : JSString) : List ℕ := (characters s).flatMap fun c => utf8 (scalarOf c)

/-- The code point so far, how many octets it lacks, and the range of the next one. -/
structure Utf8Pending where
  codePoint : ℕ
  needed : ℕ
  lower : ℕ
  upper : ℕ
  deriving DecidableEq, Repr

def utf8First (b : ℕ) : JSString × Option Utf8Pending :=
  if b < 0x80 then ([b], none)
  else if 0xC2 ≤ b ∧ b < 0xE0 then ([], some ⟨b - 0xC0, 1, 0x80, 0xBF⟩)
  else if 0xE0 ≤ b ∧ b < 0xF0 then
    ([], some ⟨b - 0xE0, 2, if b = 0xE0 then 0xA0 else 0x80, if b = 0xED then 0x9F else 0xBF⟩)
  else if 0xF0 ≤ b ∧ b < 0xF5 then
    ([], some ⟨b - 0xF0, 3, if b = 0xF0 then 0x90 else 0x80, if b = 0xF4 then 0x8F else 0xBF⟩)
  else ([0xFFFD], none)

def utf8Next (p : Utf8Pending) (b : ℕ) : JSString × Option Utf8Pending :=
  if p.lower ≤ b ∧ b ≤ p.upper then
    let codePoint := p.codePoint * 0x40 + (b - 0x80)
    if p.needed = 1 then (JSString.utf16 codePoint, none)
    else ([], some ⟨codePoint, p.needed - 1, 0x80, 0xBF⟩)
  else (0xFFFD :: (utf8First b).1, (utf8First b).2)

def decodeUtf8From : Option Utf8Pending → List ℕ → JSString
  | none, [] => []
  | some _, [] => [0xFFFD]
  | none, b :: rest => (utf8First b).1 ++ decodeUtf8From (utf8First b).2 rest
  | some p, b :: rest => (utf8Next p b).1 ++ decodeUtf8From (utf8Next p b).2 rest

/-- The decoding of a `TextDecoder` that keeps a byte order mark. -/
def decodeUtf8 (bytes : List ℕ) : JSString := decodeUtf8From none bytes

theorem utf8Next_last (c : ℕ) :
    utf8Next ⟨c / 0x40, 1, 0x80, 0xBF⟩ (0x80 + c % 0x40) = (JSString.utf16 c, none) := by
  have hcode : c / 0x40 * 0x40 + (0x80 + c % 0x40 - 0x80) = c := by omega
  simp only [utf8Next, if_true, hcode]
  rw [if_pos (by omega)]

theorem utf8Next_more {x y needed lower upper : ℕ} (hneeded : needed ≠ 1)
    (hlower : lower ≤ 0x80 + y) (hupper : 0x80 + y ≤ upper) :
    utf8Next ⟨x, needed, lower, upper⟩ (0x80 + y) =
      ([], some ⟨x * 0x40 + y, needed - 1, 0x80, 0xBF⟩) := by
  simp only [utf8Next, if_neg hneeded, Nat.add_sub_cancel_left]
  rw [if_pos ⟨hlower, hupper⟩]

theorem utf8First_two {x : ℕ} (hx : 2 ≤ x ∧ x < 0x20) :
    utf8First (0xC0 + x) = ([], some ⟨x, 1, 0x80, 0xBF⟩) := by
  rw [utf8First, if_neg (by omega), if_pos (by omega), Nat.add_sub_cancel_left]

theorem utf8First_three {x : ℕ} (hx : x < 0x10) : utf8First (0xE0 + x) =
    ([], some ⟨x, 2, if x = 0 then 0xA0 else 0x80, if x = 0xD then 0x9F else 0xBF⟩) := by
  have hlower : 0xE0 + x = 0xE0 ↔ x = 0 := by omega
  have hupper : 0xE0 + x = 0xED ↔ x = 0xD := by omega
  rw [utf8First, if_neg (by omega), if_neg (by omega), if_pos (by omega), Nat.add_sub_cancel_left]
  simp only [hlower, hupper]

theorem utf8First_four {x : ℕ} (hx : x < 5) : utf8First (0xF0 + x) =
    ([], some ⟨x, 3, if x = 0 then 0x90 else 0x80, if x = 4 then 0x8F else 0xBF⟩) := by
  have hlower : 0xF0 + x = 0xF0 ↔ x = 0 := by omega
  have hupper : 0xF0 + x = 0xF4 ↔ x = 4 := by omega
  rw [utf8First, if_neg (by omega), if_neg (by omega), if_neg (by omega), if_pos (by omega),
    Nat.add_sub_cancel_left]
  simp only [hlower, hupper]

theorem decodeUtf8_utf8 {c : ℕ} (h : IsScalar c) (rest : List ℕ) :
    decodeUtf8 (utf8 c ++ rest) = JSString.utf16 c ++ decodeUtf8 rest := by
  unfold IsScalar at h
  unfold utf8
  split_ifs with h₁ h₂ h₃
  · simp [decodeUtf8, decodeUtf8From, utf8First, h₁, JSString.utf16,
      show c < 0x10000 by omega]
  · simp only [decodeUtf8, List.cons_append, List.nil_append, decodeUtf8From,
      utf8First_two (show 2 ≤ c / 0x40 ∧ c / 0x40 < 0x20 by omega), utf8Next_last]
  · have hsecond : utf8Next ⟨c / 0x1000, 2, if c / 0x1000 = 0 then 0xA0 else 0x80,
        if c / 0x1000 = 0xD then 0x9F else 0xBF⟩ (0x80 + c / 0x40 % 0x40) =
        ([], some ⟨c / 0x40, 1, 0x80, 0xBF⟩) := by
      rw [utf8Next_more (by omega) (by split_ifs <;> omega) (by split_ifs <;> omega),
        show c / 0x1000 * 0x40 + c / 0x40 % 0x40 = c / 0x40 by omega]
    simp only [decodeUtf8, List.cons_append, List.nil_append, decodeUtf8From,
      utf8First_three (show c / 0x1000 < 0x10 by omega), hsecond, utf8Next_last]
  · have hsecond : utf8Next ⟨c / 0x40000, 3, if c / 0x40000 = 0 then 0x90 else 0x80,
        if c / 0x40000 = 4 then 0x8F else 0xBF⟩ (0x80 + c / 0x1000 % 0x40) =
        ([], some ⟨c / 0x1000, 2, 0x80, 0xBF⟩) := by
      rw [utf8Next_more (by omega) (by split_ifs <;> omega) (by split_ifs <;> omega),
        show c / 0x40000 * 0x40 + c / 0x1000 % 0x40 = c / 0x1000 by omega]
    have hthird : utf8Next ⟨c / 0x1000, 2, 0x80, 0xBF⟩ (0x80 + c / 0x40 % 0x40) =
        ([], some ⟨c / 0x40, 1, 0x80, 0xBF⟩) := by
      rw [utf8Next_more (by omega) (by omega) (by omega),
        show c / 0x1000 * 0x40 + c / 0x40 % 0x40 = c / 0x40 by omega]
    simp only [decodeUtf8, List.cons_append, List.nil_append, decodeUtf8From,
      utf8First_four (show c / 0x40000 < 5 by omega), hsecond, hthird, utf8Next_last]

theorem characters_utf16 {p : ℕ} (h : IsScalar p) (rest : JSString) :
    characters (JSString.utf16 p ++ rest) = JSString.utf16 p :: characters rest := by
  unfold IsScalar at h
  unfold JSString.utf16
  split_ifs with hp
  · cases rest with
    | nil => rfl
    | cons d rest =>
      have hlead : JSON.isLeadSurrogate p = false := by
        simp only [JSON.isLeadSurrogate, decide_eq_false_iff_not]
        omega
      simp [characters, hlead]
  · have hlead : JSON.isLeadSurrogate (0xD800 + (p - 0x10000) / 0x400) = true := by
      simp only [JSON.isLeadSurrogate, decide_eq_true_eq]
      omega
    have htrail : JSON.isTrailSurrogate (0xDC00 + (p - 0x10000) % 0x400) = true := by
      simp only [JSON.isTrailSurrogate, decide_eq_true_eq]
      omega
    simp only [List.cons_append, List.nil_append, characters, hlead, htrail, and_self, if_true]

theorem unitScalar_of_isScalar {c : ℕ} (h : IsScalar c) : unitScalar c = c := by
  rw [unitScalar, if_pos h]

theorem pairScalar_surrogates (x : ℕ) :
    pairScalar (0xD800 + x / 0x400) (0xDC00 + x % 0x400) = 0x10000 + x := by
  unfold pairScalar
  rw [Nat.add_sub_cancel_left, Nat.add_sub_cancel_left, Nat.add_assoc, Nat.div_add_mod']

theorem scalarOf_utf16 {p : ℕ} (h : IsScalar p) : scalarOf (JSString.utf16 p) = p := by
  by_cases hp : p < 0x10000
  · rw [JSString.utf16, if_pos hp, scalarOf]
    exact unitScalar_of_isScalar h
  · rw [JSString.utf16, if_neg hp]
    exact (pairScalar_surrogates _).trans (Nat.add_sub_cancel' (not_lt.mp hp))

theorem encodeUtf8_utf16 {p : ℕ} (h : IsScalar p) (rest : JSString) :
    encodeUtf8 (JSString.utf16 p ++ rest) = utf8 p ++ encodeUtf8 rest := by
  rw [encodeUtf8, characters_utf16 h, List.flatMap_cons, scalarOf_utf16 h]
  rfl

theorem decodeUtf8_encodeUtf8 {s : JSString} (h : WellFormed s) : decodeUtf8 (encodeUtf8 s) = s := by
  obtain ⟨ps, hps⟩ := Option.isSome_iff_exists.mp h
  obtain ⟨rfl, hs⟩ := codePoints_scalar_units hps
  clear h hps
  induction ps with
  | nil => rfl
  | cons p ps ih =>
    obtain ⟨hp, hps⟩ := List.forall_mem_cons.mp hs
    rw [List.flatMap_cons, encodeUtf8_utf16 hp, decodeUtf8_utf8 hp, ih hps]

theorem codePoints_pair {u v : ℕ} (hu : 0xD800 ≤ u ∧ u < 0xDC00) (hv : 0xDC00 ≤ v ∧ v < 0xE000)
    (rest : JSString) :
    codePoints (u :: v :: rest) = (codePoints rest).map (pairScalar u v :: ·) := by
  have hlead : ¬ (u < 0x10000 ∧ IsScalar u) := by
    unfold IsScalar
    omega
  have hpair : 0xD800 ≤ u ∧ u < 0xDC00 ∧ 0xDC00 ≤ v ∧ v < 0xE000 := by omega
  rw [codePoints, if_neg hlead]
  exact if_pos hpair

theorem codePoints_utf16 {p : ℕ} (h : IsScalar p) (rest : JSString) :
    codePoints (JSString.utf16 p ++ rest) = (codePoints rest).map (p :: ·) := by
  by_cases hp : p < 0x10000
  · rw [JSString.utf16, if_pos hp]
    exact codePoints_scalar ⟨hp, h⟩ rest
  · have hpair := (pairScalar_surrogates (p - 0x10000)).trans (Nat.add_sub_cancel' (not_lt.mp hp))
    unfold IsScalar at h
    rw [JSString.utf16, if_neg hp]
    exact (codePoints_pair (by omega) (by omega) rest).trans (by rw [hpair])

theorem wellFormed_utf16 {ps : List ℕ} (h : ∀ p ∈ ps, IsScalar p) :
    WellFormed (ps.flatMap JSString.utf16) := by
  induction ps with
  | nil => rfl
  | cons p ps ih =>
    obtain ⟨hp, hps⟩ := List.forall_mem_cons.mp h
    rw [WellFormed, List.flatMap_cons, codePoints_utf16 hp, Option.isSome_map]
    exact ih hps

theorem WellFormed.append {s t : JSString} (hs : WellFormed s) (ht : WellFormed t) :
    WellFormed (s ++ t) := by
  obtain ⟨ps, hps⟩ := Option.isSome_iff_exists.mp hs
  obtain ⟨qs, hqs⟩ := Option.isSome_iff_exists.mp ht
  obtain ⟨rfl, hp⟩ := codePoints_scalar_units hps
  obtain ⟨rfl, hq⟩ := codePoints_scalar_units hqs
  rw [← List.flatMap_append]
  exact wellFormed_utf16 (List.forall_mem_append.mpr ⟨hp, hq⟩)

theorem wellFormed_scalar {c : ℕ} (hlt : c < 0x10000) (h : IsScalar c) : WellFormed [c] := by
  have hunits : [c].flatMap JSString.utf16 = [c] := by
    rw [List.flatMap_singleton, JSString.utf16, if_pos hlt]
  rw [← hunits]
  exact wellFormed_utf16 fun p hp => List.mem_singleton.mp hp ▸ h

theorem wellFormed_ascii {s : JSString} (h : ∀ c ∈ s, c < 0x80) : WellFormed s := by
  induction s with
  | nil => rfl
  | cons c s ih =>
    obtain ⟨hc, hs⟩ := List.forall_mem_cons.mp h
    exact (wellFormed_scalar (by omega) (Or.inl (by omega))).append (ih hs)

theorem decodeUtf8_ascii {bytes : List ℕ} (h : ∀ b ∈ bytes, b < 0x80) : decodeUtf8 bytes = bytes := by
  induction bytes with
  | nil => rfl
  | cons b bytes ih =>
    obtain ⟨hb, hbytes⟩ := List.forall_mem_cons.mp h
    have hrest : decodeUtf8From none bytes = bytes := ih hbytes
    simp [decodeUtf8, decodeUtf8From, utf8First, hb, hrest]

theorem mem_encodeUtf8_ascii_iff {s : JSString} (h : WellFormed s) {b : ℕ} (hb : b < 0x80) :
    b ∈ encodeUtf8 s ↔ b ∈ s := by
  obtain ⟨ps, hps⟩ := Option.isSome_iff_exists.mp h
  obtain ⟨rfl, hs⟩ := codePoints_scalar_units hps
  clear h hps
  induction ps with
  | nil => simp [encodeUtf8, characters]
  | cons p ps ih =>
    obtain ⟨hp, hps⟩ := List.forall_mem_cons.mp hs
    have hmem : b ∈ utf8 p ↔ b ∈ JSString.utf16 p := by
      unfold IsScalar at hp
      unfold utf8 JSString.utf16
      split_ifs <;> simp only [List.mem_cons, List.not_mem_nil, or_false] <;> omega
    rw [List.flatMap_cons, encodeUtf8_utf16 hp, List.mem_append, List.mem_append, ih hps, hmem]

end Nifra
