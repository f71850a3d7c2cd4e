import Nifra.Text.JSONValue
import Nifra.Text.Utf8

/-! # JSON texts in UTF-8

A printed value has no lone surrogates: `TextEncoder` writes it without loss, and a fatal
`TextDecoder` reads it back.
-/

namespace Nifra

/-- A fatal `TextDecoder`, without the byte order mark. Octets are UTF-8 when the text that is read
from them is written as them. -/
def decodeUtf8Fatal (bytes : List ℕ) : Option JSString :=
  let text := decodeUtf8 bytes
  if encodeUtf8 text = bytes then some (if text.head? = some 0xFEFF then text.tail else text)
  else none

theorem decodeUtf8Fatal_encodeUtf8 {s : JSString} (h : WellFormed s)
    (hmark : s.head? ≠ some 0xFEFF) : decodeUtf8Fatal (encodeUtf8 s) = some s := by
  simp only [decodeUtf8Fatal, decodeUtf8_encodeUtf8 h, if_true, if_neg hmark]

theorem encodeUtf8_lt (s : JSString) : ∀ b ∈ encodeUtf8 s, b < 256 := by
  have hunit (c : ℕ) : IsScalar (unitScalar c) := by
    unfold unitScalar
    split
    · next h => exact h
    · exact Or.inr (by decide)
  unfold encodeUtf8
  induction s using characters.induct with
  | case1 => exact nofun
  | case2 c =>
    simp only [characters, List.flatMap_cons, List.flatMap_nil, List.append_nil, scalarOf]
    exact utf8_lt (hunit c)
  | case3 c d rest hpair ih =>
    rw [characters, if_pos hpair, List.flatMap_cons, List.forall_mem_append]
    refine ⟨utf8_lt ?_, ih⟩
    simp only [JSON.isLeadSurrogate, JSON.isTrailSurrogate, decide_eq_true_eq] at hpair
    change IsScalar (pairScalar c d)
    unfold pairScalar IsScalar
    omega
  | case4 c d rest hpair ih =>
    rw [characters, if_neg hpair, List.flatMap_cons, List.forall_mem_append]
    exact ⟨utf8_lt (hunit c), ih⟩

namespace JSON

theorem hexDigit_lt {d : ℕ} (h : d < 16) : hexDigit d < 0x80 := by
  unfold hexDigit
  split_ifs <;> omega

theorem wellFormed_unicodeEscape (c : ℕ) : WellFormed (unicodeEscape c) := by
  refine wellFormed_ascii fun u hu => ?_
  have hdigit (n : ℕ) : hexDigit (n % 16) < 0x80 := hexDigit_lt (Nat.mod_lt _ (by omega))
  simp only [unicodeEscape, List.mem_cons, List.not_mem_nil, or_false] at hu
  rcases hu with rfl | rfl | rfl | rfl | rfl | rfl
  · omega
  · omega
  all_goals exact hdigit _

theorem wellFormed_escapeAlone {c : ℕ} (h : c < 0x10000) : WellFormed (escapeAlone c) := by
  unfold escapeAlone
  split
  · exact wellFormed_unicodeEscape c
  · rename_i hsurrogate
    unfold escapeUnit
    split
    · rename_i e he
      obtain ⟨l₁, l₂, heq, -⟩ := List.lookup_eq_some_iff.mp he
      have hmem : (c, e) ∈ escapes := heq ▸ List.mem_append_right _ List.mem_cons_self
      refine wellFormed_ascii fun u hu => ?_
      simp only [escapes, List.mem_cons, Prod.mk.injEq, List.not_mem_nil, or_false] at hmem
      simp only [List.mem_cons, List.not_mem_nil, or_false] at hu
      omega
    · split
      · exact wellFormed_unicodeEscape c
      · refine wellFormed_scalar h ?_
        simp only [isLeadSurrogate, isTrailSurrogate, decide_eq_true_eq] at hsurrogate
        unfold IsScalar
        omega

theorem wellFormed_escape {s : JSString} (h : ∀ c ∈ s, c < 0x10000) : WellFormed (escape s) := by
  induction s using escape.induct with
  | case1 => rfl
  | case2 c => exact wellFormed_escapeAlone (h c List.mem_cons_self)
  | case3 c d rest hpair ih =>
    rw [escape, if_pos hpair]
    have hrest := ih fun u hu => h u (List.mem_cons_of_mem _ (List.mem_cons_of_mem _ hu))
    simp only [isLeadSurrogate, isTrailSurrogate, decide_eq_true_eq] at hpair
    have hunits : [pairScalar c d].flatMap JSString.utf16 = [c, d] := by
      have hge : ¬ pairScalar c d < 0x10000 := by
        unfold pairScalar
        omega
      have hsum : pairScalar c d - 0x10000 = (c - 0xD800) * 0x400 + (d - 0xDC00) := by
        unfold pairScalar
        omega
      have hlead : 0xD800 + ((c - 0xD800) * 0x400 + (d - 0xDC00)) / 0x400 = c := by omega
      have htrail : 0xDC00 + ((c - 0xD800) * 0x400 + (d - 0xDC00)) % 0x400 = d := by omega
      rw [List.flatMap_singleton, JSString.utf16, if_neg hge, hsum, hlead, htrail]
    have hwell : WellFormed [c, d] := by
      rw [← hunits]
      refine wellFormed_utf16 fun p hp => ?_
      rw [List.mem_singleton.mp hp]
      unfold IsScalar pairScalar
      omega
    exact hwell.append hrest
  | case4 c d rest hpair ih =>
    rw [escape, if_neg hpair]
    exact (wellFormed_escapeAlone (h c List.mem_cons_self)).append
      (ih fun u hu => h u (List.mem_cons_of_mem _ hu))

theorem wellFormed_ofString {s : JSString} (h : ∀ c ∈ s, c < 0x10000) :
    WellFormed (ofString s) := by
  have hquote : WellFormed [34] := rfl
  exact (hquote.append (wellFormed_escape h)).append hquote

mutual

/-- The strings of a value, names included, and the texts of its numbers. -/
def Value.texts : Value → List JSString
  | .null | .bool _ => []
  | .number text => [text]
  | .string s => [s]
  | .array items => Value.textsOfItems items
  | .object fields => Value.textsOfFields fields

def Value.textsOfItems : List Value → List JSString
  | [] => []
  | item :: items => item.texts ++ Value.textsOfItems items

def Value.textsOfFields : List (JSString × Value) → List JSString
  | [] => []
  | (name, value) :: fields => name :: value.texts ++ Value.textsOfFields fields

end

def Units (texts : List JSString) : Prop := ∀ text ∈ texts, ∀ c ∈ text, c < 0x10000

theorem units_append {texts others : List JSString} :
    Units (texts ++ others) ↔ Units texts ∧ Units others := List.forall_mem_append

/-- What the texts of numbers are made of: a sign, a point, a digit or an exponent's letter. -/
def isNumeralUnit (c : ℕ) : Bool := (js "+-.eE").contains c || isDigit c

theorem isNumeralUnit_iff {c : ℕ} : isNumeralUnit c ↔
    c = 43 ∨ c = 45 ∨ c = 46 ∨ c = 101 ∨ c = 69 ∨ 48 ≤ c ∧ c < 58 := by
  have hunits : js "+-.eE" = [43, 45, 46, 101, 69] := rfl
  simp [isNumeralUnit, isDigit, hunits, or_assoc]

theorem of_span (p : ℕ → Bool) (s : JSString) :
    s = (s.span p).1 ++ (s.span p).2 ∧ ∀ c ∈ (s.span p).1, p c := by
  rw [List.span_eq_takeWhile_dropWhile]
  exact ⟨(List.takeWhile_append_dropWhile).symm, fun c hc => List.mem_takeWhile_imp hc⟩

theorem readInteger_units {s integer left : JSString} (h : readInteger s = some (integer, left)) :
    ∃ front, s = front ++ left ∧ ∀ c ∈ front, isNumeralUnit c := by
  cases s with
  | nil => cases h
  | cons c rest =>
    rw [readInteger] at h
    split_ifs at h with hzero hdigit
    · obtain ⟨rfl, rfl⟩ := Prod.mk.inj (Option.some.inj h)
      exact ⟨[c], rfl, by simp [isNumeralUnit_iff, hzero]⟩
    · obtain ⟨hs, hfront⟩ := of_span isDigit (c :: rest)
      rw [Option.some.inj h] at hs hfront
      exact ⟨integer, hs, fun c hc => by simp [isNumeralUnit, hfront c hc]⟩

theorem readFraction_units {s fraction left : JSString}
    (h : readFraction s = some (fraction, left)) :
    ∃ front, s = front ++ left ∧ ∀ c ∈ front, isNumeralUnit c := by
  unfold readFraction at h
  split at h
  · rename_i rest
    obtain ⟨hs, hfront⟩ := of_span isDigit rest
    dsimp only at h
    split_ifs at h
    obtain ⟨rfl, rfl⟩ := Prod.mk.inj (Option.some.inj h)
    refine ⟨46 :: (rest.span isDigit).1, by rw [List.cons_append, ← hs], ?_⟩
    rintro c (_ | ⟨_, hc⟩)
    · rfl
    · simp [isNumeralUnit, hfront c hc]
  · obtain ⟨rfl, rfl⟩ := Prod.mk.inj (Option.some.inj h)
    exact ⟨[], rfl, nofun⟩

theorem readSign_units (s : JSString) :
    ∃ front, s = front ++ (readSign s).2 ∧ ∀ c ∈ front, isNumeralUnit c := by
  unfold readSign
  split
  · exact ⟨[43], rfl, by simp [isNumeralUnit_iff]⟩
  · exact ⟨[45], rfl, by simp [isNumeralUnit_iff]⟩
  · exact ⟨[], rfl, nofun⟩

theorem readExponent_units {s left : JSString} {exponent : ℤ}
    (h : readExponent s = some (exponent, left)) :
    ∃ front, s = front ++ left ∧ ∀ c ∈ front, isNumeralUnit c := by
  cases s with
  | nil =>
    obtain ⟨-, rfl⟩ := Prod.mk.inj (Option.some.inj h)
    exact ⟨[], rfl, nofun⟩
  | cons c rest =>
    rw [readExponent] at h
    split_ifs at h with hletter
    · obtain ⟨sign, hrest, hsign⟩ := readSign_units rest
      obtain ⟨hs, hfront⟩ := of_span isDigit (readSign rest).2
      dsimp only at h
      split at h
      · cases h
      · obtain ⟨-, rfl⟩ := Prod.mk.inj (Option.some.inj h)
        refine ⟨c :: (sign ++ ((readSign rest).2.span isDigit).1), ?_, ?_⟩
        · rw [List.cons_append, List.append_assoc, ← hs, ← hrest]
        · intro d hd
          rcases List.mem_cons.mp hd with rfl | hd
          · exact isNumeralUnit_iff.mpr (by omega)
          · rcases List.mem_append.mp hd with hd | hd
            · exact hsign d hd
            · simp [isNumeralUnit, hfront d hd]
    · obtain ⟨-, rfl⟩ := Prod.mk.inj (Option.some.inj h)
      exact ⟨[], rfl, nofun⟩

theorem IsNumeral.units {text : JSString} (h : IsNumeral text) : ∀ c ∈ text, isNumeralUnit c := by
  obtain ⟨numeral, h⟩ := h
  obtain ⟨negative, digits, integer, tail, fraction, tail', exponent, hsign, hinteger, hfraction,
    hexponent, -⟩ := readNumeral_eq_some_iff.mp h
  obtain ⟨front₁, rfl, hfront₁⟩ := readInteger_units hinteger
  obtain ⟨front₂, rfl, hfront₂⟩ := readFraction_units hfraction
  obtain ⟨front₃, rfl, hfront₃⟩ := readExponent_units hexponent
  have hdigits : ∀ c ∈ front₁ ++ (front₂ ++ (front₃ ++ [])), isNumeralUnit c := by
    intro c hc
    simp only [List.mem_append, List.not_mem_nil, or_false] at hc
    rcases hc with hc | hc | hc
    · exact hfront₁ c hc
    · exact hfront₂ c hc
    · exact hfront₃ c hc
  split_ifs at hsign with hminus
  · obtain ⟨-, htail⟩ := Prod.mk.inj hsign
    cases text with
    | nil => cases hminus
    | cons d text =>
      intro c hc
      rcases List.mem_cons.mp hc with rfl | hc
      · exact isNumeralUnit_iff.mpr (by have := Option.some.inj hminus; omega)
      · rw [List.tail_cons] at htail
        exact hdigits c (htail ▸ hc)
  · obtain ⟨-, rfl⟩ := Prod.mk.inj hsign
    exact hdigits

theorem IsNumeral.wellFormed {text : JSString} (h : IsNumeral text) : WellFormed text := by
  refine wellFormed_ascii fun c hc => ?_
  have hunit := isNumeralUnit_iff.mp (h.units c hc)
  omega

mutual

theorem wellFormed_stringify {v : Value} (h : Printed v) (hunits : Units v.texts) :
    WellFormed v.stringify := by
  match h with
  | .null => rfl
  | .bool true => rfl
  | .bool false => rfl
  | .number hnumeral => exact hnumeral.wellFormed
  | .string s => exact wellFormed_ofString (hunits s (List.mem_singleton_self s))
  | .array .nil => rfl
  | .array (@PrintedItems.cons item items h hs) =>
    obtain ⟨hitem, hitems⟩ := units_append.mp hunits
    have hopen : WellFormed (js "[") := rfl
    exact (hopen.append (wellFormed_stringify h hitem)).append (wellFormed_stringifyItems hs hitems)
  | .object .nil _ => rfl
  | .object (@PrintedFields.cons name value fields h hs) _ =>
    obtain ⟨hname, hrest⟩ := List.forall_mem_cons.mp hunits
    obtain ⟨hvalue, hfields⟩ := units_append.mp hrest
    have hopen : WellFormed (js "\x7b") := rfl
    have hcolon : WellFormed (js ":") := rfl
    exact (((hopen.append (wellFormed_ofString hname)).append hcolon).append
      (wellFormed_stringify h hvalue)).append (wellFormed_stringifyFields hs hfields)

theorem wellFormed_stringifyItems {items : List Value} (h : PrintedItems items)
    (hunits : Units (Value.textsOfItems items)) : WellFormed (Value.stringifyItems items) := by
  match h with
  | .nil => rfl
  | @PrintedItems.cons item items h hs =>
    obtain ⟨hitem, hitems⟩ := units_append.mp hunits
    have hcomma : WellFormed (js ",") := rfl
    exact (hcomma.append (wellFormed_stringify h hitem)).append
      (wellFormed_stringifyItems hs hitems)

theorem wellFormed_stringifyFields {fields : List (JSString × Value)} (h : PrintedFields fields)
    (hunits : Units (Value.textsOfFields fields)) : WellFormed (Value.stringifyFields fields) := by
  match h with
  | .nil => rfl
  | @PrintedFields.cons name value fields h hs =>
    obtain ⟨hname, hrest⟩ := List.forall_mem_cons.mp hunits
    obtain ⟨hvalue, hfields⟩ := units_append.mp hrest
    have hcomma : WellFormed (js ",") := rfl
    have hcolon : WellFormed (js ":") := rfl
    exact (((hcomma.append (wellFormed_ofString hname)).append hcolon).append
      (wellFormed_stringify h hvalue)).append (wellFormed_stringifyFields hs hfields)

end

theorem le_of_mem_escape {s : JSString} {c : ℕ} (h : c ∈ escape s) : 32 ≤ c := by
  obtain ⟨ws, hws, heq⟩ := exists_spells s
  rw [← heq] at h
  clear heq
  induction hws with
  | nil => cases h
  | cons hspells _ ih =>
    rw [List.flatten_cons, List.mem_append] at h
    rcases h with h | h
    · cases hspells with
      | raw _ _ hcontrol => rwa [List.mem_singleton.mp h]
      | short hmem =>
        simp only [escapes, List.mem_cons, Prod.mk.injEq, List.not_mem_nil, or_false] at hmem h
        omega
      | unicode _ =>
        have hdigit (d : ℕ) : 32 ≤ hexDigit d := by
          unfold hexDigit
          split_ifs <;> omega
        simp only [unicodeEscape, List.mem_cons, List.not_mem_nil, or_false] at h
        rcases h with rfl | rfl | rfl | rfl | rfl | rfl
        · decide
        · decide
        all_goals exact hdigit _
    · exact ih h

theorem le_of_mem_ofString {s : JSString} {c : ℕ} (h : c ∈ ofString s) : 32 ≤ c := by
  simp only [ofString, List.cons_append, List.mem_cons, List.mem_append, List.not_mem_nil,
    or_false] at h
  rcases h with rfl | h | rfl
  · decide
  · exact le_of_mem_escape h
  · decide

mutual

theorem Printed.le_of_mem {v : Value} (h : Printed v) {c : ℕ} (hc : c ∈ v.stringify) : 32 ≤ c := by
  match h with
  | .null => exact (by decide : ∀ d ∈ js "null", 32 ≤ d) c hc
  | .bool true => exact (by decide : ∀ d ∈ js "true", 32 ≤ d) c hc
  | .bool false => exact (by decide : ∀ d ∈ js "false", 32 ≤ d) c hc
  | .number h =>
    have := isNumeralUnit_iff.mp (h.units c hc)
    omega
  | .string s => exact le_of_mem_ofString hc
  | .array .nil => exact (by decide : ∀ d ∈ js "[]", 32 ≤ d) c hc
  | .array (.cons h hs) =>
    rw [Value.stringify, List.mem_append, List.mem_append] at hc
    rcases hc with (hc | hc) | hc
    · exact (by decide : ∀ d ∈ js "[", 32 ≤ d) c hc
    · exact h.le_of_mem hc
    · exact hs.le_of_mem hc
  | .object .nil _ => exact (by decide : ∀ d ∈ js "\x7b\x7d", 32 ≤ d) c hc
  | .object (.cons h hs) _ =>
    rw [Value.stringify] at hc
    simp only [List.mem_append] at hc
    rcases hc with (((hc | hc) | hc) | hc) | hc
    · exact (by decide : ∀ d ∈ js "\x7b", 32 ≤ d) c hc
    · exact le_of_mem_ofString hc
    · exact (by decide : ∀ d ∈ js ":", 32 ≤ d) c hc
    · exact h.le_of_mem hc
    · exact hs.le_of_mem hc

theorem PrintedItems.le_of_mem {items : List Value} (h : PrintedItems items) {c : ℕ}
    (hc : c ∈ Value.stringifyItems items) : 32 ≤ c := by
  match h with
  | .nil => exact (by decide : ∀ d ∈ js "]", 32 ≤ d) c hc
  | .cons h hs =>
    rw [Value.stringifyItems, List.mem_append, List.mem_append] at hc
    rcases hc with (hc | hc) | hc
    · exact (by decide : ∀ d ∈ js ",", 32 ≤ d) c hc
    · exact h.le_of_mem hc
    · exact hs.le_of_mem hc

theorem PrintedFields.le_of_mem {fields : List (JSString × Value)} (h : PrintedFields fields)
    {c : ℕ} (hc : c ∈ Value.stringifyFields fields) : 32 ≤ c := by
  match h with
  | .nil => exact (by decide : ∀ d ∈ js "\x7d", 32 ≤ d) c hc
  | .cons h hs =>
    rw [Value.stringifyFields] at hc
    simp only [List.mem_append] at hc
    rcases hc with (((hc | hc) | hc) | hc) | hc
    · exact (by decide : ∀ d ∈ js ",", 32 ≤ d) c hc
    · exact le_of_mem_ofString hc
    · exact (by decide : ∀ d ∈ js ":", 32 ≤ d) c hc
    · exact h.le_of_mem hc
    · exact hs.le_of_mem hc

end

end JSON

end Nifra
