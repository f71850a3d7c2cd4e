import Nifra.Lib.Split
import Nifra.Middleware.IpAddress

/-! # Texts of IP addresses

The text forms of an address, and what the parsers make of them: every form of an address is
read as the same value.
-/

namespace Nifra.Ip

structure IsOctet (text : JSString) (value : ℕ) : Prop where
  length : 1 ≤ text.length ∧ text.length ≤ 3
  digits : ∀ c ∈ text, JSON.isDigit c = true
  value_eq : value = JSON.natOfDigits text
  le : value ≤ 255

structure SpellsQuad (text : JSString) (n : ℕ) (texts : List JSString) (octets : List ℕ) : Prop where
  spelled : List.Forall₂ IsOctet texts octets
  length : octets.length = 4
  text : text = [46].intercalate texts
  value : n = positional 256 octets

def IsQuad (text : JSString) (n : ℕ) : Prop := ∃ texts octets, SpellsQuad text n texts octets

structure IsGroup (text : JSString) (value : ℕ) : Prop where
  length : 1 ≤ text.length ∧ text.length ≤ 4
  digits : ∀ c ∈ text, (hexValue c).isSome = true
  value_eq : value = parseHex text

inductive Parts : List JSString → List ℕ → Prop
  | groups {texts : List JSString} {values : List ℕ} (h : List.Forall₂ IsGroup texts values) :
      Parts texts values
  | quad {texts : List JSString} {values : List ℕ} {quad : JSString} {n : ℕ}
      (h : List.Forall₂ IsGroup texts values) (hquad : IsQuad quad n) :
      Parts (texts ++ [quad]) (values ++ [n / 65536, n % 65536])

/-- Eight groups, or fewer with `::` for the zeros between them. -/
inductive SpellsGroups : JSString → List ℕ → Prop
  | full {texts : List JSString} {values : List ℕ} (h : Parts texts values)
      (hlength : values.length = 8) : SpellsGroups ([58].intercalate texts) values
  | compressed {left right : List JSString} {leftValues rightValues : List ℕ}
      (hleft : List.Forall₂ IsGroup left leftValues) (hright : Parts right rightValues)
      (hlength : leftValues.length + rightValues.length ≤ 7) :
      SpellsGroups ([58].intercalate left ++ [58, 58] ++ [58].intercalate right)
        (leftValues ++ List.replicate (8 - (leftValues.length + rightValues.length)) 0 ++ rightValues)

theorem isOctetText_iff {text : JSString} : isOctetText text = true ↔
    (1 ≤ text.length ∧ text.length ≤ 3) ∧ ∀ c ∈ text, JSON.isDigit c = true := by
  rw [isOctetText, Bool.and_eq_true, decide_eq_true_eq, List.all_eq_true]

theorem parseOctets_iff {parts : List JSString} {out n : ℕ} : parseOctets parts out = some n ↔
    ∃ octets, List.Forall₂ IsOctet parts octets ∧
      n = octets.foldl (fun out octet => out <<< 8 ||| octet) out := by
  induction parts generalizing out with
  | nil =>
    simp only [parseOctets, List.forall₂_nil_left_iff]
    constructor
    · rintro h
      exact ⟨[], rfl, (Option.some.inj h).symm⟩
    · rintro ⟨octets, rfl, rfl⟩
      rfl
  | cons part parts ih =>
    rw [parseOctets]
    by_cases htext : isOctetText part
    · obtain ⟨hlength, hdigits⟩ := isOctetText_iff.mp htext
      rw [if_pos htext]
      by_cases hlarge : 255 < JSON.natOfDigits part
      · simp only [if_pos hlarge, reduceCtorEq, false_iff]
        rintro ⟨octets, h, -⟩
        cases h with
        | cons hoctet h =>
          have hle := hoctet.le
          rw [hoctet.value_eq] at hle
          omega
      · simp only [if_neg hlarge, ih]
        constructor
        · rintro ⟨octets, h, rfl⟩
          exact ⟨_, .cons ⟨hlength, hdigits, rfl, by omega⟩ h, rfl⟩
        · rintro ⟨octets, h, rfl⟩
          cases h with
          | cons hoctet h => exact ⟨_, h, by rw [← hoctet.value_eq, List.foldl_cons]⟩
    · simp only [if_neg htext, reduceCtorEq, false_iff]
      rintro ⟨octets, h, -⟩
      cases h with
      | cons hoctet h => exact htext (isOctetText_iff.mpr ⟨hoctet.length, hoctet.digits⟩)

theorem lt_of_isOctets {texts : List JSString} {octets : List ℕ}
    (h : List.Forall₂ IsOctet texts octets) : ∀ octet ∈ octets, octet < 2 ^ 8 := by
  induction h with
  | nil => exact fun _ hmem => nomatch hmem
  | cons hoctet h ih =>
    have := hoctet.le
    exact List.forall_mem_cons.mpr ⟨by omega, ih⟩

theorem digits_of_isOctets {texts : List JSString} {octets : List ℕ}
    (h : List.Forall₂ IsOctet texts octets) :
    ∀ text ∈ texts, ∀ c ∈ text, JSON.isDigit c = true := by
  induction h with
  | nil => exact fun _ hmem => nomatch hmem
  | cons hoctet h ih => exact List.forall_mem_cons.mpr ⟨hoctet.digits, ih⟩

theorem parseIPv4_iff {input : JSString} {n : ℕ} : parseIPv4 input = some n ↔ IsQuad input n := by
  unfold parseIPv4
  constructor
  · rintro h
    by_cases hlength : (input.splitOn 46).length ≠ 4
    · simp [hlength] at h
    · simp only [if_neg hlength] at h
      obtain ⟨octets, hoctets, rfl⟩ := parseOctets_iff.mp h
      refine ⟨_, octets, hoctets, hoctets.length_eq ▸ not_not.mp hlength, ?_, ?_⟩
      · exact (List.intercalate_splitOn 46).symm
      · exact foldl_shiftLeft_or (lt_of_isOctets hoctets)
  · rintro ⟨texts, octets, hoctets, hlength, rfl, rfl⟩
    have hdot : ∀ text ∈ texts, 46 ∉ text := fun text htext hmem =>
      absurd (digits_of_isOctets hoctets text htext 46 hmem) (by decide)
    have htexts : texts.length = 4 := hoctets.length_eq.trans hlength
    rw [List.splitOn_intercalate 46 hdot (by rintro rfl; cases htexts)]
    simp only [htexts, ne_eq, not_true_eq_false, if_false]
    exact parseOctets_iff.mpr ⟨octets, hoctets, (foldl_shiftLeft_or (lt_of_isOctets hoctets)).symm⟩

structure LowerGroup (text : JSString) (value : ℕ) : Prop where
  isText : isGroupText text = true
  value_eq : value = parseHex text

theorem isGroupText_iff {text : JSString} : isGroupText text = true ↔
    (1 ≤ text.length ∧ text.length ≤ 4) ∧
      ∀ c ∈ text, 48 ≤ c ∧ c ≤ 57 ∨ 97 ≤ c ∧ c ≤ 102 := by
  rw [isGroupText, Bool.and_eq_true, decide_eq_true_eq, List.all_eq_true]
  simp

theorem hexValue_lower {c : ℕ} (h : (hexValue c).isSome = true) :
    hexValue (if 65 ≤ c ∧ c ≤ 90 then c + 32 else c) = hexValue c ∧
      (48 ≤ (if 65 ≤ c ∧ c ≤ 90 then c + 32 else c) ∧ (if 65 ≤ c ∧ c ≤ 90 then c + 32 else c) ≤ 57 ∨
        97 ≤ (if 65 ≤ c ∧ c ≤ 90 then c + 32 else c) ∧
          (if 65 ≤ c ∧ c ≤ 90 then c + 32 else c) ≤ 102) := by
  have hall : ∀ c < 103, (hexValue c).isSome = true →
      hexValue (if 65 ≤ c ∧ c ≤ 90 then c + 32 else c) = hexValue c ∧
        (48 ≤ (if 65 ≤ c ∧ c ≤ 90 then c + 32 else c) ∧
          (if 65 ≤ c ∧ c ≤ 90 then c + 32 else c) ≤ 57 ∨
        97 ≤ (if 65 ≤ c ∧ c ≤ 90 then c + 32 else c) ∧
          (if 65 ≤ c ∧ c ≤ 90 then c + 32 else c) ≤ 102) := by
    decide
  have hlt : c < 103 := by
    unfold hexValue at h
    split_ifs at h
    · omega
    · omega
    · omega
    · cases h
  exact hall c hlt h

theorem hexValue_lt {c : ℕ} : (hexValue c).getD 0 < 16 := by
  unfold hexValue
  split_ifs <;> simp only [Option.getD_some, Option.getD_none] <;> omega

theorem parseHex_lt {text : JSString} (h : text.length ≤ 4) : parseHex text < 2 ^ 16 := by
  have hdigits : ∀ d ∈ text.map fun c => (hexValue c).getD 0, d < 16 := by
    rintro d hd
    obtain ⟨c, -, rfl⟩ := List.mem_map.mp hd
    exact hexValue_lt
  have hlt := positional_lt hdigits
  rw [List.length_map] at hlt
  calc parseHex text < 16 ^ text.length := hlt
    _ ≤ 16 ^ 4 := Nat.pow_le_pow_right (by decide) h
    _ = 2 ^ 16 := by decide

theorem IsGroup.lower {text : JSString} {value : ℕ} (h : IsGroup text value) :
    LowerGroup (toLowerCase text) value := by
  constructor
  · rw [isGroupText_iff, toLowerCase, List.length_map]
    refine ⟨h.length, ?_⟩
    rintro c hc
    obtain ⟨d, hd, rfl⟩ := List.mem_map.mp hc
    exact (hexValue_lower (h.digits d hd)).2
  · have hvalues : (toLowerCase text).map (fun c => (hexValue c).getD 0)
        = text.map fun c => (hexValue c).getD 0 := by
      unfold toLowerCase
      rw [List.map_map]
      apply List.map_congr_left
      rintro c hc
      rw [Function.comp_apply, (hexValue_lower (h.digits c hc)).1]
    rw [h.value_eq, parseHex, parseHex, hvalues]

theorem LowerGroup.lt {text : JSString} {value : ℕ} (h : LowerGroup text value) : value < 2 ^ 16 :=
  h.value_eq ▸ parseHex_lt (isGroupText_iff.mp h.isText).1.2

structure IsPiece (text : JSString) : Prop where
  ne_nil : text ≠ []
  no_colon : 58 ∉ text

theorem LowerGroup.piece {text : JSString} {value : ℕ} (h : LowerGroup text value) :
    IsPiece text := by
  obtain ⟨hlength, hchars⟩ := isGroupText_iff.mp h.isText
  constructor
  · rintro rfl
    exact absurd hlength.1 (by decide)
  · rintro hmem
    have := hchars 58 hmem
    omega

theorem parseHex_hexText (n : ℕ) : parseHex (hexText n) = n := by
  have hdigit : ∀ d < 16, hexValue (JSON.hexDigit d) = some d := by decide
  unfold hexText
  split_ifs with hzero
  · subst hzero
    decide
  · have hvalues : (Nat.digits 16 n).reverse.map
        ((fun c => (hexValue c).getD 0) ∘ JSON.hexDigit) = (Nat.digits 16 n).reverse := by
      refine (List.map_congr_left fun d hd => ?_).trans (List.map_id _)
      rw [Function.comp_apply,
        hdigit d (Nat.digits_lt_base (by decide) (List.mem_reverse.mp hd))]
      rfl
    rw [parseHex, List.map_map, hvalues, positional_digits]

theorem lowerGroup_hexText {n : ℕ} (h : n < 65536) : LowerGroup (hexText n) n := by
  have hdigit : ∀ d < 16, 48 ≤ JSON.hexDigit d ∧ JSON.hexDigit d ≤ 57 ∨
      97 ≤ JSON.hexDigit d ∧ JSON.hexDigit d ≤ 102 := by decide
  refine ⟨?_, (parseHex_hexText n).symm⟩
  unfold hexText
  split_ifs with hzero
  · decide
  · rw [isGroupText_iff, List.length_map, List.length_reverse]
    refine ⟨⟨?_, ?_⟩, ?_⟩
    · exact List.length_pos_iff.mpr (Nat.digits_ne_nil_iff_ne_zero.mpr hzero)
    · exact (Nat.digits_length_le_iff (by decide) n).mpr (by simpa using h)
    · rintro c hc
      obtain ⟨d, hd, rfl⟩ := List.mem_map.mp hc
      exact hdigit d (Nat.digits_lt_base (by decide) (List.mem_reverse.mp hd))

theorem splitCompressed_piece {piece : JSString} (h : 58 ∉ piece) (rest : JSString) :
    splitCompressed (piece ++ rest) = (splitCompressed rest).modifyHead (piece ++ ·) := by
  induction piece with
  | nil => cases hs : splitCompressed rest <;> simp [hs]
  | cons c piece ih =>
    have hc : c ≠ 58 := fun hc => h (by simp [hc])
    rw [List.cons_append, splitCompressed, ih (mt (List.mem_cons_of_mem c) h)]
    · cases splitCompressed rest <;> rfl
    · exact fun _ heq _ => hc heq

theorem splitCompressed_join {pieces : List JSString} (h : ∀ piece ∈ pieces, IsPiece piece)
    (rest : JSString) : splitCompressed ([58].intercalate pieces ++ rest)
      = (splitCompressed rest).modifyHead ([58].intercalate pieces ++ ·) := by
  induction pieces with
  | nil => cases hs : splitCompressed rest <;> simp [hs]
  | cons piece pieces ih =>
    obtain ⟨hpiece, hpieces⟩ := List.forall_mem_cons.mp h
    cases pieces with
    | nil =>
      rw [List.intercalate_singleton]
      exact splitCompressed_piece hpiece.no_colon rest
    | cons second pieces =>
      have hne : [58].intercalate (second :: pieces) ≠ [] :=
        List.intercalate_ne_nil (List.forall_mem_cons.mp hpieces).1.ne_nil
      obtain ⟨c, tail, htail⟩ := List.exists_cons_of_ne_nil hne
      have hc : c ≠ 58 := by
        rintro rfl
        have hsecond := (List.forall_mem_cons.mp hpieces).1
        obtain ⟨d, second', rfl⟩ := List.exists_cons_of_ne_nil hsecond.ne_nil
        obtain rfl : d = 58 := by
          cases pieces <;> simp at htail <;> exact htail.1
        exact hsecond.no_colon List.mem_cons_self
      have hcolon (x : JSString) : splitCompressed (58 :: c :: x)
          = (splitCompressed (c :: x)).modifyHead (58 :: ·) := by
        rw [splitCompressed]
        rintro x' _ heq
        exact hc (List.cons.inj heq).1
      have hrest := ih hpieces
      rw [List.intercalate_cons_cons, List.append_assoc, List.append_assoc,
        splitCompressed_piece hpiece.no_colon, List.singleton_append, htail, List.cons_append,
        hcolon, ← List.cons_append, ← htail, hrest]
      cases splitCompressed rest <;> simp

theorem groupsOf_join {pieces : List JSString} (h : ∀ piece ∈ pieces, IsPiece piece) :
    groupsOf ([58].intercalate pieces) = pieces := by
  unfold groupsOf
  cases pieces with
  | nil => rfl
  | cons piece pieces =>
    rw [if_neg (List.intercalate_ne_nil (h piece List.mem_cons_self).ne_nil),
      List.splitOn_intercalate 58 (fun q hq => (h q hq).no_colon) (List.cons_ne_nil _ _)]

section Lower

variable {texts left right : List JSString} {values leftValues rightValues : List ℕ}

theorem pieces_of_lower (h : List.Forall₂ LowerGroup texts values) :
    ∀ text ∈ texts, IsPiece text := by
  induction h with
  | nil => exact fun _ hmem => nomatch hmem
  | cons hgroup h ih => exact List.forall_mem_cons.mpr ⟨hgroup.piece, ih⟩

theorem all_isGroupText (h : List.Forall₂ LowerGroup texts values) :
    texts.all isGroupText = true := by
  induction h with
  | nil => rfl
  | cons hgroup h ih => rw [List.all_cons, hgroup.isText, ih, Bool.and_self]

theorem map_parseHex (h : List.Forall₂ LowerGroup texts values) : texts.map parseHex = values := by
  induction h with
  | nil => rfl
  | cons hgroup h ih => rw [List.map_cons, ← hgroup.value_eq, ih]

theorem lt_of_lower (h : List.Forall₂ LowerGroup texts values) :
    ∀ value ∈ values, value < 2 ^ 16 := by
  induction h with
  | nil => exact fun _ hmem => nomatch hmem
  | cons hgroup h ih => exact List.forall_mem_cons.mpr ⟨hgroup.lt, ih⟩

theorem parseGroups_full (h : List.Forall₂ LowerGroup texts values) (hlength : values.length = 8) :
    parseGroups ([58].intercalate texts) = some (positional 65536 values) := by
  have hpieces := pieces_of_lower h
  have hsplit : splitCompressed ([58].intercalate texts) = [[58].intercalate texts] := by
    have hjoin := splitCompressed_join hpieces []
    rw [List.append_nil] at hjoin
    rw [hjoin]
    simp [splitCompressed]
  have hfold : values.foldl (fun out group => out <<< 16 ||| group) 0 = positional 65536 values :=
    foldl_shiftLeft_or (lt_of_lower h)
  have hlength' : texts.length = 8 := h.length_eq.trans hlength
  unfold parseGroups
  simp [hsplit, groupsOf_join hpieces, all_isGroupText h, hlength', map_parseHex h, hfold]

theorem parseGroups_compressed (hleft : List.Forall₂ LowerGroup left leftValues)
    (hright : List.Forall₂ LowerGroup right rightValues)
    (hlength : leftValues.length + rightValues.length ≤ 7) :
    parseGroups ([58].intercalate left ++ [58, 58] ++ [58].intercalate right) = some (positional 65536
      (leftValues ++ List.replicate (8 - (leftValues.length + rightValues.length)) 0
        ++ rightValues)) := by
  have hleftPieces := pieces_of_lower hleft
  have hrightPieces := pieces_of_lower hright
  have hsplit : splitCompressed ([58].intercalate left ++ [58, 58] ++ [58].intercalate right)
      = [[58].intercalate left, [58].intercalate right] := by
    have hjoin := splitCompressed_join hrightPieces []
    rw [List.append_nil] at hjoin
    rw [List.append_assoc, splitCompressed_join hleftPieces, List.cons_append, List.cons_append,
      List.nil_append, splitCompressed, hjoin]
    simp [splitCompressed]
  have hlt : ∀ value ∈ leftValues
      ++ List.replicate (8 - (leftValues.length + rightValues.length)) 0 ++ rightValues,
      value < 2 ^ 16 := by
    rintro value hvalue
    rcases List.mem_append.mp hvalue with hvalue | hvalue
    · rcases List.mem_append.mp hvalue with hvalue | hvalue
      · exact lt_of_lower hleft value hvalue
      · rw [List.eq_of_mem_replicate hvalue]
        decide
    · exact lt_of_lower hright value hvalue
  have hmissing : ((8 : ℤ) - (leftValues.length + rightValues.length)).toNat
      = 8 - (leftValues.length + rightValues.length) := by
    omega
  have hroom : ¬((8 : ℤ) - (leftValues.length + rightValues.length) < 1) := by omega
  have hzero : parseHex [48] = 0 := by decide
  have hfold := foldl_shiftLeft_or hlt
  unfold parseGroups
  rw [hsplit]
  simp [groupsOf_join hleftPieces, groupsOf_join hrightPieces, all_isGroupText hleft,
    all_isGroupText hright, hleft.length_eq, hright.length_eq, hmissing, hroom, map_parseHex hleft,
    map_parseHex hright, hzero]
  simpa using hfold

end Lower

theorem map_intercalate {f : ℕ → ℕ} (sep : JSString) (ls : List JSString) :
    (sep.intercalate ls).map f = (sep.map f).intercalate (ls.map (List.map f)) := by
  induction ls with
  | nil => rfl
  | cons l ls ih =>
    cases ls with
    | nil => simp
    | cons m ls =>
      simp only [List.map_cons] at ih ⊢
      rw [List.intercalate_cons_cons, List.map_append, List.map_append, ih,
        List.intercalate_cons_cons]

theorem toLowerCase_join (texts : List JSString) :
    toLowerCase ([58].intercalate texts) = [58].intercalate (texts.map toLowerCase) :=
  map_intercalate [58] texts

theorem toLowerCase_append (s t : JSString) :
    toLowerCase (s ++ t) = toLowerCase s ++ toLowerCase t := List.map_append

theorem lower_groups {texts : List JSString} {values : List ℕ}
    (h : List.Forall₂ IsGroup texts values) :
    List.Forall₂ LowerGroup (texts.map toLowerCase) values := by
  induction h with
  | nil => exact .nil
  | cons hgroup h ih => exact .cons hgroup.lower ih

theorem toLowerCase_of_small {s : JSString} (h : ∀ c ∈ s, c < 65) : toLowerCase s = s := by
  refine (List.map_congr_left fun c hc => ?_).trans (List.map_id _)
  have := h c hc
  exact if_neg (by omega)

theorem mem_quad {text : JSString} {n : ℕ} (h : IsQuad text n) {c : ℕ} (hc : c ∈ text) :
    c = 46 ∨ 48 ≤ c ∧ c < 58 := by
  obtain ⟨texts, octets, hoctets, -, rfl, -⟩ := h
  rcases List.eq_or_mem_of_mem_intercalate hc with rfl | ⟨part, hpart, hc⟩
  · exact Or.inl rfl
  · exact Or.inr (of_decide_eq_true (digits_of_isOctets hoctets part hpart c hc))

theorem quad_lt {text : JSString} {n : ℕ} (h : IsQuad text n) : n < 2 ^ 32 := by
  obtain ⟨texts, octets, hoctets, hlength, -, rfl⟩ := h
  have hlt : positional 256 octets < 256 ^ octets.length := positional_lt (lt_of_isOctets hoctets)
  rw [hlength] at hlt
  exact hlt

theorem dot_mem_quad {text : JSString} {n : ℕ} (h : IsQuad text n) : 46 ∈ text := by
  obtain ⟨texts, octets, hoctets, hlength, rfl, -⟩ := h
  have htexts : texts.length = 4 := hoctets.length_eq.trans hlength
  match texts, htexts with
  | [a, b, c, d], _ => simp [List.intercalate_cons_cons]

theorem lastIndexOf_append {c : ℕ} {s t : JSString} (h : c ∉ t) :
    lastIndexOf c (s ++ c :: t) = some s.length := by
  have hfirst : (t.reverse ++ c :: s.reverse).idxOf? c = some t.length := by
    rw [List.idxOf?_eq_some_iff]
    refine ⟨by simp, by simp, ?_⟩
    rintro j hj heq
    rw [List.getElem_append_left (by simpa using hj), List.getElem_reverse] at heq
    exact h (heq ▸ List.getElem_mem _)
  rw [lastIndexOf, List.reverse_append, List.reverse_cons, List.append_assoc, List.singleton_append,
    hfirst, Option.map_some]
  simp only [List.length_append, List.length_cons]
  congr 1
  omega

theorem embedIPv4_quad (front : JSString) {quad : JSString} {n : ℕ} (h : IsQuad quad n) :
    embedIPv4 (toLowerCase (front ++ 58 :: quad)) =
      some (toLowerCase front ++ 58 :: hexText (n / 65536) ++ 58 :: hexText (n % 65536)) := by
  have hsmall : toLowerCase quad = quad := toLowerCase_of_small fun c hc => by
    have := mem_quad h hc
    omega
  have hcolon : 58 ∉ quad := fun hc => by
    have := mem_quad h hc
    omega
  have hlower : toLowerCase (front ++ 58 :: quad) = toLowerCase front ++ 58 :: quad := by
    rw [toLowerCase_append]
    exact congrArg (toLowerCase front ++ 58 :: ·) hsmall
  have hdot : 46 ∈ toLowerCase front ++ 58 :: quad := by simp [dot_mem_quad h]
  have hlt := quad_lt h
  have hhigh : n >>> 16 &&& 0xffff = n / 65536 := by
    rw [Nat.shiftRight_eq_div_pow, Nat.and_two_pow_sub_one_eq_mod _ 16]
    omega
  have hlow : n &&& 0xffff = n % 65536 := Nat.and_two_pow_sub_one_eq_mod n 16
  have hrest : (toLowerCase front ++ 58 :: quad).drop ((toLowerCase front).length + 1) = quad := by
    simp
  rw [hlower, embedIPv4, if_pos hdot, lastIndexOf_append hcolon, Option.bind_some, hrest,
    parseIPv4_iff.mpr h, Option.map_some, hhigh, hlow, List.take_left]

theorem embedIPv4_groups {source : JSString} (h : 46 ∉ source) : embedIPv4 source = some source :=
  if_neg h

theorem digits_of_groups {texts : List JSString} {values : List ℕ}
    (h : List.Forall₂ IsGroup texts values) :
    ∀ text ∈ texts, ∀ c ∈ text, (hexValue c).isSome = true := by
  induction h with
  | nil => exact fun _ hmem => nomatch hmem
  | cons hgroup h ih => exact List.forall_mem_cons.mpr ⟨hgroup.digits, ih⟩

def IsAddressChar (c : ℕ) : Prop := c = 46 ∨ (hexValue c).isSome = true

theorem chars_of_parts {texts : List JSString} {values : List ℕ} (h : Parts texts values) :
    ∀ text ∈ texts, ∀ c ∈ text, IsAddressChar c := by
  rintro text htext c hc
  cases h with
  | groups h => exact Or.inr (digits_of_groups h text htext c hc)
  | quad h hquad =>
    rcases List.mem_append.mp htext with htext | htext
    · exact Or.inr (digits_of_groups h text htext c hc)
    · obtain rfl := List.mem_singleton.mp htext
      have hall : ∀ c < 58, 48 ≤ c → (hexValue c).isSome = true := by decide
      exact (mem_quad hquad hc).imp_right fun hdigit => hall c hdigit.2 hdigit.1

theorem mem_spellsGroups {text : JSString} {values : List ℕ} (h : SpellsGroups text values) {c : ℕ}
    (hc : c ∈ text) : c = 58 ∨ IsAddressChar c := by
  have hjoin {texts : List JSString} (h : ∀ text ∈ texts, ∀ c ∈ text, IsAddressChar c)
      (hc : c ∈ [58].intercalate texts) : c = 58 ∨ IsAddressChar c :=
    (List.eq_or_mem_of_mem_intercalate hc).imp_right fun ⟨text, htext, hc⟩ => h text htext c hc
  cases h with
  | full h => exact hjoin (chars_of_parts h) hc
  | compressed hleft hright =>
    rcases List.mem_append.mp hc with hc | hc
    · rcases List.mem_append.mp hc with hc | hc
      · exact hjoin (chars_of_parts (.groups hleft)) hc
      · exact Or.inl (by simpa using hc)
    · exact hjoin (chars_of_parts hright) hc

theorem no_dot_of_lower {texts : List JSString} {values : List ℕ}
    (h : List.Forall₂ LowerGroup texts values) : 46 ∉ [58].intercalate texts := by
  rintro hmem
  rcases List.eq_or_mem_of_mem_intercalate hmem with heq | ⟨text, htext, hc⟩
  · cases heq
  · induction h with
    | nil => cases htext
    | cons hgroup h ih =>
      rcases List.mem_cons.mp htext with rfl | htext
      · have := (isGroupText_iff.mp hgroup.isText).2 46 hc
        omega
      · exact ih (List.mem_intercalate_of_mem htext hc) htext

theorem embed_parts {front : JSString} {texts : List JSString} {values : List ℕ}
    (h : Parts texts values)
    (hfront : (∃ rest, front = rest ++ [58]) ∨ front = [] ∧ 3 ≤ values.length)
    (hdot : 46 ∉ toLowerCase front) : ∃ lowered, List.Forall₂ LowerGroup lowered values ∧
      embedIPv4 (toLowerCase (front ++ [58].intercalate texts))
        = some (toLowerCase front ++ [58].intercalate lowered) := by
  cases h with
  | groups h =>
    have hlower := lower_groups h
    refine ⟨_, hlower, ?_⟩
    rw [toLowerCase_append, toLowerCase_join]
    apply embedIPv4_groups
    rintro hmem
    exact (List.mem_append.mp hmem).elim hdot (no_dot_of_lower hlower)
  | @quad texts values quad n h hquad =>
    have hlt := quad_lt hquad
    have hlower := lower_groups h
    refine ⟨texts.map toLowerCase ++ [hexText (n / 65536), hexText (n % 65536)],
      List.rel_append hlower (.cons (lowerGroup_hexText (by omega))
        (.cons (lowerGroup_hexText (by omega)) .nil)), ?_⟩
    by_cases hnil : texts = []
    · subst hnil
      cases h
      rcases hfront with ⟨rest, rfl⟩ | ⟨-, hlong⟩
      · have hembed := embedIPv4_quad rest hquad
        rw [List.nil_append, List.intercalate_singleton, List.append_assoc, List.singleton_append,
          hembed, toLowerCase_append]
        simp [toLowerCase]
      · simp at hlong
    · have hembed := embedIPv4_quad (front ++ [58].intercalate texts) hquad
      have hgroups : [58].intercalate (texts.map toLowerCase
          ++ [hexText (n / 65536), hexText (n % 65536)])
          = [58].intercalate (texts.map toLowerCase) ++ 58 :: hexText (n / 65536)
            ++ 58 :: hexText (n % 65536) := by
        rw [List.append_cons, List.intercalate_concat (by simp),
          List.intercalate_concat (by simpa using hnil)]
      rw [List.intercalate_concat hnil, ← List.append_assoc, hembed, toLowerCase_append,
        toLowerCase_join, hgroups]
      simp

theorem parseIPv6_spelled {text : JSString} {values : List ℕ} (h : SpellsGroups text values) :
    parseIPv6 text = some (positional 65536 values) := by
  have hpercent : 37 ∉ text := fun hmem => by
    rcases mem_spellsGroups h hmem with heq | heq | hhex
    · cases heq
    · cases heq
    · exact absurd hhex (by decide)
  rw [parseIPv6, if_neg hpercent]
  cases h with
  | @full texts values h hlength =>
    obtain ⟨lowered, hlowered, hembed⟩ := embed_parts h (Or.inr ⟨rfl, by omega⟩) List.not_mem_nil
    rw [List.nil_append] at hembed
    rw [hembed, Option.bind_some]
    exact parseGroups_full hlowered hlength
  | @compressed left right leftValues rightValues hleft hright hlength =>
    have hlower := lower_groups hleft
    have hfront : toLowerCase ([58].intercalate left ++ [58, 58])
        = [58].intercalate (left.map toLowerCase) ++ [58, 58] := by
      rw [toLowerCase_append, toLowerCase_join]
      rfl
    have hdot : 46 ∉ toLowerCase ([58].intercalate left ++ [58, 58]) := by
      rw [hfront, List.mem_append]
      rintro (hmem | hmem)
      · exact no_dot_of_lower hlower hmem
      · simp at hmem
    obtain ⟨lowered, hlowered, hembed⟩ := embed_parts hright
      (Or.inl ⟨[58].intercalate left ++ [58], by simp⟩) hdot
    rw [hembed, Option.bind_some, hfront]
    exact parseGroups_compressed hlower hlowered hlength

theorem colon_mem_spellsGroups {text : JSString} {values : List ℕ} (h : SpellsGroups text values) :
    58 ∈ text := by
  have hconcat {texts : List JSString} (last : JSString) (hne : texts ≠ []) :
      58 ∈ [58].intercalate (texts ++ [last]) := by
    rw [List.intercalate_concat hne]
    simp
  cases h with
  | full h hlength =>
    cases h with
    | groups h =>
      rename_i texts
      obtain ⟨init, last, rfl⟩ : ∃ init last, texts = init ++ [last] := by
        rcases texts.eq_nil_or_concat with rfl | ⟨init, last, rfl⟩
        · cases h
          cases hlength
        · exact ⟨init, last, List.concat_eq_append⟩
      apply hconcat
      rintro rfl
      rw [← h.length_eq] at hlength
      cases hlength
    | quad h hquad =>
      apply hconcat
      rintro rfl
      cases h
      cases hlength
  | compressed => simp

structure Address where
  version : IpVersion
  value : ℕ
  lt : value < 2 ^ version.bits

def SpellsAddress (text : JSString) (a : Address) : Prop :=
  match a.version with
  | .v4 => IsQuad text a.value
  | .v6 => ∃ values, SpellsGroups text values ∧ a.value = positional 65536 values

/-- The texts that denote an address: with blanks around it, and in brackets or not. -/
inductive Denotes : JSString → Address → Prop
  | plain {front text back : JSString} {a : Address} (hfront : IsBlank front)
      (h : SpellsAddress text a) (hback : IsBlank back) : Denotes (front ++ text ++ back) a
  | bracketed {front text back : JSString} {a : Address} (hfront : IsBlank front)
      (h : SpellsAddress text a) (hback : IsBlank back) :
      Denotes (front ++ (91 :: text ++ [93]) ++ back) a

/-- The address that rules and buckets see: an IPv4 address for the IPv6 one that carries it. -/
def Address.normal (a : Address) : ParsedIp :=
  match a.version with
  | .v4 => ⟨.v4, a.value⟩
  | .v6 => if a.value / 2 ^ 32 = 0xffff then ⟨.v4, a.value % 2 ^ 32⟩ else ⟨.v6, a.value⟩

theorem Address.normal_lt (a : Address) : a.normal.value < 2 ^ a.normal.version.bits := by
  obtain ⟨version, value, hlt⟩ := a
  cases version with
  | v4 => exact hlt
  | v6 =>
    unfold normal
    simp only
    split_ifs
    · exact Nat.mod_lt _ (by decide)
    · exact hlt

theorem SpellsAddress.chars {text : JSString} {a : Address} (h : SpellsAddress text a) {c : ℕ}
    (hc : c ∈ text) : c = 58 ∨ IsAddressChar c := by
  unfold SpellsAddress at h
  split at h
  · right
    have hall : ∀ c < 58, 48 ≤ c → (hexValue c).isSome = true := by decide
    exact (mem_quad h hc).imp_right fun hdigit => hall c hdigit.2 hdigit.1
  · obtain ⟨values, h, -⟩ := h
    exact mem_spellsGroups h hc

theorem SpellsAddress.colon_iff {text : JSString} {a : Address} (h : SpellsAddress text a) :
    58 ∈ text ↔ a.version = .v6 := by
  unfold SpellsAddress at h
  split at h
  · next hversion =>
    simp only [hversion, reduceCtorEq, iff_false]
    intro hmem
    have := mem_quad h hmem
    omega
  · next hversion =>
    obtain ⟨values, h, -⟩ := h
    simp only [hversion, iff_true]
    exact colon_mem_spellsGroups h

theorem SpellsAddress.parse {text : JSString} {a : Address} (h : SpellsAddress text a) :
    (match parseIPv4 text with
      | some v4 => some ⟨.v4, v4⟩
      | none => (parseIPv6 text).map fun v6 =>
          if v6 >>> 32 = 0xffff then ⟨.v4, v6 &&& 0xffffffff⟩ else ⟨.v6, v6⟩) = some a.normal := by
  have hcolon := h.colon_iff
  unfold SpellsAddress at h
  split at h
  · next hversion =>
    rw [parseIPv4_iff.mpr h]
    simp [Address.normal, hversion]
  · next hversion =>
    obtain ⟨values, hgroups, hvalue⟩ := h
    have hnone : parseIPv4 text = none := by
      rw [Option.eq_none_iff_forall_ne_some]
      rintro n hn
      have := mem_quad (parseIPv4_iff.mp hn) (hcolon.mpr hversion)
      omega
    have hmask : a.value &&& 0xffffffff = a.value % 2 ^ 32 := Nat.and_two_pow_sub_one_eq_mod _ 32
    rw [hnone]
    simp only [parseIPv6_spelled hgroups, ← hvalue, Option.map_some, Nat.shiftRight_eq_div_pow,
      hmask, Address.normal, hversion]

theorem parseIp_denotes {text : JSString} {a : Address} (h : Denotes text a) :
    parseIp text = some a.normal := by
  have hspace {text : JSString} (h : SpellsAddress text a) :
      ∀ c ∈ text, Postgres.isSpace c = false ∧ c ≠ 91 := by
    rintro c hc
    rcases h.chars hc with rfl | rfl | hhex
    · exact ⟨by decide, by decide⟩
    · exact ⟨by decide, by decide⟩
    · have hall : ∀ c < 103, (hexValue c).isSome = true → Postgres.isSpace c = false ∧ c ≠ 91 := by
        decide
      refine hall c ?_ hhex
      unfold hexValue at hhex
      split_ifs at hhex
      · omega
      · omega
      · omega
      · cases hhex
  unfold parseIp
  cases h with
  | plain hfront h hback =>
    rename_i text _
    have htrim : trim text = text := trim_eq_self fun c hc => (hspace h c hc).1
    have hplain : text.head? ≠ some 91 := fun hhead =>
      (hspace h 91 (List.mem_of_mem_head? hhead)).2 rfl
    simp only [trim_blanks hfront text hback, htrim, hplain, false_and, if_false]
    exact h.parse
  | bracketed hfront h hback =>
    rename_i text _
    have htrim : trim (91 :: text ++ [93]) = 91 :: text ++ [93] := by
      apply trim_eq_self
      rintro c hc
      rcases List.mem_append.mp hc with hc | hc
      · rcases List.mem_cons.mp hc with rfl | hc
        · decide
        · exact (hspace h c hc).1
      · obtain rfl := List.mem_singleton.mp hc
        decide
    have hinner : (91 :: text ++ [93]).tail.dropLast = text := by simp
    have hends : (91 :: text ++ [93]).head? = some 91 ∧ (91 :: text ++ [93]).getLast? = some 93 := by
      refine ⟨rfl, ?_⟩
      exact List.getLast?_concat
    simp only [trim_blanks hfront _ hback, htrim, if_pos hends, hinner]
    exact h.parse

end Nifra.Ip
