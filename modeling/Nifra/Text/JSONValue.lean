import Nifra.Text.JSString

/-! # JSON values

`JSON.stringify` and `JSON.parse` of values as trees. A text that `stringify` prints is parsed back,
property by property: a property is an own property, whatever its name.
-/

namespace Nifra.JSON

/-- A number is its text; the names of an object are those of its own properties. -/
inductive Value
  | null
  | bool (b : Bool)
  | number (text : JSString)
  | string (s : JSString)
  | array (items : List Value)
  | object (fields : List (JSString × Value))
  deriving Repr

mutual

def Value.stringify : Value → JSString
  | .null => js "null"
  | .bool true => js "true"
  | .bool false => js "false"
  | .number text => text
  | .string s => ofString s
  | .array [] => js "[]"
  | .array (item :: items) => js "[" ++ item.stringify ++ Value.stringifyItems items
  | .object [] => js "\x7b\x7d"
  | .object ((name, value) :: fields) =>
    js "\x7b" ++ ofString name ++ js ":" ++ value.stringify ++ Value.stringifyFields fields

def Value.stringifyItems : List Value → JSString
  | [] => js "]"
  | item :: items => js "," ++ item.stringify ++ Value.stringifyItems items

def Value.stringifyFields : List (JSString × Value) → JSString
  | [] => js "\x7d"
  | (name, value) :: fields =>
    js "," ++ ofString name ++ js ":" ++ value.stringify ++ Value.stringifyFields fields

end

def isBlank (c : ℕ) : Bool := (js " \t\n\r").contains c

def skipBlank (s : JSString) : JSString := s.dropWhile isBlank

def hexValue (c : ℕ) : Option ℕ :=
  if 48 ≤ c ∧ c < 58 then some (c - 48)
  else if 97 ≤ c ∧ c < 103 then some (c - 87)
  else if 65 ≤ c ∧ c < 71 then some (c - 55)
  else none

def hexUnit (a b c d : ℕ) : Option ℕ := do
  let a ← hexValue a
  let b ← hexValue b
  let c ← hexValue c
  let d ← hexValue d
  some (4096 * a + 256 * b + 16 * c + d)

def unescapeLetter (e : ℕ) : Option ℕ :=
  if e = 47 then some 47 else (escapes.find? fun pair => pair.2 = e).map Prod.fst

def prepend (c : ℕ) (read : JSString × JSString) : JSString × JSString := (c :: read.1, read.2)

def readString : JSString → Option (JSString × JSString)
  | [] => none
  | 34 :: rest => some ([], rest)
  | 92 :: 117 :: a :: b :: c :: d :: rest =>
    (hexUnit a b c d).bind fun unit => (readString rest).map (prepend unit)
  | 92 :: e :: rest => (unescapeLetter e).bind fun unit => (readString rest).map (prepend unit)
  | c :: rest => if c < 32 ∨ c = 92 then none else (readString rest).map (prepend c)

def isDigit (c : ℕ) : Bool := decide (48 ≤ c ∧ c < 58)

structure Numeral where
  negative : Bool
  integer : JSString
  fraction : JSString
  exponent : ℤ
  deriving DecidableEq, Repr

def natOfDigits (digits : JSString) : ℕ := digits.foldl (fun n c => 10 * n + (c - 48)) 0

def readInteger : JSString → Option (JSString × JSString)
  | [] => none
  | c :: rest =>
    if c = 48 then some ([c], rest)
    else if isDigit c then some ((c :: rest).span isDigit) else none

def readFraction : JSString → Option (JSString × JSString)
  | 46 :: rest =>
    let (digits, rest) := rest.span isDigit
    if digits.isEmpty then none else some (digits, rest)
  | rest => some ([], rest)

def readSign : JSString → Bool × JSString
  | 43 :: rest => (false, rest)
  | 45 :: rest => (true, rest)
  | rest => (false, rest)

def readExponent : JSString → Option (ℤ × JSString)
  | [] => some (0, [])
  | c :: rest =>
    if c = 101 ∨ c = 69 then
      let (negative, rest) := readSign rest
      let (digits, rest) := rest.span isDigit
      if digits.isEmpty then none
      else some (if negative then -natOfDigits digits else natOfDigits digits, rest)
    else some (0, c :: rest)

def readNumeral (s : JSString) : Option (Numeral × JSString) := do
  let (negative, s) := if s.head? = some 45 then (true, s.tail) else (false, s)
  let (integer, s) ← readInteger s
  let (fraction, s) ← readFraction s
  let (exponent, s) ← readExponent s
  some (⟨negative, integer, fraction, exponent⟩, s)

def readNumber (s : JSString) : Option (Value × JSString) :=
  (readNumeral s).map fun (_, rest) => (.number (s.take (s.length - rest.length)), rest)

def setProperty (fields : List (JSString × Value)) (name : JSString) (value : Value) :
    List (JSString × Value) :=
  if fields.any fun field => field.1 = name then
    fields.map fun field => if field.1 = name then (name, value) else field
  else fields ++ [(name, value)]

def stripPrefix (word s : JSString) : Option JSString :=
  if word.isPrefixOf s then some (s.drop word.length) else none

mutual

/-- A value at the front of a text, with the depth and the width that may still be read. -/
def readValue : ℕ → JSString → Option (Value × JSString)
  | 0, _ => none
  | n + 1, s =>
    match skipBlank s with
    | [] => none
    | c :: rest =>
      if c = 34 then (readString rest).map fun (s, rest) => (.string s, rest)
      else if c = 91 then
        match skipBlank rest with
        | 93 :: rest => some (.array [], rest)
        | rest => do
          let (item, rest) ← readValue n rest
          let (items, rest) ← readItems n rest
          some (.array (item :: items), rest)
      else if c = 123 then
        match skipBlank rest with
        | 125 :: rest => some (.object [], rest)
        | rest => do
          let (field, rest) ← readField n rest
          let (fields, rest) ← readFields n rest
          some (.object ((field :: fields).foldl (fun fields field =>
            setProperty fields field.1 field.2) []), rest)
      else if c = 110 then (stripPrefix (js "ull") rest).map fun rest => (.null, rest)
      else if c = 116 then (stripPrefix (js "rue") rest).map fun rest => (.bool true, rest)
      else if c = 102 then (stripPrefix (js "alse") rest).map fun rest => (.bool false, rest)
      else readNumber (c :: rest)

def readItems : ℕ → JSString → Option (List Value × JSString)
  | 0, _ => none
  | n + 1, s =>
    match skipBlank s with
    | 93 :: rest => some ([], rest)
    | 44 :: rest => do
      let (item, rest) ← readValue n rest
      let (items, rest) ← readItems n rest
      some (item :: items, rest)
    | _ => none

def readField : ℕ → JSString → Option ((JSString × Value) × JSString)
  | 0, _ => none
  | n + 1, s =>
    match skipBlank s with
    | 34 :: rest => do
      let (name, rest) ← readString rest
      match skipBlank rest with
      | 58 :: rest => do
        let (value, rest) ← readValue n rest
        some ((name, value), rest)
      | _ => none
    | _ => none

def readFields : ℕ → JSString → Option (List (JSString × Value) × JSString)
  | 0, _ => none
  | n + 1, s =>
    match skipBlank s with
    | 125 :: rest => some ([], rest)
    | 44 :: rest => do
      let (field, rest) ← readField n rest
      let (fields, rest) ← readFields n rest
      some (field :: fields, rest)
    | _ => none

end

/-- `JSON.parse`; a text that is none of a value is refused. -/
def parse (s : JSString) : Option Value :=
  (readValue (s.length + 1) s).bind fun (value, rest) =>
    if (skipBlank rest).isEmpty then some value else none

theorem hexValue_hexDigit {d : ℕ} (hd : d < 16) : hexValue (hexDigit d) = some d := by
  unfold hexDigit hexValue
  split_ifs <;> first | omega | (congr 1; omega)

theorem unescapeLetter_of_mem {c e : ℕ} (h : (c, e) ∈ escapes) :
    unescapeLetter e = some c ∧ e ≠ 117 := by
  simp only [escapes, List.mem_cons, Prod.mk.injEq, List.not_mem_nil, or_false] at h
  rcases h with ⟨rfl, rfl⟩ | ⟨rfl, rfl⟩ | ⟨rfl, rfl⟩ | ⟨rfl, rfl⟩ | ⟨rfl, rfl⟩ | ⟨rfl, rfl⟩ |
    ⟨rfl, rfl⟩
  all_goals exact ⟨by decide, by decide⟩

theorem readString_spells {c : ℕ} {w x : JSString} (h : Spells c w) :
    readString (w ++ x) = (readString x).map (prepend c) := by
  cases h with
  | raw hquote hslash hcontrol =>
    rw [List.singleton_append, readString]
    · rw [if_neg (by omega)]
    · exact hquote
    · exact fun _ _ _ _ _ heq _ => hslash heq
    · exact fun _ _ heq _ => hslash heq
  | @short e hmem =>
    obtain ⟨hletter, hne⟩ := unescapeLetter_of_mem hmem
    change readString (92 :: e :: x) = _
    rw [readString, hletter]
    · rfl
    · exact fun _ _ _ _ _ heq _ => hne heq
  | unicode hlt =>
    change readString (92 :: 117 :: _ :: _ :: _ :: _ :: x) = _
    rw [readString]
    simp only [hexUnit, hexValue_hexDigit (Nat.mod_lt _ (by omega : 0 < 16)), Option.bind_eq_bind,
      Option.bind_some]
    have hsum : 4096 * (c / 4096 % 16) + 256 * (c / 256 % 16) + 16 * (c / 16 % 16) + c % 16 = c := by
      omega
    rw [hsum]

theorem readString_escape (s rest : JSString) :
    readString (escape s ++ 34 :: rest) = some (s, rest) := by
  obtain ⟨ws, hws, heq⟩ := exists_spells s
  rw [← heq]
  clear heq
  induction hws with
  | nil => rw [List.flatten_nil, List.nil_append, readString]
  | cons hc _ ih =>
    rw [List.flatten_cons, List.append_assoc, readString_spells hc, ih]
    rfl

theorem natOfDigits_decimal (n : ℕ) : natOfDigits (decimal n) = n := by
  have hfold (ds : List ℕ) (m : ℕ) : (ds.map (48 + ·)).foldl (fun n c => 10 * n + (c - 48)) m =
      Nat.ofDigits 10 ds.reverse + 10 ^ ds.length * m := by
    induction ds generalizing m with
    | nil => simp
    | cons d ds ih =>
      rw [List.map_cons, List.foldl_cons, ih, List.reverse_cons, Nat.ofDigits_append,
        Nat.ofDigits_singleton, List.length_reverse, List.length_cons, pow_succ]
      have hd : 48 + d - 48 = d := by omega
      rw [hd]
      ring
  rw [natOfDigits, decimal, hfold, Double.ofDigits_digits]
  simp

def Ends (rest : JSString) : Prop :=
  ∀ c ∈ rest.head?, isDigit c = false ∧ c ≠ 46 ∧ c ≠ 101 ∧ c ≠ 69

theorem span_digits {digits rest : JSString} (hdigits : ∀ c ∈ digits, isDigit c)
    (hrest : Ends rest) : (digits ++ rest).span isDigit = (digits, rest) := by
  rw [List.span_eq_takeWhile_dropWhile, List.takeWhile_append_of_pos hdigits,
    List.dropWhile_append_of_pos hdigits]
  cases rest with
  | nil => simp
  | cons c rest =>
    have hc := (hrest c rfl).1
    simp [hc]

theorem isDigit_of_mem_decimal {n c : ℕ} (h : c ∈ decimal n) : isDigit c = true := by
  have := digit_of_mem_decimal h
  exact decide_eq_true this

theorem decimal_cases (n : ℕ) : decimal n = [48] ∨
    ∃ c digits, decimal n = c :: digits ∧ c ≠ 48 := by
  by_cases hn : n = 0
  · left
    rw [hn]
    rfl
  · right
    have hne : Nat.digits 10 n ≠ [] := Nat.digits_ne_nil_iff_ne_zero.mpr hn
    have hlast := Nat.getLast_digit_ne_zero 10 hn
    obtain ⟨d, ds, hds⟩ := List.exists_cons_of_ne_nil (List.reverse_ne_nil_iff.mpr hne)
    refine ⟨48 + d, ds.map (48 + ·), ?_, ?_⟩
    · rw [decimal, Double.digits, if_neg hn, hds, List.map_cons]
    · have hd : (Nat.digits 10 n).getLast hne = d := by
        rw [List.getLast_eq_head_reverse]
        simp [hds]
      rw [hd] at hlast
      omega

theorem readInteger_decimal (n : ℕ) {rest : JSString} (hrest : Ends rest) :
    readInteger (decimal n ++ rest) = some (decimal n, rest) := by
  rcases decimal_cases n with heq | ⟨c, digits, heq, hc⟩
  · rw [heq]
    rfl
  · have hdigits : ∀ c ∈ decimal n, isDigit c := fun c => isDigit_of_mem_decimal
    have hhead : isDigit c := hdigits c (by simp [heq])
    have hspan := span_digits hdigits hrest
    rw [heq] at hspan ⊢
    rw [List.cons_append] at hspan ⊢
    rw [readInteger, if_neg hc, if_pos hhead, hspan]

theorem readNumeral_decimal (n : ℕ) {rest : JSString} (hrest : Ends rest) :
    readNumeral (decimal n ++ rest) = some (⟨false, decimal n, [], 0⟩, rest) := by
  have hsign : (decimal n ++ rest).head? ≠ some 45 := by
    rcases decimal_cases n with heq | ⟨c, digits, heq, -⟩
    · simp [heq]
    · have hc := digit_of_mem_decimal (n := n) (c := c) (by simp [heq])
      rw [heq, List.cons_append, List.head?_cons]
      intro h
      have := Option.some.inj h
      omega
  have hfraction : readFraction rest = some ([], rest) := by
    unfold readFraction
    split
    · exact absurd rfl (hrest 46 rfl).2.1
    · rfl
  have hexponent : readExponent rest = some (0, rest) := by
    cases rest with
    | nil => rfl
    | cons c rest =>
      obtain ⟨-, -, he, hE⟩ := hrest c rfl
      rw [readExponent, if_neg (not_or.mpr ⟨he, hE⟩)]
  simp only [readNumeral, if_neg hsign, readInteger_decimal n hrest, Option.bind_eq_bind,
    Option.bind_some, hfraction, hexponent]

def IsNumeral (text : JSString) : Prop := ∃ numeral, readNumeral text = some (numeral, [])

theorem isNumeral_decimal (n : ℕ) : IsNumeral (decimal n) := by
  have hread : readNumeral (decimal n ++ []) = _ := readNumeral_decimal n nofun
  rw [List.append_nil] at hread
  exact ⟨_, hread⟩

theorem span_isDigit_append {s rest : JSString} (hrest : Ends rest) :
    (s ++ rest).span isDigit = ((s.span isDigit).1, (s.span isDigit).2 ++ rest) := by
  induction s with
  | nil =>
    have hspan : ([] ++ rest).span isDigit = ([], rest) := span_digits (by simp) hrest
    simpa using hspan
  | cons c s ih =>
    simp only [List.span_eq_takeWhile_dropWhile, List.cons_append] at ih ⊢
    by_cases hc : isDigit c
    · simp only [List.takeWhile_cons_of_pos hc, List.dropWhile_cons_of_pos hc]
      have hpair := Prod.mk.inj ih
      rw [hpair.1, hpair.2]
    · simp only [List.takeWhile_cons_of_neg hc, List.dropWhile_cons_of_neg hc, List.cons_append]

theorem readInteger_append {s integer left rest : JSString} (hrest : Ends rest)
    (h : readInteger s = some (integer, left)) :
    readInteger (s ++ rest) = some (integer, left ++ rest) := by
  cases s with
  | nil => cases h
  | cons c s =>
    rw [List.cons_append]
    rw [readInteger] at h ⊢
    split_ifs at h ⊢ with hzero hdigit
    · cases h
      rfl
    · have hspan := span_isDigit_append (s := c :: s) hrest
      rw [List.cons_append] at hspan
      rw [hspan, Option.some.inj h]

theorem readFraction_append {s fraction left rest : JSString} (hrest : Ends rest)
    (h : readFraction s = some (fraction, left)) :
    readFraction (s ++ rest) = some (fraction, left ++ rest) := by
  by_cases hdot : s.head? = some 46
  · obtain ⟨t, rfl⟩ : ∃ t, s = 46 :: t := by
      cases s with
      | nil => cases hdot
      | cons c t =>
        obtain rfl := Option.some.inj hdot
        exact ⟨t, rfl⟩
    rw [List.cons_append]
    simp only [readFraction, span_isDigit_append hrest] at h ⊢
    split_ifs at h ⊢
    have hpair := Prod.mk.inj (Option.some.inj h)
    rw [hpair.1, hpair.2]
  · have hother : (s ++ rest).head? ≠ some 46 := by
      cases s with
      | nil => exact fun hrest' => (hrest 46 hrest').2.1 rfl
      | cons c s => exact hdot
    have hskip : ∀ {t : JSString}, t.head? ≠ some 46 → readFraction t = some ([], t) := by
      intro t ht
      unfold readFraction
      split
      · exact (ht rfl).elim
      · rfl
    rw [hskip hdot] at h
    rw [hskip hother]
    have hpair := Prod.mk.inj (Option.some.inj h)
    rw [← hpair.1, ← hpair.2]

theorem readSign_append {s : JSString} (hne : s ≠ []) (rest : JSString) :
    readSign (s ++ rest) = ((readSign s).1, (readSign s).2 ++ rest) := by
  cases s with
  | nil => exact (hne rfl).elim
  | cons c s =>
    by_cases hplus : c = 43
    · subst hplus
      rfl
    by_cases hminus : c = 45
    · subst hminus
      rfl
    have hskip : ∀ t : JSString, readSign (c :: t) = (false, c :: t) := by
      intro t
      unfold readSign
      split
      · rename_i heq
        exact (hplus (List.cons.inj heq).1).elim
      · rename_i heq
        exact (hminus (List.cons.inj heq).1).elim
      · rfl
    rw [List.cons_append, hskip, hskip]
    rfl

theorem readExponent_append {s left rest : JSString} {exponent : ℤ} (hrest : Ends rest)
    (h : readExponent s = some (exponent, left)) :
    readExponent (s ++ rest) = some (exponent, left ++ rest) := by
  cases s with
  | nil =>
    obtain ⟨rfl, rfl⟩ := Prod.mk.inj (Option.some.inj h)
    cases rest with
    | nil => rfl
    | cons c rest =>
      obtain ⟨-, -, he, hE⟩ := hrest c rfl
      exact if_neg (not_or.mpr ⟨he, hE⟩)
  | cons c t =>
    rw [List.cons_append]
    rw [readExponent] at h ⊢
    by_cases hc : c = 101 ∨ c = 69
    · rw [if_pos hc] at h ⊢
      cases t with
      | nil => cases h
      | cons d t =>
        simp only [readSign_append (List.cons_ne_nil d t), span_isDigit_append hrest] at h ⊢
        split_ifs at h ⊢
        all_goals
          obtain ⟨rfl, rfl⟩ := Prod.mk.inj (Option.some.inj h)
          rfl
    · rw [if_neg hc] at h ⊢
      obtain ⟨rfl, rfl⟩ := Prod.mk.inj (Option.some.inj h)
      rfl

theorem readNumeral_eq_some_iff {s left : JSString} {numeral : Numeral} :
    readNumeral s = some (numeral, left) ↔ ∃ negative digits integer tail fraction tail' exponent,
      (negative, digits) = (if s.head? = some 45 then (true, s.tail) else (false, s)) ∧
      readInteger digits = some (integer, tail) ∧ readFraction tail = some (fraction, tail') ∧
      readExponent tail' = some (exponent, left) ∧
      numeral = ⟨negative, integer, fraction, exponent⟩ := by
  simp only [readNumeral, Option.bind_eq_bind, Option.bind_eq_some_iff]
  constructor
  · rintro ⟨⟨integer, tail⟩, hinteger, ⟨fraction, tail'⟩, hfraction, ⟨exponent, left'⟩, hexponent, h⟩
    obtain ⟨rfl, rfl⟩ := Prod.mk.inj (Option.some.inj h)
    exact ⟨_, _, integer, tail, fraction, tail', exponent, rfl, hinteger, hfraction, hexponent, rfl⟩
  · rintro ⟨negative, digits, integer, tail, fraction, tail', exponent, hsign, hinteger, hfraction,
      hexponent, rfl⟩
    rw [← hsign]
    exact ⟨(integer, tail), hinteger, (fraction, tail'), hfraction, (exponent, left), hexponent, rfl⟩

theorem readNumeral_append {s left rest : JSString} {numeral : Numeral} (hrest : Ends rest)
    (h : readNumeral s = some (numeral, left)) :
    readNumeral (s ++ rest) = some (numeral, left ++ rest) := by
  obtain ⟨negative, digits, integer, tail, fraction, tail', exponent, hsign, hinteger, hfraction,
    hexponent, rfl⟩ := readNumeral_eq_some_iff.mp h
  refine readNumeral_eq_some_iff.mpr ⟨negative, digits ++ rest, integer, tail ++ rest, fraction,
    tail' ++ rest, exponent, ?_, readInteger_append hrest hinteger,
    readFraction_append hrest hfraction, readExponent_append hrest hexponent, rfl⟩
  have hne : s ≠ [] := by
    rintro rfl
    obtain ⟨-, rfl⟩ := Prod.mk.inj hsign
    cases hinteger
  have hhead : (s ++ rest).head? = s.head? := by
    cases s with
    | nil => exact (hne rfl).elim
    | cons c s => rfl
  rw [hhead]
  split_ifs at hsign ⊢
  · obtain ⟨rfl, rfl⟩ := Prod.mk.inj hsign
    rw [List.tail_append_of_ne_nil hne]
  · obtain ⟨rfl, rfl⟩ := Prod.mk.inj hsign
    rfl

theorem IsNumeral.head {text : JSString} (h : IsNumeral text) :
    ∃ c rest, text = c :: rest ∧ (c = 45 ∨ 48 ≤ c ∧ c < 58) := by
  obtain ⟨numeral, h⟩ := h
  obtain ⟨negative, digits, integer, tail, fraction, tail', exponent, hsign, hinteger, -⟩ :=
    readNumeral_eq_some_iff.mp h
  cases text with
  | nil =>
    obtain ⟨-, rfl⟩ := Prod.mk.inj hsign
    cases hinteger
  | cons c rest =>
    refine ⟨c, rest, rfl, ?_⟩
    by_cases hminus : c = 45
    · exact Or.inl hminus
    · rw [if_neg (by simpa using hminus)] at hsign
      obtain ⟨-, rfl⟩ := Prod.mk.inj hsign
      rw [readInteger] at hinteger
      split_ifs at hinteger with hzero hdigit
      · omega
      · exact Or.inr (of_decide_eq_true hdigit)

theorem readNumber_numeral {text rest : JSString} (h : IsNumeral text) (hrest : Ends rest) :
    readNumber (text ++ rest) = some (.number text, rest) := by
  obtain ⟨numeral, h⟩ := h
  rw [readNumber, readNumeral_append hrest h, Option.map_some]
  simp

mutual

/-- Numbers are numerals, and the names of an object are distinct. -/
inductive Printed : Value → Prop
  | null : Printed .null
  | bool (b : Bool) : Printed (.bool b)
  | number {text : JSString} (h : IsNumeral text) : Printed (.number text)
  | string (s : JSString) : Printed (.string s)
  | array {items : List Value} (h : PrintedItems items) : Printed (.array items)
  | object {fields : List (JSString × Value)} (h : PrintedFields fields)
      (hnodup : (fields.map Prod.fst).Nodup) : Printed (.object fields)

inductive PrintedItems : List Value → Prop
  | nil : PrintedItems []
  | cons {item : Value} {items : List Value} (h : Printed item) (hs : PrintedItems items) :
      PrintedItems (item :: items)

inductive PrintedFields : List (JSString × Value) → Prop
  | nil : PrintedFields []
  | cons {name : JSString} {value : Value} {fields : List (JSString × Value)} (h : Printed value)
      (hs : PrintedFields fields) : PrintedFields ((name, value) :: fields)

end

mutual

/-- Numbers are counters, and the names of an object are distinct. -/
inductive Plain : Value → Prop
  | null : Plain .null
  | bool (b : Bool) : Plain (.bool b)
  | number (n : ℕ) : Plain (.number (decimal n))
  | string (s : JSString) : Plain (.string s)
  | array {items : List Value} (h : PlainItems items) : Plain (.array items)
  | object {fields : List (JSString × Value)} (h : PlainFields fields)
      (hnodup : (fields.map Prod.fst).Nodup) : Plain (.object fields)

inductive PlainItems : List Value → Prop
  | nil : PlainItems []
  | cons {item : Value} {items : List Value} (h : Plain item) (hs : PlainItems items) :
      PlainItems (item :: items)

inductive PlainFields : List (JSString × Value) → Prop
  | nil : PlainFields []
  | cons {name : JSString} {value : Value} {fields : List (JSString × Value)} (h : Plain value)
      (hs : PlainFields fields) : PlainFields ((name, value) :: fields)

end

theorem isBlank_iff {c : ℕ} : isBlank c ↔ c = 32 ∨ c = 9 ∨ c = 10 ∨ c = 13 := by
  have hunits : js " \t\n\r" = [32, 9, 10, 13] := rfl
  simp [isBlank, hunits]

theorem skipBlank_cons {c : ℕ} {rest : JSString} (h : isBlank c = false) :
    skipBlank (c :: rest) = c :: rest := by
  rw [skipBlank, List.dropWhile_cons_of_neg (by simp [h])]

mutual

theorem Plain.printed {v : Value} (h : Plain v) : Printed v := by
  match h with
  | .null => exact .null
  | .bool b => exact .bool b
  | .number n => exact .number (isNumeral_decimal n)
  | .string s => exact .string s
  | .array h => exact .array h.printed
  | .object h hnodup => exact .object h.printed hnodup

theorem PlainItems.printed {items : List Value} (h : PlainItems items) : PrintedItems items := by
  match h with
  | .nil => exact .nil
  | .cons h hs => exact .cons h.printed hs.printed

theorem PlainFields.printed {fields : List (JSString × Value)} (h : PlainFields fields) :
    PrintedFields fields := by
  match h with
  | .nil => exact .nil
  | .cons h hs => exact .cons h.printed hs.printed

end

theorem printedItems_iff {items : List Value} :
    PrintedItems items ↔ ∀ item ∈ items, Printed item := by
  induction items with
  | nil =>
    constructor
    · rintro - item ⟨⟩
    · rintro -
      exact .nil
  | cons item items ih =>
    rw [List.forall_mem_cons, ← ih]
    constructor
    · rintro (_ | ⟨h, hs⟩)
      exact ⟨h, hs⟩
    · rintro ⟨h, hs⟩
      exact .cons h hs

theorem printedFields_iff {fields : List (JSString × Value)} :
    PrintedFields fields ↔ ∀ field ∈ fields, Printed field.2 := by
  induction fields with
  | nil =>
    constructor
    · rintro - field ⟨⟩
    · rintro -
      exact .nil
  | cons field fields ih =>
    rw [List.forall_mem_cons, ← ih]
    constructor
    · rintro (_ | ⟨h, hs⟩)
      exact ⟨h, hs⟩
    · rintro ⟨h, hs⟩
      exact .cons h hs

theorem printed_array_iff {items : List Value} :
    Printed (.array items) ↔ ∀ item ∈ items, Printed item := by
  rw [← printedItems_iff]
  constructor
  · rintro (_ | _ | _ | _ | h)
    exact h
  · exact .array

theorem printed_object_iff {fields : List (JSString × Value)} : Printed (.object fields) ↔
    (∀ field ∈ fields, Printed field.2) ∧ (fields.map Prod.fst).Nodup := by
  rw [← printedFields_iff]
  constructor
  · rintro (_ | _ | _ | _ | _ | ⟨h, hnodup⟩)
    exact ⟨h, hnodup⟩
  · rintro ⟨h, hnodup⟩
    exact .object h hnodup

theorem foldl_setProperty {fields written : List (JSString × Value)}
    (h : ((written ++ fields).map Prod.fst).Nodup) :
    fields.foldl (fun fields field => setProperty fields field.1 field.2) written =
      written ++ fields := by
  induction fields generalizing written with
  | nil => simp
  | cons field fields ih =>
    have hnew : setProperty written field.1 field.2 = written ++ [field] := by
      unfold setProperty
      rw [if_neg]
      rw [List.any_eq_true]
      rintro ⟨old, hold, heq⟩
      rw [List.map_append, List.nodup_append'] at h
      exact h.2.2 (List.mem_map_of_mem hold) (by simp [of_decide_eq_true heq])
    rw [List.foldl_cons, hnew, ih (by simpa using h)]
    simp

theorem ends_cons {c : ℕ} {rest : JSString} (h : c = 44 ∨ c = 93 ∨ c = 125) :
    Ends (c :: rest) := by
  intro d hd
  obtain rfl := Option.some.inj hd
  rcases h with rfl | rfl | rfl
  all_goals exact ⟨by decide, by decide, by decide, by decide⟩

/-! ## Other spellings of the strings

A text whose strings are spelled otherwise is read back alike.
-/

mutual

def Value.stringifyWith (spell : JSString → JSString) : Value → JSString
  | .null => js "null"
  | .bool true => js "true"
  | .bool false => js "false"
  | .number text => text
  | .string s => spell s
  | .array [] => js "[]"
  | .array (item :: items) =>
    js "[" ++ item.stringifyWith spell ++ Value.stringifyItemsWith spell items
  | .object [] => js "\x7b\x7d"
  | .object ((name, value) :: fields) =>
    js "\x7b" ++ spell name ++ js ":" ++ value.stringifyWith spell ++
      Value.stringifyFieldsWith spell fields

def Value.stringifyItemsWith (spell : JSString → JSString) : List Value → JSString
  | [] => js "]"
  | item :: items =>
    js "," ++ item.stringifyWith spell ++ Value.stringifyItemsWith spell items

def Value.stringifyFieldsWith (spell : JSString → JSString) : List (JSString × Value) → JSString
  | [] => js "\x7d"
  | (name, value) :: fields =>
    js "," ++ spell name ++ js ":" ++ value.stringifyWith spell ++
      Value.stringifyFieldsWith spell fields

end

mutual

theorem Value.stringifyWith_ofString : ∀ v : Value, v.stringifyWith ofString = v.stringify
  | .null | .bool true | .bool false | .number _ | .string _ | .array [] | .object [] => rfl
  | .array (item :: items) => by
    rw [Value.stringifyWith, Value.stringify, item.stringifyWith_ofString,
      Value.stringifyItemsWith_ofString items]
  | .object ((name, value) :: fields) => by
    rw [Value.stringifyWith, Value.stringify, value.stringifyWith_ofString,
      Value.stringifyFieldsWith_ofString fields]

theorem Value.stringifyItemsWith_ofString :
    ∀ items : List Value, Value.stringifyItemsWith ofString items = Value.stringifyItems items
  | [] => rfl
  | item :: items => by
    rw [Value.stringifyItemsWith, Value.stringifyItems, item.stringifyWith_ofString,
      Value.stringifyItemsWith_ofString items]

theorem Value.stringifyFieldsWith_ofString : ∀ fields : List (JSString × Value),
    Value.stringifyFieldsWith ofString fields = Value.stringifyFields fields
  | [] => rfl
  | (name, value) :: fields => by
    rw [Value.stringifyFieldsWith, Value.stringifyFields, value.stringifyWith_ofString,
      Value.stringifyFieldsWith_ofString fields]

end

def ReadBack (spell : JSString → JSString) : Prop :=
  ∀ s, ∃ body, spell s = 34 :: body ∧ ∀ rest, readString (body ++ rest) = some (s, rest)

theorem readBack_ofString : ReadBack ofString := by
  refine fun s => ⟨escape s ++ [34], rfl, fun rest => ?_⟩
  rw [List.append_assoc]
  exact readString_escape s rest

variable {spell : JSString → JSString}

theorem Printed.head (hspell : ReadBack spell) {v : Value} (h : Printed v) :
    ∃ c rest, v.stringifyWith spell = c :: rest ∧ isBlank c = false ∧ c ≠ 93 ∧ c ≠ 125 := by
  cases h with
  | null => exact ⟨110, js "ull", rfl, rfl, by decide, by decide⟩
  | bool b =>
    cases b with
    | false => exact ⟨102, js "alse", rfl, rfl, by decide, by decide⟩
    | true => exact ⟨116, js "rue", rfl, rfl, by decide, by decide⟩
  | number h =>
    obtain ⟨c, rest, rfl, hc⟩ := h.head
    refine ⟨c, rest, rfl, Bool.eq_false_iff.mpr fun hblank => ?_, by omega, by omega⟩
    have := isBlank_iff.mp hblank
    omega
  | string s =>
    obtain ⟨body, hbody, -⟩ := hspell s
    exact ⟨34, body, hbody, rfl, by decide, by decide⟩
  | array h =>
    cases h with
    | nil => exact ⟨91, [93], rfl, rfl, by decide, by decide⟩
    | cons h hs => exact ⟨91, _, rfl, rfl, by decide, by decide⟩
  | object h _ =>
    cases h with
    | nil => exact ⟨123, [125], rfl, rfl, by decide, by decide⟩
    | cons h hs => exact ⟨123, _, rfl, rfl, by decide, by decide⟩

theorem ends_items (spell : JSString → JSString) (items : List Value) (rest : JSString) :
    Ends (Value.stringifyItemsWith spell items ++ rest) := by
  cases items with
  | nil => exact ends_cons (Or.inr (Or.inl rfl))
  | cons item items => exact ends_cons (Or.inl rfl)

theorem ends_fields (spell : JSString → JSString) (fields : List (JSString × Value))
    (rest : JSString) :
    Ends (Value.stringifyFieldsWith spell fields ++ rest) := by
  cases fields with
  | nil => exact ends_cons (Or.inr (Or.inr rfl))
  | cons field fields => exact ends_cons (Or.inl rfl)

theorem readField_stringifyWith (hspell : ReadBack spell) (name : JSString) {value : Value}
    {n : ℕ} {rest : JSString}
    (hvalue : readValue n (value.stringifyWith spell ++ rest) = some (value, rest)) :
    readField (n + 1) (spell name ++ js ":" ++ value.stringifyWith spell ++ rest) =
      some ((name, value), rest) := by
  obtain ⟨body, hbody, hread⟩ := hspell name
  have htext : spell name ++ js ":" ++ value.stringifyWith spell ++ rest =
      34 :: (body ++ 58 :: (value.stringifyWith spell ++ rest)) := by
    simp [hbody, show js ":" = [58] from rfl]
  rw [htext, readField, skipBlank_cons (by decide)]
  simp only [hread, Option.bind_eq_bind, Option.bind_some]
  rw [skipBlank_cons (by decide)]
  simp only [hvalue, Option.bind_some]

mutual

theorem readValue_stringifyWith (hspell : ReadBack spell) {v : Value} (h : Printed v) {n : ℕ}
    {rest : JSString}
    (hn : (v.stringifyWith spell).length ≤ n) (hrest : Ends rest) :
    readValue n (v.stringifyWith spell ++ rest) = some (v, rest) := by
  obtain ⟨c, tail, htail, hblank, -, -⟩ := h.head hspell
  obtain ⟨m, rfl⟩ : ∃ m, n = m + 1 := ⟨n - 1, by rw [htail, List.length_cons] at hn; omega⟩
  match h with
  | .null => rfl
  | .bool false => rfl
  | .bool true => rfl
  | @Printed.number text hnumeral =>
    obtain ⟨d, digits, rfl, hd⟩ := hnumeral.head
    obtain ⟨rfl, rfl⟩ := List.cons.inj htail
    have hread := readNumber_numeral hnumeral hrest
    change readValue (m + 1) (d :: digits ++ rest) = _
    rw [List.cons_append] at hread ⊢
    rw [readValue, skipBlank_cons hblank]
    simp only
    rw [if_neg (by omega), if_neg (by omega), if_neg (by omega), if_neg (by omega),
      if_neg (by omega), if_neg (by omega)]
    exact hread
  | .string s =>
    obtain ⟨body, hbody, hread⟩ := hspell s
    rw [Value.stringifyWith, hbody, List.cons_append, readValue, skipBlank_cons (by decide)]
    simp only [if_true, hread, Option.map_some]
  | .array .nil => rfl
  | @Printed.array _ (@PrintedItems.cons item items h hs) =>
    have htext : (Value.array (item :: items)).stringifyWith spell ++ rest =
        91 :: (item.stringifyWith spell ++ (Value.stringifyItemsWith spell items ++ rest)) := by
      simp [Value.stringifyWith, show js "[" = [91] from rfl]
    have hlength : ((Value.array (item :: items)).stringifyWith spell).length =
        1 + (item.stringifyWith spell).length + (Value.stringifyItemsWith spell items).length := by
      simp [Value.stringifyWith, show js "[" = [91] from rfl]
      omega
    obtain ⟨d, tail', htail', hblank', hclose, -⟩ := h.head hspell
    have hskip : skipBlank (item.stringifyWith spell ++
        (Value.stringifyItemsWith spell items ++ rest)) = item.stringifyWith spell ++ (Value.stringifyItemsWith spell items ++ rest) := by
      rw [htail', List.cons_append, skipBlank_cons hblank']
    rw [htext, readValue, skipBlank_cons (by decide)]
    simp only
    rw [if_neg (by decide), if_pos trivial, hskip]
    split
    · rename_i heq
      rw [htail'] at heq
      exact absurd (List.cons.inj heq).1 hclose
    · rw [readValue_stringifyWith hspell h (by omega) (ends_items spell items rest),
        Option.bind_eq_bind, Option.bind_some]
      simp only
      rw [readItems_stringifyWith hspell hs (by omega)]
      rfl
  | .object .nil _ => rfl
  | @Printed.object _ (@PrintedFields.cons name value fields h hs) hnodup =>
    have htext : (Value.object ((name, value) :: fields)).stringifyWith spell ++ rest =
        123 :: (spell name ++ js ":" ++ value.stringifyWith spell ++
          (Value.stringifyFieldsWith spell fields ++ rest)) := by
      simp [Value.stringifyWith, show js "\x7b" = [123] from rfl]
    have hlength : ((Value.object ((name, value) :: fields)).stringifyWith spell).length =
        1 + (spell name).length + 1 + (value.stringifyWith spell).length +
          (Value.stringifyFieldsWith spell fields).length := by
      simp [Value.stringifyWith, show js "\x7b" = [123] from rfl, show js ":" = [58] from rfl]
      omega
    obtain ⟨body, hbody, -⟩ := hspell name
    have hname : spell name ++ js ":" ++ value.stringifyWith spell ++
        (Value.stringifyFieldsWith spell fields ++ rest) = 34 :: (body ++ js ":" ++
          value.stringifyWith spell ++ (Value.stringifyFieldsWith spell fields ++ rest)) := by
      rw [hbody]
      rfl
    obtain ⟨k, rfl⟩ : ∃ k, m = k + 1 := ⟨m - 1, by omega⟩
    have hfield := readField_stringifyWith hspell name
      (readValue_stringifyWith hspell h (n := k) (by omega) (ends_fields spell fields rest))
    rw [htext, readValue, skipBlank_cons (by decide)]
    simp only
    rw [if_neg (by decide), if_neg (by decide), if_pos trivial, hname,
      skipBlank_cons (by decide), ← hname]
    split
    · rename_i heq
      rw [hname] at heq
      exact absurd (List.cons.inj heq).1 (by decide)
    · rw [hfield, Option.bind_eq_bind, Option.bind_some]
      simp only
      rw [readFields_stringifyWith hspell hs (by omega), Option.bind_eq_bind, Option.bind_some,
        foldl_setProperty (by simpa using hnodup)]
      rfl

theorem readItems_stringifyWith (hspell : ReadBack spell) {items : List Value}
    (h : PrintedItems items) {n : ℕ} {rest : JSString}
    (hn : (Value.stringifyItemsWith spell items).length ≤ n) :
    readItems n (Value.stringifyItemsWith spell items ++ rest) = some (items, rest) := by
  match h with
  | .nil =>
    have hpos : 1 ≤ n := hn
    obtain ⟨m, rfl⟩ : ∃ m, n = m + 1 := ⟨n - 1, by omega⟩
    rfl
  | @PrintedItems.cons item items h hs =>
    have htext : Value.stringifyItemsWith spell (item :: items) ++ rest =
        44 :: (item.stringifyWith spell ++ (Value.stringifyItemsWith spell items ++ rest)) := by
      simp [Value.stringifyItemsWith, show js "," = [44] from rfl]
    have hlength : (Value.stringifyItemsWith spell (item :: items)).length =
        1 + (item.stringifyWith spell).length + (Value.stringifyItemsWith spell items).length := by
      simp [Value.stringifyItemsWith, show js "," = [44] from rfl]
      omega
    obtain ⟨m, rfl⟩ : ∃ m, n = m + 1 := ⟨n - 1, by omega⟩
    rw [htext, readItems, skipBlank_cons (by decide)]
    simp only
    rw [readValue_stringifyWith hspell h (by omega) (ends_items spell items rest),
      Option.bind_eq_bind, Option.bind_some]
    simp only
    rw [readItems_stringifyWith hspell hs (by omega)]
    rfl

theorem readFields_stringifyWith (hspell : ReadBack spell) {fields : List (JSString × Value)}
    (h : PrintedFields fields) {n : ℕ} {rest : JSString} (hn : (Value.stringifyFieldsWith spell fields).length ≤ n) :
    readFields n (Value.stringifyFieldsWith spell fields ++ rest) = some (fields, rest) := by
  match h with
  | .nil =>
    have hpos : 1 ≤ n := hn
    obtain ⟨m, rfl⟩ : ∃ m, n = m + 1 := ⟨n - 1, by omega⟩
    rfl
  | @PrintedFields.cons name value fields h hs =>
    have htext : Value.stringifyFieldsWith spell ((name, value) :: fields) ++ rest =
        44 :: (spell name ++ js ":" ++ value.stringifyWith spell ++
          (Value.stringifyFieldsWith spell fields ++ rest)) := by
      simp [Value.stringifyFieldsWith, show js "," = [44] from rfl]
    have hlength : (Value.stringifyFieldsWith spell ((name, value) :: fields)).length =
        1 + (spell name).length + 1 + (value.stringifyWith spell).length +
          (Value.stringifyFieldsWith spell fields).length := by
      simp [Value.stringifyFieldsWith, show js "," = [44] from rfl, show js ":" = [58] from rfl]
      omega
    obtain ⟨m, rfl⟩ : ∃ m, n = m + 2 := ⟨n - 2, by omega⟩
    rw [htext, readFields, skipBlank_cons (by decide)]
    simp only
    rw [readField_stringifyWith hspell name
      (readValue_stringifyWith hspell h (by omega) (ends_fields spell fields rest)), Option.bind_eq_bind, Option.bind_some]
    simp only
    rw [readFields_stringifyWith hspell hs (by omega)]
    rfl

end

theorem Printed.parse_stringifyWith (hspell : ReadBack spell) {v : Value} (h : Printed v) :
    parse (v.stringifyWith spell) = some v := by
  have hread : readValue ((v.stringifyWith spell).length + 1) (v.stringifyWith spell ++ []) =
      some (v, []) := readValue_stringifyWith hspell h (Nat.le_succ _) nofun
  rw [List.append_nil] at hread
  rw [parse, hread]
  rfl

theorem Printed.parse_stringify {v : Value} (h : Printed v) : parse v.stringify = some v := by
  rw [← v.stringifyWith_ofString]
  exact h.parse_stringifyWith readBack_ofString

theorem parse_stringify {v : Value} (h : Plain v) : parse v.stringify = some v :=
  h.printed.parse_stringify

theorem Printed.stringify_injective {v w : Value} (hv : Printed v) (hw : Printed w)
    (h : v.stringify = w.stringify) : v = w := by
  have hread := hv.parse_stringify
  rw [h, hw.parse_stringify] at hread
  exact (Option.some.inj hread).symm

end Nifra.JSON
