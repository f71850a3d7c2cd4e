import Nifra.Text.JSONValue

/-! # JSON documents

The grammar of JSON texts with the blanks in them, the tokens of a text, and the layout that
`JSON.stringify` gives a document whose strings and numbers stay as they are written.
-/

namespace Nifra.JSON

def Blanks (text : JSString) : Prop := ∀ c ∈ text, isBlank c = true

def isHex (c : ℕ) : Bool := (hexValue c).isSome

inductive StringBody : JSString → Prop
  | nil : StringBody []
  | plain {c : ℕ} {rest : JSString} (hquote : c ≠ 34) (hslash : c ≠ 92) (hcontrol : 32 ≤ c)
      (h : StringBody rest) : StringBody (c :: rest)
  | short {e : ℕ} {rest : JSString} (he : e ∈ js "\"\\/bfnrt") (h : StringBody rest) :
      StringBody (92 :: e :: rest)
  | unicode {w x y z : ℕ} {rest : JSString} (hhex : [w, x, y, z].all isHex = true)
      (h : StringBody rest) : StringBody (92 :: 117 :: w :: x :: y :: z :: rest)

def IsString (text : JSString) : Prop := ∃ body, StringBody body ∧ text = 34 :: (body ++ [34])

def Digits (text : JSString) : Prop := text ≠ [] ∧ ∀ c ∈ text, isDigit c = true

/-- An optional minus sign, an integer without leading zeros, a fraction and an exponent. -/
structure NumberParts (text sign integer fraction exponent : JSString) : Prop where
  text : text = sign ++ integer ++ fraction ++ exponent
  sign : sign = [] ∨ sign = [45]
  integer : integer = [48] ∨ Digits integer ∧ integer.head? ≠ some 48
  fraction : fraction = [] ∨ ∃ digits, Digits digits ∧ fraction = 46 :: digits
  exponent : exponent = [] ∨ ∃ e sign digits, (e = 101 ∨ e = 69) ∧
    (sign = [] ∨ sign = [43] ∨ sign = [45]) ∧ Digits digits ∧ exponent = e :: (sign ++ digits)

def IsNumber (text : JSString) : Prop :=
  ∃ sign integer fraction exponent, NumberParts text sign integer fraction exponent

def IsLiteral (text : JSString) : Prop := text = js "true" ∨ text = js "false" ∨ text = js "null"

def IsToken (text : JSString) : Prop := IsString text ∨ IsNumber text ∨ IsLiteral text

inductive Kind
  | array
  | object
  deriving DecidableEq

def Kind.opening : Kind → ℕ
  | .array => 91
  | .object => 123

def Kind.closing : Kind → ℕ
  | .array => 93
  | .object => 125

/-- A document as it is written; the entries of an object are labelled with their keys. -/
inductive Document
  | token (text : JSString)
  | container (kind : Kind) (entries : List (Option JSString × Document))

abbrev Entry := Option JSString × Document

inductive SpellsLabel : Kind → Option JSString → JSString → Prop
  | item : SpellsLabel .array none []
  | member {key back : JSString} (hkey : IsString key) (hback : Blanks back) :
      SpellsLabel .object (some key) (key ++ back ++ [58])

mutual

inductive SpellsDocument : Document → JSString → Prop
  | token {text : JSString} (h : IsToken text) : SpellsDocument (.token text) text
  | empty (kind : Kind) {blanks : JSString} (h : Blanks blanks) :
      SpellsDocument (.container kind []) (kind.opening :: (blanks ++ [kind.closing]))
  | container {kind : Kind} {entries : List Entry} {text : JSString}
      (h : SpellsEntries kind entries text) :
      SpellsDocument (.container kind entries) (kind.opening :: (text ++ [kind.closing]))

inductive SpellsEntries : Kind → List Entry → JSString → Prop
  | last {kind : Kind} {entry : Entry} {text : JSString} (h : SpellsEntry kind entry text) :
      SpellsEntries kind [entry] text
  | cons {kind : Kind} {entry : Entry} {entries : List Entry} {text rest : JSString}
      (h : SpellsEntry kind entry text) (hrest : SpellsEntries kind entries rest) :
      SpellsEntries kind (entry :: entries) (text ++ 44 :: rest)

inductive SpellsEntry : Kind → Entry → JSString → Prop
  | mk {kind : Kind} {label : Option JSString} {doc : Document}
      {front labelText mid text back : JSString} (hfront : Blanks front)
      (hlabel : SpellsLabel kind label labelText) (hmid : Blanks mid) (h : SpellsDocument doc text)
      (hback : Blanks back) :
      SpellsEntry kind (label, doc) (front ++ labelText ++ mid ++ text ++ back)

end

theorem SpellsEntries.ne_nil {kind : Kind} {entries : List Entry} {text : JSString}
    (h : SpellsEntries kind entries text) : entries ≠ [] := by
  cases h <;> exact List.cons_ne_nil _ _

inductive IsText : Document → JSString → Prop
  | mk {doc : Document} {front text back : JSString} (hfront : Blanks front) (h : SpellsDocument doc text)
      (hback : Blanks back) : IsText doc (front ++ text ++ back)


def closeString : JSString → Option (JSString × JSString)
  | [] => none
  | 34 :: rest => some ([34], rest)
  | 92 :: c :: rest => (closeString rest).map fun (body, rest) => (92 :: c :: body, rest)
  | 92 :: [] => none
  | c :: rest => (closeString rest).map fun (body, rest) => (c :: body, rest)

def isPunctuator (c : ℕ) : Bool := (js "[]\x7b\x7d:,").contains c

def isWordChar (c : ℕ) : Bool := !isBlank c && !isPunctuator c && c != 34

theorem isPunctuator_iff {c : ℕ} : isPunctuator c = true ↔
    c = 91 ∨ c = 93 ∨ c = 123 ∨ c = 125 ∨ c = 58 ∨ c = 44 := by
  have hmarks : js "[]\x7b\x7d:," = [91, 93, 123, 125, 58, 44] := by decide
  rw [isPunctuator, hmarks]
  simp

theorem isWordChar_iff {c : ℕ} : isWordChar c = true ↔
    isBlank c = false ∧ isPunctuator c = false ∧ c ≠ 34 := by
  simp [isWordChar, and_assoc]

theorem closeString_plain {c : ℕ} (hquote : c ≠ 34) (hslash : c ≠ 92) (rest : JSString) :
    closeString (c :: rest) = (closeString rest).map fun (body, rest) => (c :: body, rest) := by
  rw [closeString]
  · exact hquote
  · exact fun _ _ heq _ => hslash heq
  · exact fun heq => absurd heq hslash

theorem isHex_ne {c : ℕ} (h : isHex c = true) : c ≠ 34 ∧ c ≠ 92 := by
  constructor <;>
  · rintro rfl
    exact absurd h (by decide)

theorem closeString_body {body rest : JSString} (h : StringBody body) :
    closeString (body ++ 34 :: rest) = some (body ++ [34], rest) := by
  induction h with
  | nil => rfl
  | plain hquote hslash hcontrol h ih =>
    rw [List.cons_append, closeString_plain hquote hslash, ih]
    rfl
  | short he h ih =>
    simp only [List.cons_append, closeString, ih, Option.map_some]
  | unicode hhex h ih =>
    simp only [List.all_cons, List.all_nil, Bool.and_true, Bool.and_eq_true] at hhex
    obtain ⟨hw, hx, hy, hz⟩ := hhex
    simp only [List.cons_append, closeString, closeString_plain (isHex_ne hw).1 (isHex_ne hw).2,
      closeString_plain (isHex_ne hx).1 (isHex_ne hx).2,
      closeString_plain (isHex_ne hy).1 (isHex_ne hy).2,
      closeString_plain (isHex_ne hz).1 (isHex_ne hz).2, ih, Option.map_some]

theorem isWordChar_of_isDigit {c : ℕ} (h : isDigit c = true) : isWordChar c = true := by
  have hall : ∀ c < 58, isDigit c = true → isWordChar c = true := by decide
  exact hall c (of_decide_eq_true h).2 h

theorem word_of_isToken {text : JSString} (h : IsToken text) :
    IsString text ∨ text ≠ [] ∧ ∀ c ∈ text, isWordChar c = true := by
  have hdigits {digits : JSString} (h : Digits digits) : ∀ c ∈ digits, isWordChar c = true :=
    fun c hc => isWordChar_of_isDigit (h.2 c hc)
  rcases h with hstring | ⟨sign, integer, fraction, exponent, hparts⟩ | hliteral
  · exact Or.inl hstring
  · right
    have hinteger : integer ≠ [] ∧ ∀ c ∈ integer, isWordChar c = true := by
      rcases hparts.integer with rfl | ⟨hinteger, -⟩
      · exact ⟨by decide, by decide⟩
      · exact ⟨hinteger.1, hdigits hinteger⟩
    have hsign : ∀ c ∈ sign, isWordChar c = true := by
      rcases hparts.sign with rfl | rfl <;> decide
    have hfraction : ∀ c ∈ fraction, isWordChar c = true := by
      rcases hparts.fraction with rfl | ⟨digits, hdigit, rfl⟩
      · decide
      · exact List.forall_mem_cons.mpr ⟨by decide, hdigits hdigit⟩
    have hexponent : ∀ c ∈ exponent, isWordChar c = true := by
      rcases hparts.exponent with rfl | ⟨e, sign, digits, he, hsign, hdigit, rfl⟩
      · decide
      · refine List.forall_mem_cons.mpr ⟨?_, List.forall_mem_append.mpr ⟨?_, hdigits hdigit⟩⟩
        · rcases he with rfl | rfl <;> decide
        · rcases hsign with rfl | rfl | rfl <;> decide
    rw [hparts.text]
    exact ⟨by simp [hinteger.1], List.forall_mem_append.mpr
      ⟨List.forall_mem_append.mpr ⟨List.forall_mem_append.mpr ⟨hsign, hinteger.2⟩, hfraction⟩,
        hexponent⟩⟩
  · right
    rcases hliteral with rfl | rfl | rfl <;> decide

theorem SpellsDocument.head {doc : Document} {text : JSString} (h : SpellsDocument doc text) :
    ∃ c tail, text = c :: tail ∧ isBlank c = false ∧ c ≠ 93 ∧ c ≠ 125 := by
  cases h with
  | token h =>
    rcases word_of_isToken h with ⟨body, -, rfl⟩ | ⟨hne, hword⟩
    · exact ⟨34, _, rfl, by decide, by decide, by decide⟩
    · obtain ⟨c, tail, rfl⟩ := List.exists_cons_of_ne_nil hne
      obtain ⟨hblank, hmark, -⟩ := isWordChar_iff.mp (hword c List.mem_cons_self)
      rw [Bool.eq_false_iff, Ne, isPunctuator_iff] at hmark
      exact ⟨c, tail, rfl, hblank, by omega, by omega⟩
  | empty kind h => cases kind <;> exact ⟨_, _, rfl, by decide, by decide, by decide⟩
  | @container kind entries text h =>
    cases kind <;> exact ⟨_, _, rfl, by decide, by decide, by decide⟩

theorem length_of_closeString {text body rest : JSString} (h : closeString text = some (body, rest)) :
    rest.length < text.length := by
  induction text using closeString.induct generalizing body rest with
  | case1 => cases h
  | case2 tail =>
    obtain ⟨rfl, rfl⟩ := by simpa [closeString] using h
    simp
  | case3 c tail ih =>
    simp only [closeString, Option.map_eq_some_iff] at h
    obtain ⟨⟨body', rest'⟩, hclose, heq⟩ := h
    cases heq
    have := ih hclose
    simp only [List.length_cons]
    omega
  | case4 => cases h
  | case5 c tail h34 h92 hlast ih =>
    simp only [closeString, Option.map_eq_some_iff] at h
    obtain ⟨⟨body', rest'⟩, hclose, heq⟩ := h
    cases heq
    have := ih hclose
    simp only [List.length_cons]
    omega

def tokenize (text : JSString) : List JSString :=
  match text with
  | [] => []
  | c :: rest =>
    if isBlank c then tokenize rest
    else if c = 34 then
      match hclose : closeString rest with
      | some (body, rest') => (34 :: body) :: tokenize rest'
      | none => [34 :: rest]
    else if isPunctuator c then [c] :: tokenize rest
    else (c :: rest.takeWhile isWordChar) :: tokenize (rest.dropWhile isWordChar)
  termination_by text.length
  decreasing_by
    · simp
    · have := length_of_closeString hclose
      simp only [List.length_cons]
      omega
    · simp
    · have := (List.dropWhile_suffix isWordChar (l := rest)).length_le
      simp only [List.length_cons]
      omega

def labelTokens : Option JSString → List JSString
  | none => []
  | some key => [key, [58]]

mutual

def Document.tokens : Document → List JSString
  | .token text => [text]
  | .container kind entries =>
    [kind.opening] :: [[44]].intercalate (tokensOfEntries entries) ++ [[kind.closing]]

def tokensOfEntries : List (Option JSString × Document) → List (List JSString)
  | [] => []
  | (label, doc) :: entries => (labelTokens label ++ doc.tokens) :: tokensOfEntries entries

end

/-- A line break with its indentation; without a gap everything stays on one line. -/
def lineFeed (gap indent : JSString) : JSString := if gap = [] then [] else 10 :: indent

def labelLayout (gap : JSString) : Option JSString → JSString
  | none => []
  | some key => key ++ 58 :: if gap = [] then [] else [32]

mutual

/-- The text of a document at an indentation, as `JSON.stringify` writes it. -/
def Document.layout (gap indent : JSString) : Document → JSString
  | .token text => text
  | .container kind [] => [kind.opening, kind.closing]
  | .container kind (entry :: entries) =>
    let inner := indent ++ gap
    kind.opening :: (lineFeed gap inner
      ++ (44 :: lineFeed gap inner).intercalate (layoutEntries gap inner (entry :: entries))
      ++ lineFeed gap indent ++ [kind.closing])

def layoutEntries (gap indent : JSString) : List (Option JSString × Document) → List JSString
  | [] => []
  | (label, doc) :: entries =>
    (labelLayout gap label ++ doc.layout gap indent) :: layoutEntries gap indent entries

end

def Document.stringify (space : ℕ) (doc : Document) : JSString :=
  doc.layout (List.replicate (min space 10) 32) []

end Nifra.JSON
