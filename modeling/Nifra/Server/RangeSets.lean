import Mathlib.Data.List.Sort
import Mathlib.Data.Set.Basic
import Mathlib.Order.Lattice.Nat
import Nifra.Lib.Split
import Nifra.Text.Fields

/-! # Byte ranges

`parseByteRange` reads a `Range` header against the size of a representation: one `first-last` by a
scan of its own, and every other header by its general path, which sorts and merges what the
specifiers select.
-/

namespace Nifra.Range

open JSON (isDigit natOfDigits)
open Postgres (isSpace)

/-- The source's `end` is `stop`. -/
structure ByteRange where
  start : ℕ
  stop : ℕ
  deriving DecidableEq, Repr

inductive ByteRangeResult
  | none
  | unsatisfiable
  | satisfiable (ranges : List ByteRange)
  deriving DecidableEq, Repr

def maxRangeHeaderLength : ℕ := 16 * 1024
def maxRangeSpecifiers : ℕ := 16

/-- `Number` on decimal digits. -/
def number (digits : JSString) : WithTop ℕ := Double.ofNat (natOfDigits digits)

/-- Bounds that select a byte. An empty representation has the bound -1 for `size - 1`, which the
last test covers. -/
def select (size : ℕ) (start stop : WithTop ℕ) : Option ByteRange :=
  if stop < start ∨ size ≤ start ∨ size = 0 then none else some ⟨start.untopD 0, stop.untopD 0⟩

def rangeOf (size : ℕ) (left right : JSString) : Option ByteRange :=
  if left = [] then
    let suffix := number right
    select size (if (size : WithTop ℕ) ≤ suffix then 0 else (size - suffix.untopD 0 : ℕ))
      (size - 1 : ℕ)
  else
    select size (number left)
      (if right = [] then (size - 1 : ℕ) else min (number right) (size - 1 : ℕ))

/-- `(code | 0x20) === letter`, letter by letter. -/
def foldsTo (word : JSString) (codes : JSString) : Bool := codes.map (· ||| 32) == word

def findDash : JSString → ℕ → Option ℕ → Option ℕ
  | [], _, dash => dash
  | code :: rest, index, dash =>
    if code = 45 then if dash.isSome then none else findDash rest (index + 1) (some index)
    else if code < 48 ∨ 57 < code then none else findDash rest (index + 1) dash

/-- `none` is `undefined`: the general path answers. -/
def parseSingleRange (value : JSString) (size : ℕ) : Option ByteRangeResult :=
  if value.length < 7 ∨ value[5]? ≠ some 61 ∨ foldsTo (js "bytes") (value.take 5) = false then none
  else
    let digits := value.drop 6
    (findDash digits 0 none).map fun dash =>
      let left := digits.take dash
      let right := digits.drop (dash + 1)
      if 1 < left.length ∧ left.head? = some 48 ∨ 1 < right.length ∧ right.head? = some 48 then
        .none
      else if left = [] ∧ (right = [] ∨ right = [48]) then .none
      else match rangeOf size left right with
        | none => .unsatisfiable
        | some range => .satisfiable [range]

/-- What `.` does not match. -/
def isLineTerminator (c : ℕ) : Bool := decide (c = 10 ∨ c = 13 ∨ c = 0x2028 ∨ c = 0x2029)

/-- A letter of a regular expression under the flag `i`. -/
def matchesLetter (letter code : ℕ) : Bool := code == letter || code + 32 == letter

/-- Group 1 of `/^bytes\s*=\s*(\S.*)$/i` -/
def rangeSource (value : JSString) : Option JSString :=
  if List.Forall₂ (fun letter code => matchesLetter letter code = true) (js "bytes")
      (value.take 5) then
    match (value.drop 5).dropWhile isSpace with
    | 61 :: rest =>
      let source := rest.dropWhile isSpace
      if source = [] ∨ source.any isLineTerminator then none else some source
    | _ => none
  else none

/-- The texts around the first dash of a specifier, where it is valid. -/
def specifierOf (raw : JSString) : Option (JSString × JSString) :=
  let item := trim raw
  match item.dropWhile (· != 45) with
  | [] => none
  | _ :: behind =>
    let left := trim (item.takeWhile (· != 45))
    let right := trim behind
    if left = [] ∧ (isInteger right = false ∨ right = [48]) then none
    else if left ≠ [] ∧ isInteger left = false then none
    else if right ≠ [] ∧ isInteger right = false then none
    else some (left, right)

def before (a b : ByteRange) : Bool :=
  decide (a.start < b.start ∨ a.start = b.start ∧ a.stop ≤ b.stop)

def mergeInto (merged : List ByteRange) (range : ByteRange) : List ByteRange :=
  match merged.getLast? with
  | none => merged ++ [range]
  | some previous =>
    if range.start ≤ previous.stop + 1 then
      merged.dropLast ++ [⟨previous.start, max previous.stop range.stop⟩]
    else merged ++ [range]

/-- `parseByteRange` behind the single range. -/
def parseRanges (value : JSString) (size : ℕ) : ByteRangeResult :=
  match rangeSource value with
  | none => .none
  | some source =>
    if maxRangeSpecifiers ≤ source.count 44 then .none
    else
      let valid := (source.splitOn 44).filterMap specifierOf
      let ranges := valid.filterMap fun (left, right) => rangeOf size left right
      if ranges = [] then if valid = [] then .none else .unsatisfiable
      else .satisfiable ((ranges.mergeSort before).foldl mergeInto [])

def parseByteRange (value : Option JSString) (size : ℕ) : Except JSError ByteRangeResult :=
  if isSafeInteger size = false then
    .error (.rangeError "parseByteRange: size must be a non-negative safe integer")
  else match value with
    | none => .ok .none
    | some value =>
      if maxRangeHeaderLength < value.length then .ok .none
      else match parseSingleRange value size with
        | some single => .ok single
        | none => .ok (parseRanges value size)

/-! ## What a range header selects

Every valid specifier of a header stands for a set of bytes. The ranges of a satisfiable answer are
the union of these sets, in order and apart from each other.
-/

/-- The valid specifiers: `first-last`, `first-` and `-length`. -/
inductive Specifier
  | closed (first last : ℕ)
  | onward (first : ℕ)
  | suffix (length : ℕ)

namespace Specifier

def texts : Specifier → JSString × JSString
  | closed first last => (decimal first, decimal last)
  | onward first => (decimal first, [])
  | suffix length => ([], decimal length)

def bytes (size : ℕ) : Specifier → Set ℕ
  | closed first last => {x | first ≤ x ∧ x ≤ last ∧ x < size}
  | onward first => {x | first ≤ x ∧ x < size}
  | suffix length => {x | size ≤ x + length ∧ x < size}

@[simp] theorem mem_closed {size first last x : ℕ} :
    x ∈ (closed first last).bytes size ↔ first ≤ x ∧ x ≤ last ∧ x < size := Iff.rfl

@[simp] theorem mem_onward {size first x : ℕ} :
    x ∈ (onward first).bytes size ↔ first ≤ x ∧ x < size := Iff.rfl

@[simp] theorem mem_suffix {size length x : ℕ} :
    x ∈ (suffix length).bytes size ↔ size ≤ x + length ∧ x < size := Iff.rfl

/-- A specifier with blanks around its numbers. A suffix of no bytes is none. -/
def Spelled (s : Specifier) (raw : JSString) : Prop :=
  (∀ length, s = suffix length → length ≠ 0) ∧
    ∃ a b c d, IsBlank a ∧ IsBlank b ∧ IsBlank c ∧ IsBlank d ∧
      raw = (a ++ s.texts.1 ++ b) ++ 45 :: (c ++ s.texts.2 ++ d)

end Specifier

theorem decimal_eq_zero_iff {n : ℕ} : decimal n = [48] ↔ n = 0 :=
  ⟨fun h => decimal_injective h, fun h => h ▸ rfl⟩

theorem dash_not_mem_decimal (n : ℕ) : 45 ∉ decimal n := fun h => by
  have := digit_of_mem_decimal h
  omega

theorem dash_not_mem_blank {text : JSString} (h : IsBlank text) : 45 ∉ text :=
  fun hmem => absurd (h 45 hmem) (by decide)

theorem specifierOf_append {front : JSString} (hfront : 45 ∉ front) (back : JSString) :
    specifierOf (front ++ 45 :: back) =
      if trim front = [] ∧ (isInteger (trim back) = false ∨ trim back = [48]) then none
      else if trim front ≠ [] ∧ isInteger (trim front) = false then none
      else if trim back ≠ [] ∧ isInteger (trim back) = false then none
      else some (trim front, trim back) := by
  have hdrop : ∀ c ∈ front.dropWhile isSpace, (c != 45) = true := by
    intro c hc
    rw [bne_iff_ne]
    rintro rfl
    exact hfront ((List.dropWhile_suffix _).subset hc)
  have hbehind (t : JSString) : (45 :: t).dropWhile (· != 45) = 45 :: t := rfl
  have hbefore (t : JSString) : (45 :: t).takeWhile (· != 45) = [] := rfl
  rw [specifierOf, trim_append_cons (by decide : isSpace 45 = false)]
  simp only [List.dropWhile_append_of_pos hdrop, List.takeWhile_append_of_pos hdrop, hbehind,
    hbefore, List.append_nil, trim_dropWhile, trim_rdropWhile]

theorem specifierOf_of_not_mem {raw : JSString} (hraw : 45 ∉ raw) : specifierOf raw = none := by
  have hdrop : (trim raw).dropWhile (· != 45) = [] := by
    rw [List.dropWhile_eq_nil_iff]
    intro c hc
    rw [bne_iff_ne]
    rintro rfl
    exact hraw ((List.dropWhile_suffix _).subset ((List.rdropWhile_prefix _ _).subset hc))
  simp only [specifierOf, hdrop]

theorem trim_nil : trim [] = [] := rfl

theorem specifierOf_eq_some_iff {raw left right : JSString} :
    specifierOf raw = some (left, right) ↔
      ∃ s : Specifier, s.Spelled raw ∧ s.texts = (left, right) := by
  constructor
  · intro h
    by_cases hdash : 45 ∈ raw
    · obtain ⟨front, back, rfl, hfront⟩ := List.eq_append_cons_of_mem hdash
      rw [specifierOf_append hfront] at h
      obtain ⟨a, b, ha, hb, hleft⟩ := exists_trim front
      obtain ⟨c, d, hc, hd, hright⟩ := exists_trim back
      split_ifs at h with hsuffix hleft' hright'
      obtain ⟨rfl, rfl⟩ := Prod.mk.inj (Option.some.inj h)
      have hspell (s : Specifier) (hs : ∀ length, s = .suffix length → length ≠ 0)
          (htexts : s.texts = (trim front, trim back)) :
          s.Spelled (front ++ 45 :: back) := by
        refine ⟨hs, a, b, c, d, ha, hb, hc, hd, ?_⟩
        rw [htexts, ← hleft, ← hright]
      have hnumeral {text : JSString} (hne : text ≠ [])
          (h : ¬ (text ≠ [] ∧ isInteger text = false)) : ∃ n, text = decimal n := by
        rw [← isInteger_iff]
        simpa [hne] using h
      by_cases hempty : trim front = []
      · rw [not_and] at hsuffix
        obtain ⟨hinteger, hzero⟩ := not_or.mp (hsuffix hempty)
        obtain ⟨n, hn⟩ := isInteger_iff.mp (Bool.eq_true_of_not_eq_false hinteger)
        refine ⟨.suffix n, hspell _ ?_ ?_, ?_⟩
        · rintro length ⟨⟩ rfl
          exact hzero hn
        · rw [hempty, hn]
          rfl
        · rw [hempty, hn]
          rfl
      · obtain ⟨n, hn⟩ := hnumeral hempty hleft'
        by_cases hempty' : trim back = []
        · refine ⟨.onward n, hspell _ nofun ?_, ?_⟩ <;> rw [hn, hempty'] <;> rfl
        · obtain ⟨m, hm⟩ := hnumeral hempty' hright'
          refine ⟨.closed n m, hspell _ nofun ?_, ?_⟩ <;> rw [hn, hm] <;> rfl
    · rw [specifierOf_of_not_mem hdash] at h
      cases h
  · rintro ⟨s, ⟨hs, a, b, c, d, ha, hb, hc, hd, rfl⟩, htexts⟩
    have hdash : 45 ∉ a ++ s.texts.1 ++ b := by
      simp only [List.mem_append, not_or]
      refine ⟨⟨dash_not_mem_blank ha, ?_⟩, dash_not_mem_blank hb⟩
      cases s
      exacts [dash_not_mem_decimal _, dash_not_mem_decimal _, List.not_mem_nil]
    rw [specifierOf_append hdash, trim_blanks ha _ hb, trim_blanks hc _ hd]
    cases s with
    | closed first last =>
      obtain ⟨rfl, rfl⟩ := Prod.mk.inj htexts
      simp [Specifier.texts, trim_decimal, decimal_ne_nil, isInteger_decimal]
    | onward first =>
      obtain ⟨rfl, rfl⟩ := Prod.mk.inj htexts
      simp [Specifier.texts, trim_decimal, trim_nil, decimal_ne_nil, isInteger_decimal]
    | suffix length =>
      obtain ⟨rfl, rfl⟩ := Prod.mk.inj htexts
      have hne : decimal length ≠ [48] := mt decimal_eq_zero_iff.mp (hs length rfl)
      simp [Specifier.texts, trim_decimal, trim_nil, isInteger_decimal, hne]

namespace ByteRange

def bytes (r : ByteRange) : Set ℕ := {x | r.start ≤ x ∧ x ≤ r.stop}

@[simp] theorem mem_bytes {r : ByteRange} {x : ℕ} :
    x ∈ r.bytes ↔ r.start ≤ x ∧ x ≤ r.stop := Iff.rfl

end ByteRange

theorem number_decimal (n : ℕ) : number (decimal n) = Double.ofNat n := by
  rw [number, JSON.natOfDigits_decimal]

theorem number_of_lt {n : ℕ} (hn : n < 2 ^ 53) : number (decimal n) = (n : WithTop ℕ) := by
  rw [number_decimal, Double.ofNat, if_pos hn]

theorem le_number {n : ℕ} (hn : 2 ^ 53 ≤ n) : ((2 ^ 53 : ℕ) : WithTop ℕ) ≤ number (decimal n) := by
  rw [number_decimal]
  exact Double.le_ofNat hn

theorem select_eq_none {size : ℕ} {start stop : WithTop ℕ} (h : (size : WithTop ℕ) ≤ start) :
    select size start stop = none :=
  if_pos (Or.inr (Or.inl h))

theorem select_coe (size start stop : ℕ) :
    select size (start : WithTop ℕ) (stop : WithTop ℕ) =
      if stop < start ∨ size ≤ start ∨ size = 0 then none else some ⟨start, stop⟩ := by
  simp only [select, Nat.cast_lt, Nat.cast_le]
  rfl

theorem mem_select_iff {size start stop x : ℕ} (hstop : stop ≤ size - 1) :
    (∃ r ∈ select size (start : WithTop ℕ) (stop : WithTop ℕ), x ∈ r.bytes) ↔
      start ≤ x ∧ x ≤ stop ∧ x < size := by
  rw [select_coe]
  split_ifs with h
  · simp only [Option.not_mem_none, false_and, exists_false, false_iff]
    omega
  · simp only [Option.mem_some_iff, exists_eq_left', ByteRange.mem_bytes]
    omega

theorem select_bounds {size : ℕ} {start : WithTop ℕ} {stop : ℕ} (hstop : stop ≤ size - 1)
    {r : ByteRange} (h : r ∈ select size start (stop : WithTop ℕ)) :
    r.start ≤ r.stop ∧ r.stop < size := by
  rw [select] at h
  split_ifs at h with hnone
  · cases h
  · obtain rfl := Option.some.inj h
    simp only [not_or, not_lt] at hnone
    obtain ⟨start, rfl⟩ := WithTop.ne_top_iff_exists.mp (ne_top_of_le_ne_top (by simp) hnone.1)
    constructor
    · exact WithTop.coe_le_coe.mp hnone.1
    · change stop < size
      omega

section
variable {size : ℕ} (hsize : isSafeInteger size = true)
include hsize

theorem size_lt : size < 2 ^ 53 := by
  have := of_decide_eq_true hsize
  omega

theorem min_number (n : ℕ) : min (number (decimal n)) ((size - 1 : ℕ) : WithTop ℕ) =
    (min n (size - 1) : ℕ) := by
  have hlt := size_lt hsize
  rcases Nat.lt_or_ge n (2 ^ 53) with hn | hn
  · rw [number_of_lt hn]
    norm_cast
  · rw [min_eq_right, Nat.min_eq_right (by omega)]
    refine le_trans ?_ (le_number hn)
    exact_mod_cast (show size - 1 ≤ 2 ^ 53 by omega)

theorem size_le_number {n : ℕ} (hn : 2 ^ 53 ≤ n) : (size : WithTop ℕ) ≤ number (decimal n) :=
  le_trans (by exact_mod_cast (size_lt hsize).le) (le_number hn)

theorem rangeOf_suffix (length : ℕ) : rangeOf size [] (decimal length) =
    select size (size - length : ℕ) (size - 1 : ℕ) := by
  have hlt := size_lt hsize
  simp only [rangeOf, if_pos]
  congr 1
  rcases Nat.lt_or_ge length (2 ^ 53) with hn | hn
  · simp only [number_of_lt hn, Nat.cast_le]
    split_ifs with hle
    · rw [Nat.sub_eq_zero_of_le hle]
      rfl
    · rfl
  · rw [if_pos (size_le_number hsize hn), Nat.sub_eq_zero_of_le (by omega)]
    rfl

theorem mem_select_number {first stop x : ℕ} (hstop : stop ≤ size - 1) :
    (∃ r ∈ select size (number (decimal first)) (stop : WithTop ℕ), x ∈ r.bytes) ↔
      first ≤ x ∧ x ≤ stop ∧ x < size := by
  have hlt := size_lt hsize
  rcases Nat.lt_or_ge first (2 ^ 53) with hn | hn
  · rw [number_of_lt hn, mem_select_iff hstop]
  · rw [select_eq_none (size_le_number hsize hn)]
    simp only [Option.not_mem_none, false_and, exists_false, false_iff]
    omega

theorem mem_bytes_iff (s : Specifier) (x : ℕ) :
    x ∈ s.bytes size ↔ ∃ r ∈ rangeOf size s.texts.1 s.texts.2, x ∈ r.bytes := by
  cases s with
  | closed first last =>
    simp only [Specifier.texts, rangeOf, if_neg (decimal_ne_nil _), min_number hsize]
    rw [mem_select_number hsize (Nat.min_le_right _ _), Specifier.mem_closed]
    omega
  | onward first =>
    simp only [Specifier.texts, rangeOf, if_neg (decimal_ne_nil _), if_pos]
    rw [mem_select_number hsize le_rfl, Specifier.mem_onward]
    omega
  | suffix length =>
    simp only [Specifier.texts, rangeOf_suffix hsize]
    rw [mem_select_iff le_rfl, Specifier.mem_suffix]
    omega

theorem rangeOf_bounds {s : Specifier} {r : ByteRange} (h : r ∈ rangeOf size s.texts.1 s.texts.2) :
    r.start ≤ r.stop ∧ r.stop < size := by
  cases s with
  | closed first last =>
    simp only [Specifier.texts, rangeOf, if_neg (decimal_ne_nil _), min_number hsize] at h
    exact select_bounds (Nat.min_le_right _ _) h
  | onward first =>
    simp only [Specifier.texts, rangeOf, if_neg (decimal_ne_nil _), if_pos] at h
    exact select_bounds le_rfl h
  | suffix length =>
    simp only [Specifier.texts, rangeOf, if_pos] at h
    exact select_bounds le_rfl h

end

end Nifra.Range
