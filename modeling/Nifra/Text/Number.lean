import Mathlib.Data.List.DropRight
import Nifra.Postgres.PlanWalk
import Nifra.Text.JSONValue

/-! # Counts read from texts

`Number(text)` where only a positive safe integer matters. A decimal is rounded to the nearest
double, ties to even.
-/

namespace Nifra

open JSON (hexValue isDigit natOfDigits readExponent)
open Postgres (isSpace)

def countOfNat (n : ℕ) : ℕ := if isSafeInteger n then n else 0

/-- The count that the double nearest to `p / q` is. -/
def countOfQuotient (p q : ℕ) : ℕ :=
  if q ∣ p then countOfNat (p / q)
  else if p < q then if 2 ^ 54 * (q - p) ≤ q then 1 else 0
  else
    let scale := 2 ^ (52 - Nat.log2 (p / q))
    let floor := p * scale / q
    let rest := p * scale % q
    let nearest := if q < 2 * rest ∨ 2 * rest = q ∧ floor % 2 = 1 then floor + 1 else floor
    if scale ∣ nearest then countOfNat (nearest / scale) else 0

/-- The digits of a decimal and the power of ten that they are multiplied by. -/
def readDecimal (s : JSString) : Option (ℕ × ℤ) :=
  let (integer, rest) := s.span isDigit
  let (fraction, rest) := match rest with
    | 46 :: rest => rest.span isDigit
    | rest => ([], rest)
  if integer = [] ∧ fraction = [] then none
  else match readExponent rest with
    | some (exponent, []) => some (natOfDigits (integer ++ fraction), exponent - fraction.length)
    | _ => none

def countOfDecimal (s : JSString) : ℕ :=
  match readDecimal s with
  | none => 0
  | some (digits, exponent) =>
    if 0 ≤ exponent then countOfNat (digits * 10 ^ exponent.toNat)
    else countOfQuotient digits (10 ^ (-exponent).toNat)

def countOfRadix (radix : ℕ) (s : JSString) : ℕ :=
  if s = [] then 0
  else match s.foldlM (fun n c => (hexValue c).bind fun d =>
      if d < radix then some (n * radix + d) else none) 0 with
    | none => 0
    | some n => countOfNat n

/-- The count that `Number(text)` is; 0 for any other number, and for none. -/
def countOfText (text : JSString) : ℕ :=
  match (text.dropWhile isSpace).rdropWhile isSpace with
  | 48 :: 120 :: rest => countOfRadix 16 rest
  | 48 :: 88 :: rest => countOfRadix 16 rest
  | 48 :: 111 :: rest => countOfRadix 8 rest
  | 48 :: 79 :: rest => countOfRadix 8 rest
  | 48 :: 98 :: rest => countOfRadix 2 rest
  | 48 :: 66 :: rest => countOfRadix 2 rest
  | 45 :: _ => 0
  | 43 :: rest => countOfDecimal rest
  | s => countOfDecimal s

theorem countOfNat_of_safe {n : ℕ} (h : isSafeInteger n) : countOfNat n = n := if_pos h

theorem countOfNat_cases (n : ℕ) : countOfNat n = n ∨ countOfNat n = 0 := by
  unfold countOfNat
  split
  · exact Or.inl rfl
  · exact Or.inr rfl

theorem readDecimal_decimal (n : ℕ) : readDecimal (decimal n) = some (n, 0) := by
  have hspan : (decimal n).span isDigit = (decimal n, []) := by
    have hends : JSON.Ends [] := fun c hc => by cases hc
    have hdigits := JSON.span_digits
      (fun c (hc : c ∈ decimal n) => JSON.isDigit_of_mem_decimal hc) hends
    rwa [List.append_nil] at hdigits
  have hne : decimal n ≠ [] := by
    rcases JSON.decimal_cases n with heq | ⟨c, digits, heq, -⟩ <;> simp [heq]
  simp only [readDecimal, hspan, hne, false_and, if_false, readExponent, List.append_nil,
    JSON.natOfDigits_decimal]
  rfl

theorem countOfText_decimal (n : ℕ) : countOfText (decimal n) = countOfNat n := by
  have hspace (c : ℕ) (hc : c ∈ decimal n) : isSpace c = false := by
    have hdigit := digit_of_mem_decimal hc
    simp only [isSpace, decide_eq_false_iff_not]
    omega
  have hdrop : (decimal n).dropWhile isSpace = decimal n := by
    rw [List.dropWhile_eq_self_iff]
    exact fun hpos => by simp [hspace _ (List.getElem_mem hpos)]
  have hrdrop : (decimal n).rdropWhile isSpace = decimal n := by
    rw [List.rdropWhile_eq_self_iff]
    exact fun hne => by simp [hspace _ (List.getLast_mem hne)]
  have hcount : countOfDecimal (decimal n) = countOfNat n := by
    rw [countOfDecimal, readDecimal_decimal]
    simp
  have hdigit (c : ℕ) (hc : c ∈ decimal n) : 48 ≤ c ∧ c < 58 := digit_of_mem_decimal hc
  unfold countOfText
  rw [hdrop, hrdrop]
  split
  case h_9 => exact hcount
  all_goals
    next heq =>
      simp only [heq, List.mem_cons, forall_eq_or_imp] at hdigit
      omega

end Nifra
