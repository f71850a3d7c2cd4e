import Mathlib.Data.List.DropRight
import Nifra.Postgres.PlanWalk
import Nifra.Text.JSONValue

/-! # Texts of header fields

What readers of fields share: blanks around a text, a letter in either case, and numerals without
leading zeros.
-/

namespace Nifra

open Postgres (isSpace)

theorem or_32_eq_iff {code letter : ℕ} (hletter : 97 ≤ letter ∧ letter ≤ 122) :
    code ||| 32 = letter ↔ code = letter ∨ code + 32 = letter := by
  have hall : ∀ code ≤ 122, 97 ≤ code ||| 32 → code ||| 32 = code ∨ code ||| 32 = code + 32 := by
    decide
  have hletters : ∀ code ≤ 122, 97 ≤ code → code ||| 32 = code ∧ code - 32 ||| 32 = code := by
    decide
  constructor
  · intro h
    have hle : code ≤ code ||| 32 := Nat.left_le_or
    rcases hall code (by omega) (by omega) with heq | heq
    · exact Or.inl (heq.symm.trans h)
    · exact Or.inr (heq.symm.trans h)
  · have hself := hletters letter hletter.2 hletter.1
    rintro (rfl | rfl)
    · exact hself.1
    · rw [Nat.add_sub_cancel] at hself
      exact hself.2

/-- `text.trim()` -/
def trim (text : JSString) : JSString := (text.dropWhile isSpace).rdropWhile isSpace

def IsBlank (text : JSString) : Prop := ∀ c ∈ text, isSpace c = true

theorem isBlank_nil : IsBlank [] := fun _ hc => nomatch hc

theorem isBlank_takeWhile (text : JSString) : IsBlank (text.takeWhile isSpace) :=
  fun _ hc => List.mem_takeWhile_imp hc

theorem isBlank_rtakeWhile (text : JSString) : IsBlank (text.rtakeWhile isSpace) :=
  fun _ hc => List.mem_takeWhile_imp (List.mem_reverse.mp hc)

theorem rdropWhile_append_blank (s : JSString) {back : JSString} (hback : IsBlank back) :
    (s ++ back).rdropWhile isSpace = s.rdropWhile isSpace := by
  rw [List.rdropWhile, List.reverse_append,
    List.dropWhile_append_of_pos fun c hc => hback c (List.mem_reverse.mp hc), List.rdropWhile]

theorem trim_blanks {front back : JSString} (hfront : IsBlank front) (s : JSString)
    (hback : IsBlank back) : trim (front ++ s ++ back) = trim s := by
  rw [trim, List.append_assoc, List.dropWhile_append_of_pos hfront, List.dropWhile_append]
  split_ifs with hempty
  · rw [List.dropWhile_eq_nil_iff.mpr hback, trim, List.isEmpty_iff.mp hempty]
  · exact rdropWhile_append_blank _ hback

theorem exists_trim (text : JSString) :
    ∃ front back, IsBlank front ∧ IsBlank back ∧ text = front ++ trim text ++ back := by
  refine ⟨text.takeWhile isSpace, (text.dropWhile isSpace).rtakeWhile isSpace,
    isBlank_takeWhile text, isBlank_rtakeWhile _, ?_⟩
  rw [trim, List.append_assoc, List.rdropWhile_append_rtakeWhile,
    List.takeWhile_append_dropWhile]

theorem trim_dropWhile (text : JSString) : trim (text.dropWhile isSpace) = trim text := by
  have h := trim_blanks (isBlank_takeWhile text) (text.dropWhile isSpace) isBlank_nil
  rw [List.append_nil, List.takeWhile_append_dropWhile] at h
  exact h.symm

theorem trim_rdropWhile (text : JSString) : trim (text.rdropWhile isSpace) = trim text := by
  have h := trim_blanks isBlank_nil (text.rdropWhile isSpace) (isBlank_rtakeWhile text)
  rw [List.nil_append, List.rdropWhile_append_rtakeWhile] at h
  exact h.symm

theorem trim_append_cons {c : ℕ} (hc : isSpace c = false) (front back : JSString) :
    trim (front ++ c :: back) = front.dropWhile isSpace ++ c :: back.rdropWhile isSpace := by
  have hfront : (front ++ c :: back).dropWhile isSpace = front.dropWhile isSpace ++ c :: back := by
    rw [List.dropWhile_append]
    split_ifs with hempty
    · rw [List.dropWhile_cons_of_neg (by simp [hc]), List.isEmpty_iff.mp hempty, List.nil_append]
    · rfl
  have hback : (back.reverse ++ [c] ++ (front.dropWhile isSpace).reverse).dropWhile isSpace =
      back.reverse.dropWhile isSpace ++ [c] ++ (front.dropWhile isSpace).reverse := by
    rw [List.append_assoc, List.dropWhile_append]
    split_ifs with hempty
    · rw [List.singleton_append, List.dropWhile_cons_of_neg (by simp [hc]),
        List.isEmpty_iff.mp hempty]
      rfl
    · rw [List.append_assoc]
  rw [trim, hfront, List.rdropWhile]
  simp only [List.reverse_append, List.reverse_cons, hback]
  simp [List.rdropWhile]

theorem trim_eq_self {text : JSString} (h : ∀ c ∈ text, isSpace c = false) : trim text = text := by
  have hdrop : text.dropWhile isSpace = text := by
    rw [List.dropWhile_eq_self_iff]
    exact fun hpos => by simp [h _ (List.getElem_mem hpos)]
  rw [trim, hdrop, List.rdropWhile_eq_self_iff]
  exact fun hne => by simp [h _ (List.getLast_mem hne)]

/-- `/^(?:0|[1-9]\d*)$/` -/
def isInteger : JSString → Bool
  | [] => false
  | [48] => true
  | c :: rest => decide (49 ≤ c ∧ c ≤ 57) && rest.all JSON.isDigit

theorem isSpace_of_digit {c : ℕ} (h : 48 ≤ c ∧ c < 58) : isSpace c = false := by
  rw [isSpace, decide_eq_false_iff_not]
  omega

theorem isInteger_decimal (n : ℕ) : isInteger (decimal n) = true := by
  have hdigits (c : ℕ) (hc : c ∈ decimal n) := digit_of_mem_decimal hc
  rcases JSON.decimal_cases n with heq | ⟨c, digits, heq, hne⟩
  · rw [heq]
    rfl
  · rw [heq] at hdigits ⊢
    have hc := hdigits c List.mem_cons_self
    unfold isInteger
    split
    · rename_i heq'
      cases heq'
    · rfl
    · rename_i heq'
      cases heq'
      rw [Bool.and_eq_true, decide_eq_true_eq, List.all_eq_true]
      exact ⟨by omega, fun d hd => decide_eq_true (hdigits d (List.mem_cons_of_mem c hd))⟩

theorem exists_decimal_of_digits {c : ℕ} {digits : JSString} (hc : 49 ≤ c ∧ c ≤ 57)
    (hdigits : ∀ d ∈ digits, 48 ≤ d ∧ d < 58) : ∃ n, c :: digits = decimal n := by
  have hall (d : ℕ) (hd : d ∈ c :: digits) : 48 ≤ d ∧ d < 58 := by
    rcases List.mem_cons.mp hd with rfl | hd
    · omega
    · exact hdigits d hd
  refine ⟨Nat.ofDigits 10 ((c :: digits).map (· - 48)).reverse, ?_⟩
  have hvalues : Nat.digits 10 (Nat.ofDigits 10 ((c :: digits).map (· - 48)).reverse) =
      ((c :: digits).map (· - 48)).reverse := by
    refine Nat.digits_ofDigits 10 (by decide) _ (fun d hd => ?_) fun hne => ?_
    · obtain ⟨e, he, rfl⟩ := List.mem_map.mp (List.mem_reverse.mp hd)
      have := hall e he
      omega
    · simp only [List.getLast_reverse, List.map_cons, List.head_cons]
      omega
  have hne : Nat.ofDigits 10 ((c :: digits).map (· - 48)).reverse ≠ 0 := by
    intro hzero
    rw [hzero, Nat.digits_zero] at hvalues
    simp at hvalues
  rw [decimal, Double.digits, if_neg hne, hvalues, List.reverse_reverse, List.map_map]
  symm
  refine (List.map_congr_left fun d hd => ?_).trans (List.map_id _)
  have := hall d hd
  simp only [Function.comp_apply, id_eq]
  omega

theorem isInteger_iff {text : JSString} : isInteger text = true ↔ ∃ n, text = decimal n := by
  constructor
  · intro h
    unfold isInteger at h
    split at h
    · cases h
    · exact ⟨0, rfl⟩
    · rw [Bool.and_eq_true, decide_eq_true_eq, List.all_eq_true] at h
      exact exists_decimal_of_digits h.1 fun d hd => of_decide_eq_true (h.2 d hd)
  · rintro ⟨n, rfl⟩
    exact isInteger_decimal n

theorem decimal_ne_nil (n : ℕ) : decimal n ≠ [] := by
  rcases JSON.decimal_cases n with heq | ⟨c, digits, heq, -⟩ <;> simp [heq]

theorem trim_decimal (n : ℕ) : trim (decimal n) = decimal n :=
  trim_eq_self fun _ hc => isSpace_of_digit (digit_of_mem_decimal hc)

end Nifra
