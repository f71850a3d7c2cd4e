import Mathlib.Data.Nat.Digits.Lemmas

/-! # Positional numerals

The number that a list of digits spells in a base, most significant digit first.
-/

namespace Nifra

def positional (base : ℕ) (digits : List ℕ) : ℕ := digits.foldl (fun n d => n * base + d) 0

variable {base : ℕ} {digits : List ℕ}

@[simp] theorem positional_nil (base : ℕ) : positional base [] = 0 := rfl

theorem positional_concat (base : ℕ) (digits : List ℕ) (d : ℕ) :
    positional base (digits ++ [d]) = positional base digits * base + d := by
  rw [positional, List.foldl_append]
  rfl

theorem positional_eq_ofDigits (base : ℕ) (digits : List ℕ) :
    positional base digits = Nat.ofDigits base digits.reverse := by
  induction digits using List.reverseRecOn with
  | nil => rfl
  | append_singleton digits d ih =>
    rw [positional_concat, ih, List.reverse_append, List.reverse_singleton, List.singleton_append,
      Nat.ofDigits_cons]
    ring

theorem positional_append (base : ℕ) (digits more : List ℕ) :
    positional base (digits ++ more)
      = positional base digits * base ^ more.length + positional base more := by
  rw [positional_eq_ofDigits, positional_eq_ofDigits, positional_eq_ofDigits, List.reverse_append,
    Nat.ofDigits_append, List.length_reverse]
  ring

theorem positional_lt (h : ∀ d ∈ digits, d < base) : positional base digits < base ^ digits.length := by
  induction digits using List.reverseRecOn with
  | nil => simp
  | append_singleton digits d ih =>
    have hd : d < base := h d (by simp)
    have hdigits := ih fun e he => h e (List.mem_append_left _ he)
    rw [positional_concat, List.length_append, List.length_singleton, pow_succ]
    calc positional base digits * base + d < positional base digits * base + base := by omega
      _ = (positional base digits + 1) * base := by ring
      _ ≤ base ^ digits.length * base := Nat.mul_le_mul_right _ hdigits

theorem positional_zeros (base n : ℕ) (digits : List ℕ) :
    positional base (List.replicate n 0 ++ digits) = positional base digits := by
  have hzeros : positional base (List.replicate n 0) = 0 := by
    induction n with
    | zero => rfl
    | succ n ih => rw [List.replicate_succ', positional_concat, ih, Nat.zero_mul]
  rw [positional_append, hzeros, Nat.zero_mul, Nat.zero_add]

theorem positional_digits (n : ℕ) : positional base (Nat.digits base n).reverse = n := by
  rw [positional_eq_ofDigits, List.reverse_reverse, Nat.ofDigits_digits]

theorem foldl_shiftLeft_or {k : ℕ} (h : ∀ d ∈ digits, d < 2 ^ k) :
    digits.foldl (fun n d => n <<< k ||| d) 0 = positional (2 ^ k) digits := by
  induction digits using List.reverseRecOn with
  | nil => rfl
  | append_singleton digits d ih =>
    have hd : d < 2 ^ k := h d (by simp)
    rw [List.foldl_append, ih fun e he => h e (List.mem_append_left _ he), positional_concat,
      List.foldl_cons, List.foldl_nil, ← Nat.shiftLeft_add_eq_or_of_lt hd, Nat.shiftLeft_eq]

end Nifra
