import Mathlib.Data.List.TakeWhile
import Mathlib.Data.Nat.Digits.Lemmas
import Mathlib.Order.WithBot
import Mathlib.Tactic.Positivity

/-! # Natural numbers as doubles

A natural number is read as the nearest double, ties to even, and as infinity from the
overflow threshold on. The text of a double is the shortest decimal that is read back as it.
-/

namespace Double

/-- The nearest double of a natural number; `⊤` is infinity. -/
def ofNat (n : ℕ) : WithTop ℕ :=
  if n < 2 ^ 53 then (n : ℕ)
  else
    let e := Nat.log2 n - 52
    let q := n / 2 ^ e
    let r := n % 2 ^ e
    let q := if 2 ^ e < 2 * r ∨ 2 * r = 2 ^ e ∧ q % 2 = 1 then q + 1 else q
    if 2 ^ 1024 ≤ q * 2 ^ e then ⊤ else (q * 2 ^ e : ℕ)

def IsDouble (m : WithTop ℕ) : Prop := ∀ n : ℕ, m = n → ofNat n = n

theorem ofNat_of_dvd {n : ℕ} (hdvd : 2 ^ (Nat.log2 n - 52) ∣ n) (hn : n < 2 ^ 1024) :
    ofNat n = n := by
  unfold ofNat
  split_ifs with hlt
  · rfl
  have hmod : n % 2 ^ (Nat.log2 n - 52) = 0 := Nat.mod_eq_zero_of_dvd hdvd
  have hpos : 0 < 2 ^ (Nat.log2 n - 52) := by positivity
  have hdown : ¬ (2 ^ (Nat.log2 n - 52) < 2 * 0 ∨
      2 * 0 = 2 ^ (Nat.log2 n - 52) ∧ n / 2 ^ (Nat.log2 n - 52) % 2 = 1) := by omega
  dsimp only
  rw [hmod, if_neg hdown, Nat.div_mul_cancel hdvd, if_neg (not_le.mpr hn)]

theorem isDouble_ofNat (n : ℕ) : IsDouble (ofNat n) := by
  intro k hk
  unfold ofNat at hk
  split_ifs at hk with hlt
  · obtain rfl : n = k := WithTop.coe_injective hk
    unfold ofNat
    rw [if_pos hlt]
  dsimp only at hk
  generalize hq : (if 2 ^ (Nat.log2 n - 52) < 2 * (n % 2 ^ (Nat.log2 n - 52)) ∨
    2 * (n % 2 ^ (Nat.log2 n - 52)) = 2 ^ (Nat.log2 n - 52) ∧ n / 2 ^ (Nat.log2 n - 52) % 2 = 1 then
      n / 2 ^ (Nat.log2 n - 52) + 1 else n / 2 ^ (Nat.log2 n - 52)) = q at hk
  split_ifs at hk with hover
  · cases hk
  obtain rfl : q * 2 ^ (Nat.log2 n - 52) = k := WithTop.coe_injective hk
  have hn : n ≠ 0 := by omega
  have hlog : 53 ≤ Nat.log2 n := (Nat.le_log2 hn).mpr (not_lt.mp hlt)
  generalize he : Nat.log2 n - 52 = e at *
  -- the rounded significand has 53 bits, or is the next power of two
  have hlow : 2 ^ 52 ≤ n / 2 ^ e := by
    rw [Nat.le_div_iff_mul_le (by positivity), ← pow_add]
    exact (Nat.le_log2 hn).mp (by omega)
  have hhigh : n / 2 ^ e < 2 ^ 53 := by
    rw [Nat.div_lt_iff_lt_mul (by positivity), ← pow_add]
    exact (Nat.log2_lt hn).mp (by omega)
  have hq' : 2 ^ 52 ≤ q ∧ q ≤ 2 ^ 53 := by split_ifs at hq <;> omega
  refine ofNat_of_dvd ?_ (not_le.mp hover)
  rcases hq'.2.eq_or_lt with rfl | hlt'
  · rw [← pow_add, Nat.log2_two_pow]
    exact pow_dvd_pow 2 (by omega)
  · have hlog' : Nat.log2 (q * 2 ^ e) = 52 + e := by
      have hne : q * 2 ^ e ≠ 0 := Nat.mul_ne_zero (by omega) (by positivity)
      refine le_antisymm ?_ ?_
      · refine Nat.lt_succ_iff.mp ((Nat.log2_lt hne).mpr ?_)
        calc q * 2 ^ e < 2 ^ 53 * 2 ^ e := Nat.mul_lt_mul_of_pos_right hlt' (by positivity)
          _ = 2 ^ (52 + e + 1) := by rw [← pow_add]; congr 1; omega
      · refine (Nat.le_log2 hne).mpr ?_
        rw [pow_add]
        exact Nat.mul_le_mul_right _ hq'.1
    rw [hlog', Nat.add_sub_cancel_left]
    exact Nat.dvd_mul_left _ _

theorem le_ofNat {n : ℕ} (hn : 2 ^ 53 ≤ n) : ((2 ^ 53 : ℕ) : WithTop ℕ) ≤ ofNat n := by
  have hne : n ≠ 0 := by omega
  have hlog : 53 ≤ Nat.log2 n := (Nat.le_log2 hne).mpr hn
  rw [ofNat, if_neg (not_lt.mpr hn)]
  dsimp only
  generalize he : Nat.log2 n - 52 = e
  have hlow : 2 ^ 52 ≤ n / 2 ^ e := by
    rw [Nat.le_div_iff_mul_le (by positivity), ← pow_add]
    exact (Nat.le_log2 hne).mp (by omega)
  generalize hq : (if 2 ^ e < 2 * (n % 2 ^ e) ∨ 2 * (n % 2 ^ e) = 2 ^ e ∧ n / 2 ^ e % 2 = 1 then
      n / 2 ^ e + 1 else n / 2 ^ e) = q
  have hlow' : 2 ^ 52 ≤ q := by split_ifs at hq <;> omega
  split_ifs
  · exact le_top
  · have hpow : 2 ^ 1 ≤ 2 ^ e := Nat.pow_le_pow_right (by decide) (by omega)
    exact_mod_cast (show 2 ^ 53 = 2 ^ 52 * 2 ^ 1 by rfl) ▸ Nat.mul_le_mul hlow' hpow

def add : WithTop ℕ → WithTop ℕ → WithTop ℕ
  | some m, some n => ofNat (m + n)
  | _, _ => ⊤

/-- A double that counts to `n`: exactly, while a significand holds the number. -/
def Counts (d : WithTop ℕ) (n : ℕ) : Prop :=
  d = n ∧ n < 2 ^ 53 ∨ ((2 ^ 53 : ℕ) : WithTop ℕ) ≤ d ∧ 2 ^ 53 ≤ n

theorem counts_one : Counts 1 1 := Or.inl ⟨rfl, by decide⟩

theorem counts_ofNat (n : ℕ) : Counts (ofNat n) n := by
  by_cases hn : n < 2 ^ 53
  · exact Or.inl ⟨if_pos hn, hn⟩
  · exact Or.inr ⟨le_ofNat (not_lt.mp hn), not_lt.mp hn⟩

theorem Counts.add {d e : WithTop ℕ} {m n : ℕ} (hd : Counts d m) (he : Counts e n) :
    Counts (add d e) (m + n) := by
  rcases hd with ⟨rfl, hm⟩ | ⟨hd, hm⟩
  · rcases he with ⟨rfl, hn⟩ | ⟨he, hn⟩
    · exact counts_ofNat (m + n)
    · refine Or.inr ⟨?_, by omega⟩
      induction e using WithTop.recTopCoe with
      | top => exact le_top
      | coe k =>
        have hk : 2 ^ 53 ≤ k := WithTop.coe_le_coe.mp he
        exact le_ofNat (by omega)
  · refine Or.inr ⟨?_, by omega⟩
    induction d using WithTop.recTopCoe with
    | top => exact le_top
    | coe k =>
      have hk : 2 ^ 53 ≤ k := WithTop.coe_le_coe.mp hd
      induction e using WithTop.recTopCoe with
      | top => exact le_top
      | coe l => exact le_ofNat (by omega)

theorem Counts.lt_iff {d : WithTop ℕ} {n k : ℕ} (h : Counts d n) (hk : k < 2 ^ 53) :
    (k : WithTop ℕ) < d ↔ k < n := by
  rcases h with ⟨rfl, -⟩ | ⟨hd, hn⟩
  · exact Nat.cast_lt
  · have hlt : (k : WithTop ℕ) < ((2 ^ 53 : ℕ) : WithTop ℕ) := Nat.cast_lt.mpr hk
    exact ⟨fun _ => hk.trans_le hn, fun _ => hlt.trans_le hd⟩

/-- The decimal digits of a natural number, most significant first. -/
def digits (n : ℕ) : List ℕ := if n = 0 then [0] else (Nat.digits 10 n).reverse

/-- The decimal closest to a double among those with this many dropped digits that are read as
it. -/
def decimalWith (n e : ℕ) : Option ℕ :=
  let low := n / 10 ^ e * 10 ^ e
  let high := low + 10 ^ e
  if ofNat low = (n : WithTop ℕ) ∧
      (ofNat high ≠ (n : WithTop ℕ) ∨ n - low < high - n ∨ n - low = high - n ∧ n / 10 ^ e % 2 = 0) then
    some low
  else if ofNat high = (n : WithTop ℕ) then some high
  else none

/-- The shortest decimal that is read as the double: as many dropped digits as possible. -/
def shortest (n : ℕ) : ℕ :=
  ((List.range (digits n).length).reverse.findSome? (decimalWith n)).getD n

def dotted : List ℕ → List ℕ
  | d :: e :: rest => d :: 46 :: e :: rest
  | ds => ds

/-- A decimal as text: all digits up to `10 ^ 21`, and else in scientific notation. -/
def render (n : ℕ) : List ℕ :=
  let ds := digits n
  if ds.length ≤ 21 then ds.map (48 + ·)
  else
    let mantissa := (ds.reverse.dropWhile (· == 0)).reverse
    dotted (mantissa.map (48 + ·)) ++ 101 :: 43 :: (digits (ds.length - 1)).map (48 + ·)

def text : WithTop ℕ → List ℕ
  | none => [73, 110, 102, 105, 110, 105, 116, 121]
  | some n => render (shortest n)

theorem ofNat_decimalWith {n e d : ℕ} (h : decimalWith n e = some d) : ofNat d = (n : WithTop ℕ) := by
  unfold decimalWith at h
  dsimp only at h
  split_ifs at h with hlow hhigh
  · exact Option.some.inj h ▸ hlow.1
  · exact Option.some.inj h ▸ hhigh

theorem ofNat_shortest {n : ℕ} (h : ofNat n = (n : WithTop ℕ)) :
    ofNat (shortest n) = (n : WithTop ℕ) := by
  unfold shortest
  cases hd : (List.range (digits n).length).reverse.findSome? (decimalWith n) with
  | none => exact h
  | some d =>
    obtain ⟨e, -, he⟩ := List.exists_of_findSome?_eq_some hd
    exact ofNat_decimalWith he

theorem ofDigits_digits (n : ℕ) : Nat.ofDigits 10 (digits n).reverse = n := by
  unfold digits
  split_ifs with hn
  · simp [hn]
  · rw [List.reverse_reverse, Nat.ofDigits_digits]

theorem digits_injective : Function.Injective digits := fun m n h => by
  rw [← ofDigits_digits m, h, ofDigits_digits]

theorem lt_of_mem_digits {n d : ℕ} (h : d ∈ digits n) : d < 10 := by
  unfold digits at h
  split_ifs at h
  · simp_all
  · exact Nat.digits_lt_base (by norm_num) (List.mem_reverse.mp h)

theorem mem_dotted {l : List ℕ} {c : ℕ} (h : c ∈ dotted l) : c = 46 ∨ c ∈ l := by
  unfold dotted at h
  split at h
  · simp only [List.mem_cons] at h ⊢
    tauto
  · exact Or.inr h

theorem lt_of_mem_mantissa {n d : ℕ}
    (h : d ∈ ((digits n).reverse.dropWhile (· == 0)).reverse.map (48 + ·)) : 48 ≤ d ∧ d < 58 := by
  obtain ⟨e, he, rfl⟩ := List.mem_map.mp h
  have := lt_of_mem_digits
    (List.mem_reverse.mp ((List.dropWhile_sublist _).subset (List.mem_reverse.mp he)))
  omega

def IsDecimalChar (c : ℕ) : Prop := 48 ≤ c ∧ c ≤ 57 ∨ c = 46 ∨ c = 101 ∨ c = 43

theorem isDecimalChar_of_mem_render {n c : ℕ} (h : c ∈ render n) : IsDecimalChar c := by
  have hdigit {ds : List ℕ} (hds : ∀ d ∈ ds, d < 10) (hc : c ∈ ds.map (48 + ·)) :
      IsDecimalChar c := by
    obtain ⟨d, hd, rfl⟩ := List.mem_map.mp hc
    have := hds d hd
    exact Or.inl ⟨by omega, by omega⟩
  unfold render at h
  dsimp only at h
  split_ifs at h
  · exact hdigit (fun _ => lt_of_mem_digits) h
  rcases List.mem_append.mp h with h | h
  · rcases mem_dotted h with rfl | h
    · exact Or.inr (Or.inl rfl)
    · have := lt_of_mem_mantissa h
      exact Or.inl ⟨by omega, by omega⟩
  · rcases List.mem_cons.mp h with rfl | h
    · exact Or.inr (Or.inr (Or.inl rfl))
    rcases List.mem_cons.mp h with rfl | h
    · exact Or.inr (Or.inr (Or.inr rfl))
    · exact hdigit (fun _ => lt_of_mem_digits) h

theorem eq_strip_append (l : List ℕ) : l = (l.reverse.dropWhile (· == 0)).reverse ++
    List.replicate (l.length - (l.reverse.dropWhile (· == 0)).length) 0 := by
  have hzeros : l.reverse.takeWhile (· == 0) =
      List.replicate (l.length - (l.reverse.dropWhile (· == 0)).length) 0 := by
    have hlength := congrArg List.length (List.takeWhile_append_dropWhile (p := (· == 0)) (l := l.reverse))
    rw [List.length_append, List.length_reverse] at hlength
    rw [List.eq_replicate_iff]
    refine ⟨by omega, fun d hd => ?_⟩
    simpa using List.mem_takeWhile_imp hd
  have hsplit := congrArg List.reverse
    (List.takeWhile_append_dropWhile (p := (· == 0)) (l := l.reverse))
  rw [List.reverse_append, hzeros, List.reverse_replicate, List.reverse_reverse] at hsplit
  exact hsplit.symm

theorem takeWhile_append_cons {l r : List ℕ} {c : ℕ} (h : c ∉ l) :
    (l ++ c :: r).takeWhile (· != c) = l := by
  induction l with
  | nil => simp
  | cons d l ih =>
    have hd : d ≠ c := fun hd => h (hd ▸ List.mem_cons_self)
    have hl : c ∉ l := fun hl => h (List.mem_cons_of_mem _ hl)
    simp [hd, ih hl]

theorem dotted_injective : Function.Injective dotted := by
  intro l l' h
  unfold dotted at h
  split at h <;> split at h
  · simp_all
  · rename_i hl'
    exact absurd h.symm (hl' _ _ _)
  · rename_i hl _ _ _ _
    exact absurd h (hl _ _ _)
  · exact h

theorem render_injective : Function.Injective render := by
  have hmap : Function.Injective (List.map (48 + ·) : List ℕ → List ℕ) :=
    List.map_injective_iff.mpr fun _ _ => Nat.add_left_cancel
  -- the exponent is written in scientific notation only
  have hplain (n : ℕ) : 101 ∉ (digits n).map (48 + ·) := by
    intro hmem
    obtain ⟨d, hd, hd'⟩ := List.mem_map.mp hmem
    have := lt_of_mem_digits hd
    omega
  have hmantissa (n : ℕ) : 101 ∉ dotted (((digits n).reverse.dropWhile (· == 0)).reverse.map (48 + ·)) := by
    intro hmem
    have := lt_of_mem_mantissa ((mem_dotted hmem).resolve_left (by omega))
    omega
  intro m n h
  unfold render at h
  dsimp only at h
  split_ifs at h
  · exact digits_injective (hmap h)
  · exact absurd (h ▸ by simp) (hplain m)
  · exact absurd (h.symm ▸ by simp) (hplain n)
  · have hleft := congrArg (List.takeWhile (· != 101)) h
    rw [takeWhile_append_cons (hmantissa m), takeWhile_append_cons (hmantissa n)] at hleft
    have hstrip := hmap (dotted_injective hleft)
    rw [hleft] at h
    have hlength := digits_injective (hmap (List.cons_inj_right _ |>.mp
      (List.cons_inj_right _ |>.mp (List.append_cancel_left h))))
    have hlength : (digits m).length = (digits n).length := by omega
    refine digits_injective ?_
    rw [eq_strip_append (digits m), eq_strip_append (digits n), hlength,
      List.reverse_inj.mp hstrip]

theorem text_injective {m n : WithTop ℕ} (hm : IsDouble m) (hn : IsDouble n)
    (h : text m = text n) : m = n := by
  have hfinite (k : ℕ) : text ⊤ ≠ render k := by
    intro h
    have hmem : (73 : ℕ) ∈ render k := h ▸ List.mem_cons_self
    have := isDecimalChar_of_mem_render hmem
    unfold IsDecimalChar at this
    omega
  cases m with
  | top => cases n with
    | top => rfl
    | coe n => exact absurd h (hfinite _)
  | coe m => cases n with
    | top => exact absurd h.symm (hfinite _)
    | coe n =>
      exact (ofNat_shortest (hm m rfl)).symm.trans
        ((congrArg ofNat (render_injective h)).trans (ofNat_shortest (hn n rfl)))

end Double
