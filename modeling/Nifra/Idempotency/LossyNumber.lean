import Mathlib.Tactic.Common
import Nifra.Text.JSONValue

/-! # Numbers that no double holds

`mayHoldLossyNumber` looks for a long run of digits and dots at every sixteenth index only, and for
a negative exponent of three digits behind every minus sign.
-/

namespace Nifra.Idempotency

def isDigit (code : ℕ) : Bool := decide (48 ≤ code ∧ code ≤ 57)

def isDigitOrDot (code : ℕ) : Bool := isDigit code || code == 46

/-- Whether a predicate holds of `text.charCodeAt(i)`, which is no number behind the end. -/
def holdsAt (p : ℕ → Bool) (text : JSString) (i : ℕ) : Bool := text[i]?.any p

/-- `start`, moved down while the character before it is a digit or a dot. -/
def runStart (text : JSString) : ℕ → ℕ
  | 0 => 0
  | start + 1 => if holdsAt isDigitOrDot text start then runStart text start else start + 1

/-- `stop`, moved up while the character at it is a digit or a dot. -/
def runStop (text : JSString) (stop : ℕ) : ℕ :=
  stop + ((text.drop stop).takeWhile isDigitOrDot).length

def probe (text : JSString) (i : ℕ) : Bool :=
  holdsAt isDigitOrDot text i && decide (16 ≤ runStop text (i + 1) - runStart text i)

/-- A minus sign with `e` or `E` before it, and behind it zeros and then three digits. -/
def smallExponentAt (text : JSString) (i : ℕ) : Bool :=
  decide (1 ≤ i) && holdsAt (fun code => (code ||| 32) == 101) text (i - 1) &&
    let digit := (text.drop (i + 1)).dropWhile (· == 48)
    holdsAt isDigit digit 0 && holdsAt isDigit digit 1 && holdsAt isDigit digit 2

/-- `mayHoldLossyNumber`: the indexes `15, 31, …` are probed, and every `-` is looked at. -/
def mayHoldLossyNumber (text : JSString) : Bool :=
  ((List.range (text.length / 16)).any fun k => probe text (16 * k + 15)) ||
    (List.range text.length).any fun i => text[i]? == some 45 && smallExponentAt text i

def LongRun (text : JSString) : Prop :=
  ∃ run, run <:+: text ∧ 16 ≤ run.length ∧ ∀ c ∈ run, isDigitOrDot c = true

theorem holdsAt_iff {p : ℕ → Bool} {text : JSString} {i : ℕ} :
    holdsAt p text i = true ↔ ∃ c, text[i]? = some c ∧ p c = true := by
  rw [holdsAt, Option.any_eq_true]

theorem runStart_le (text : JSString) (start : ℕ) : runStart text start ≤ start := by
  induction start with
  | zero => exact le_rfl
  | succ start ih =>
    rw [runStart]
    split_ifs
    exacts [ih.trans (Nat.le_succ start), le_rfl]

theorem holdsAt_of_runStart_le {text : JSString} {start i : ℕ} (hle : runStart text start ≤ i)
    (hlt : i < start) : holdsAt isDigitOrDot text i = true := by
  induction start with
  | zero => exact absurd hlt (Nat.not_lt_zero i)
  | succ start ih =>
    rw [runStart] at hle
    split_ifs at hle with hstart
    · rcases Nat.lt_succ_iff_lt_or_eq.mp hlt with hlt | rfl
      exacts [ih hle hlt, hstart]
    · omega

theorem runStart_le_of_forall {text : JSString} {start low : ℕ} (hlow : low ≤ start)
    (h : ∀ i, low ≤ i → i < start → holdsAt isDigitOrDot text i = true) :
    runStart text start ≤ low := by
  induction start with
  | zero => exact Nat.zero_le low
  | succ start ih =>
    rcases Nat.le_succ_iff.mp hlow with hle | rfl
    · rw [runStart, if_pos (h start hle (Nat.lt_succ_self start))]
      exact ih hle fun i hi hlt => h i hi (hlt.trans (Nat.lt_succ_self start))
    · exact runStart_le text _

theorem le_length_takeWhile_iff {p : ℕ → Bool} {text : JSString} {n : ℕ} :
    n ≤ (text.takeWhile p).length ↔ ∀ i < n, holdsAt p text i = true := by
  induction text generalizing n with
  | nil =>
    rw [List.takeWhile_nil, List.length_nil, Nat.le_zero]
    constructor
    · rintro rfl i hi
      exact absurd hi (Nat.not_lt_zero i)
    · intro h
      by_contra hn
      exact absurd (h 0 (Nat.pos_of_ne_zero hn)) (by simp [holdsAt])
  | cons c text ih =>
    cases n with
    | zero => simp
    | succ n =>
      cases hc : p c with
      | true =>
        rw [List.takeWhile_cons_of_pos hc, List.length_cons, Nat.succ_le_succ_iff, ih]
        constructor
        · rintro h (_ | i) hi
          · exact holdsAt_iff.mpr ⟨c, rfl, hc⟩
          · exact h i (Nat.lt_of_succ_lt_succ hi)
        · intro h i hi
          exact h (i + 1) (Nat.succ_lt_succ hi)
      | false =>
        rw [List.takeWhile_cons_of_neg (by simp [hc])]
        constructor
        · intro h
          exact absurd h (Nat.not_succ_le_zero n)
        · intro h
          obtain ⟨d, hd, hp⟩ := holdsAt_iff.mp (h 0 (Nat.succ_pos n))
          cases hd
          exact absurd hp (by simp [hc])

theorem holdsAt_drop {p : ℕ → Bool} {text : JSString} {n i : ℕ} :
    holdsAt p (text.drop n) i = holdsAt p text (n + i) := by
  rw [holdsAt, List.getElem?_drop, holdsAt]

theorem le_runStop_iff {text : JSString} {stop high : ℕ} (hhigh : stop ≤ high) :
    high ≤ runStop text stop ↔ ∀ i, stop ≤ i → i < high → holdsAt isDigitOrDot text i = true := by
  have hlength : high ≤ runStop text stop ↔
      high - stop ≤ ((text.drop stop).takeWhile isDigitOrDot).length := by
    unfold runStop
    omega
  rw [hlength, le_length_takeWhile_iff]
  constructor
  · intro h i hi hlt
    have := h (i - stop) (by omega)
    rwa [holdsAt_drop, Nat.add_sub_cancel' hi] at this
  · intro h i hi
    rw [holdsAt_drop]
    exact h (stop + i) (Nat.le_add_right stop i) (by omega)

theorem holdsAt_lt {p : ℕ → Bool} {text : JSString} {i : ℕ} (h : holdsAt p text i = true) :
    i < text.length := by
  obtain ⟨c, hc, -⟩ := holdsAt_iff.mp h
  exact (List.getElem?_eq_some_iff.mp hc).1

theorem longRun_iff {text : JSString} :
    LongRun text ↔ ∃ low, ∀ i, low ≤ i → i < low + 16 → holdsAt isDigitOrDot text i = true := by
  constructor
  · rintro ⟨run, ⟨before, after, rfl⟩, hlength, hrun⟩
    refine ⟨before.length, fun i hi hlt => ?_⟩
    have hin : i - before.length < run.length := by omega
    rw [holdsAt, List.append_assoc, List.getElem?_append_right hi, List.getElem?_append_left hin,
      List.getElem?_eq_getElem hin]
    exact hrun _ (List.getElem_mem hin)
  · rintro ⟨low, h⟩
    have hlength : ((text.drop low).take 16).length = 16 := by
      have hlt := holdsAt_lt (h (low + 15) (by omega) (by omega))
      rw [List.length_take, List.length_drop]
      omega
    refine ⟨(text.drop low).take 16, ?_, hlength.ge, fun c hc => ?_⟩
    · exact (List.take_prefix 16 _).isInfix.trans (List.drop_suffix low text).isInfix
    · obtain ⟨i, hi, rfl⟩ := List.getElem_of_mem hc
      rw [hlength] at hi
      obtain ⟨c, hc, hdigit⟩ := holdsAt_iff.mp (h (low + i) (by omega) (by omega))
      rw [List.getElem_take, List.getElem_drop]
      rw [List.getElem?_eq_some_iff] at hc
      obtain ⟨_, rfl⟩ := hc
      exact hdigit

theorem any_probe_iff {text : JSString} :
    ((List.range (text.length / 16)).any fun k => probe text (16 * k + 15)) = true ↔
      LongRun text := by
  rw [List.any_eq_true, longRun_iff]
  constructor
  · rintro ⟨k, -, hprobe⟩
    rw [probe, Bool.and_eq_true, decide_eq_true_eq] at hprobe
    obtain ⟨hat, hlength⟩ := hprobe
    refine ⟨runStart text (16 * k + 15), fun i hi hlt => ?_⟩
    have hstop : 16 * k + 15 + 1 ≤ runStop text (16 * k + 15 + 1) := Nat.le_add_right _ _
    rcases Nat.lt_trichotomy i (16 * k + 15) with hbefore | rfl | hafter
    · exact holdsAt_of_runStart_le hi hbefore
    · exact hat
    · exact (le_runStop_iff hstop).mp le_rfl i hafter (by omega)
  · rintro ⟨low, h⟩
    have hlt := holdsAt_lt (h (low + 15) (by omega) (by omega))
    refine ⟨low / 16, List.mem_range.mpr (by omega), ?_⟩
    have hstart : runStart text (16 * (low / 16) + 15) ≤ low :=
      runStart_le_of_forall (by omega) fun i hi hlt => h i hi (by omega)
    have hstop : low + 16 ≤ runStop text (16 * (low / 16) + 15 + 1) :=
      (le_runStop_iff (by omega)).mpr fun i hi hlt => h i (by omega) hlt
    rw [probe, Bool.and_eq_true, decide_eq_true_eq]
    exact ⟨h _ (by omega) (by omega), by omega⟩

/-- `e` or `E`, a minus sign, zeros, and three digits, of which the first is as `first` says. -/
def NegativeExponent (first : ℕ → Prop) (text : JSString) : Prop :=
  ∃ (e : ℕ) (zeros : JSString) (a b c : ℕ), (e = 101 ∨ e = 69) ∧ (∀ z ∈ zeros, z = 48) ∧ first a ∧
    isDigit a = true ∧ isDigit b = true ∧ isDigit c = true ∧
    e :: 45 :: (zeros ++ [a, b, c]) <:+: text

theorem or_32_eq_101_iff {code : ℕ} : code ||| 32 = 101 ↔ code = 101 ∨ code = 69 := by
  constructor
  · intro h
    have hle : code ≤ 101 := h ▸ Nat.left_le_or
    have hall : ∀ code < 102, code ||| 32 = 101 → code = 101 ∨ code = 69 := by decide
    exact hall code (Nat.lt_succ_of_le hle) h
  · rintro (rfl | rfl) <;> rfl

theorem dropWhile_zeros {zeros rest : JSString} {a : ℕ} (hzeros : ∀ z ∈ zeros, z = 48)
    (ha : a ≠ 48) : (zeros ++ a :: rest).dropWhile (· == 48) = a :: rest := by
  rw [List.dropWhile_append_of_pos (by simpa using hzeros),
    List.dropWhile_cons_of_neg (by simpa using ha)]

theorem smallExponentAt_iff {text : JSString} {i : ℕ} :
    text[i]? = some 45 ∧ smallExponentAt text i = true ↔
      ∃ (front : JSString) (e : ℕ) (zeros : JSString) (a b c : ℕ) (rest : JSString),
        i = front.length + 1 ∧ text = front ++ e :: 45 :: (zeros ++ a :: b :: c :: rest) ∧
        (e = 101 ∨ e = 69) ∧ (∀ z ∈ zeros, z = 48) ∧ a ≠ 48 ∧
        isDigit a = true ∧ isDigit b = true ∧ isDigit c = true := by
  constructor
  · rintro ⟨hminus, h⟩
    simp only [smallExponentAt, Bool.and_eq_true, decide_eq_true_eq] at h
    obtain ⟨⟨hpos, he⟩, hdigits⟩ := h
    obtain ⟨i, rfl⟩ := Nat.exists_eq_succ_of_ne_zero (Nat.one_le_iff_ne_zero.mp hpos)
    obtain ⟨e, he, hcode⟩ := holdsAt_iff.mp he
    rw [beq_iff_eq, or_32_eq_101_iff] at hcode
    have htext : text = text.take i ++ e :: 45 :: text.drop (i + 2) := by
      obtain ⟨hi, rfl⟩ := List.getElem?_eq_some_iff.mp he
      obtain ⟨hi', hget⟩ := List.getElem?_eq_some_iff.mp hminus
      rw [← hget]
      simp only [Nat.succ_eq_add_one, Nat.add_sub_cancel, List.getElem_cons_drop,
        List.take_append_drop]
    have hsplit := List.takeWhile_append_dropWhile (p := (· == 48)) (l := text.drop (i + 2))
    have hhead := List.head?_dropWhile_not (· == 48) (text.drop (i + 2))
    revert hdigits hsplit hhead
    rcases (text.drop (i + 2)).dropWhile (· == 48) with _ | ⟨a, _ | ⟨b, _ | ⟨c, rest⟩⟩⟩
    · simp [holdsAt]
    · simp [holdsAt]
    · simp [holdsAt]
    · rintro ⟨⟨ha, hb⟩, hc⟩ hsplit hhead
      refine ⟨text.take i, e, _, a, b, c, rest, ?_, by rw [hsplit]; exact htext, hcode, ?_, ?_,
        by simpa [holdsAt] using ha, by simpa [holdsAt] using hb, by simpa [holdsAt] using hc⟩
      · have hi : i < text.length := (List.getElem?_eq_some_iff.mp he).1
        rw [List.length_take, Nat.min_eq_left hi.le]
      · intro z hz
        simpa using List.mem_takeWhile_imp hz
      · simpa using hhead
  · rintro ⟨front, e, zeros, a, b, c, rest, rfl, rfl, he, hzeros, hne, ha, hb, hc⟩
    have hdrop : (front ++ e :: 45 :: (zeros ++ a :: b :: c :: rest)).drop (front.length + 1 + 1) =
        zeros ++ a :: b :: c :: rest := by
      rw [Nat.add_assoc, List.drop_length_add_append]
      rfl
    constructor
    · simp
    · rw [smallExponentAt, hdrop, dropWhile_zeros hzeros hne]
      have hcode := or_32_eq_101_iff.mpr he
      simp [holdsAt, hcode, ha, hb, hc]

theorem any_smallExponentAt_iff {text : JSString} :
    ((List.range text.length).any fun i => text[i]? == some 45 && smallExponentAt text i) = true ↔
      NegativeExponent (· ≠ 48) text := by
  simp only [List.any_eq_true, List.mem_range, Bool.and_eq_true, beq_iff_eq, smallExponentAt_iff]
  constructor
  · rintro ⟨-, -, front, e, zeros, a, b, c, rest, -, rfl, he, hzeros, hne, ha, hb, hc⟩
    exact ⟨e, zeros, a, b, c, he, hzeros, hne, ha, hb, hc, front, rest, by simp⟩
  · rintro ⟨e, zeros, a, b, c, he, hzeros, hne, ha, hb, hc, front, rest, rfl⟩
    refine ⟨front.length + 1, ?_, front, e, zeros, a, b, c, rest, rfl, by simp, he, hzeros, hne, ha,
      hb, hc⟩
    simp

theorem mayHoldLossyNumber_iff {text : JSString} :
    mayHoldLossyNumber text = true ↔ LongRun text ∨ NegativeExponent (· ≠ 48) text := by
  rw [mayHoldLossyNumber, Bool.or_eq_true, any_probe_iff, any_smallExponentAt_iff]

open JSON (natOfDigits readExponent readFraction readInteger readNumeral readSign)

theorem foldl_digits_lt {digits : JSString} (hdigits : ∀ c ∈ digits, JSON.isDigit c = true)
    (n : ℕ) : digits.foldl (fun n c => 10 * n + (c - 48)) n < (n + 1) * 10 ^ digits.length := by
  induction digits generalizing n with
  | nil => simp
  | cons c digits ih =>
    have hc := of_decide_eq_true (hdigits c List.mem_cons_self)
    have hle : 10 * n + (c - 48) + 1 ≤ (n + 1) * 10 := by omega
    calc (c :: digits).foldl (fun n c => 10 * n + (c - 48)) n
        < (10 * n + (c - 48) + 1) * 10 ^ digits.length :=
          ih (fun d hd => hdigits d (List.mem_cons_of_mem c hd)) _
      _ ≤ (n + 1) * 10 * 10 ^ digits.length := Nat.mul_le_mul_right _ hle
      _ = (n + 1) * 10 ^ (c :: digits).length := by
          rw [List.length_cons, Nat.pow_succ', Nat.mul_assoc]

theorem natOfDigits_zeros {zeros digits : JSString} (hzeros : ∀ z ∈ zeros, z = 48) :
    natOfDigits (zeros ++ digits) = natOfDigits digits := by
  have hzero : zeros.foldl (fun n c => 10 * n + (c - 48)) 0 = 0 := by
    induction zeros with
    | nil => rfl
    | cons z zeros ih =>
      rw [List.foldl_cons, hzeros z List.mem_cons_self]
      exact ih fun z hz => hzeros z (List.mem_cons_of_mem _ hz)
  rw [natOfDigits, List.foldl_append, hzero, natOfDigits]

theorem exists_digits {digits : JSString} (hdigits : ∀ c ∈ digits, JSON.isDigit c = true)
    (h : 100 ≤ natOfDigits digits) : ∃ (zeros : JSString) (a b c : ℕ) (rest : JSString),
      digits = zeros ++ a :: b :: c :: rest ∧ (∀ z ∈ zeros, z = 48) ∧ a ≠ 48 := by
  have hzeros : ∀ z ∈ digits.takeWhile (· == 48), z = 48 := fun z hz => by
    simpa using List.mem_takeWhile_imp hz
  have hsplit := List.takeWhile_append_dropWhile (p := (· == 48)) (l := digits)
  have hhead := List.head?_dropWhile_not (· == 48) digits
  have hrest : ∀ c ∈ digits.dropWhile (· == 48), JSON.isDigit c = true := fun c hc =>
    hdigits c ((List.dropWhile_suffix _).subset hc)
  have hlt := foldl_digits_lt hrest 0
  rw [← hsplit, natOfDigits_zeros hzeros] at h
  change natOfDigits _ < _ at hlt
  revert h hhead hlt hsplit
  rcases digits.dropWhile (· == 48) with _ | ⟨a, _ | ⟨b, _ | ⟨c, rest⟩⟩⟩
  · intro h hsplit hhead hlt
    exact absurd (h.trans_lt hlt) (by decide)
  · intro h hsplit hhead hlt
    exact absurd (h.trans_lt hlt) (by simp)
  · intro h hsplit hhead hlt
    exact absurd (h.trans_lt hlt) (by simp)
  · intro h hsplit hhead hlt
    exact ⟨_, a, b, c, rest, hsplit.symm, hzeros, by simpa using hhead⟩

theorem readInteger_suffix {s integer tail : JSString}
    (h : readInteger s = some (integer, tail)) : tail <:+ s := by
  cases s with
  | nil => cases h
  | cons c s =>
    rw [readInteger, List.span_eq_takeWhile_dropWhile] at h
    split_ifs at h
    · obtain ⟨-, rfl⟩ := Prod.mk.inj (Option.some.inj h)
      exact List.suffix_cons c s
    · obtain ⟨-, rfl⟩ := Prod.mk.inj (Option.some.inj h)
      exact List.dropWhile_suffix _

theorem readFraction_suffix {s fraction tail : JSString}
    (h : readFraction s = some (fraction, tail)) : tail <:+ s := by
  unfold readFraction at h
  split at h
  · rw [List.span_eq_takeWhile_dropWhile] at h
    simp only at h
    split_ifs at h
    cases h
    exact (List.dropWhile_suffix _).trans (List.suffix_cons _ _)
  · cases h
    exact List.suffix_refl _

theorem readSign_true {s rest : JSString} (h : readSign s = (true, rest)) : s = 45 :: rest := by
  unfold readSign at h
  split at h <;> cases h
  rfl

theorem negativeExponent_of_readExponent {s tail : JSString} {exponent : ℤ}
    (h : readExponent s = some (exponent, tail)) (hle : exponent ≤ -100) :
    NegativeExponent (· ≠ 48) s := by
  cases s with
  | nil =>
    cases h
    exact absurd hle (by decide)
  | cons e s =>
    simp only [readExponent, List.span_eq_takeWhile_dropWhile] at h
    rcases hsign : readSign s with ⟨negative, rest⟩
    simp only [hsign] at h
    by_cases he : e = 101 ∨ e = 69
    · rw [if_pos he] at h
      split_ifs at h with hempty hnegative
      · obtain ⟨rfl, -⟩ := Prod.mk.inj (Option.some.inj h)
        subst hnegative
        obtain rfl := readSign_true hsign
        have hdigits : ∀ c ∈ rest.takeWhile JSON.isDigit, JSON.isDigit c = true :=
          fun c hc => List.mem_takeWhile_imp hc
        obtain ⟨zeros, a, b, c, tail', heq, hzeros, hne⟩ := exists_digits hdigits (by omega)
        have hdigit : ∀ d ∈ [a, b, c], isDigit d = true := by
          intro d hd
          have hmem : d ∈ rest.takeWhile JSON.isDigit := by
            rw [heq]
            simp only [List.mem_append, List.mem_cons] at hd ⊢
            tauto
          have hd := of_decide_eq_true (hdigits d hmem)
          exact decide_eq_true ⟨hd.1, Nat.le_of_lt_succ hd.2⟩
        refine ⟨e, zeros, a, b, c, he, hzeros, hne, hdigit a (by simp), hdigit b (by simp),
          hdigit c (by simp), [], tail' ++ rest.dropWhile JSON.isDigit, ?_⟩
        have hrest := List.takeWhile_append_dropWhile (p := JSON.isDigit) (l := rest)
        rw [heq] at hrest
        simpa using hrest
      · obtain ⟨rfl, -⟩ := Prod.mk.inj (Option.some.inj h)
        omega
    · rw [if_neg he] at h
      cases h
      exact absurd hle (by decide)

theorem NegativeExponent.mono {first : ℕ → Prop} {part text : JSString} (hpart : part <:+: text)
    (h : NegativeExponent first part) : NegativeExponent first text := by
  obtain ⟨e, zeros, a, b, c, he, hzeros, hfirst, ha, hb, hc, hinfix⟩ := h
  exact ⟨e, zeros, a, b, c, he, hzeros, hfirst, ha, hb, hc, hinfix.trans hpart⟩

theorem exponent_of_false {text token : JSString} {numeral : JSON.Numeral}
    (h : mayHoldLossyNumber text = false) (htoken : token <:+: text)
    (hread : readNumeral token = some (numeral, [])) : -100 < numeral.exponent := by
  by_contra hle
  obtain ⟨negative, digits, integer, tail, fraction, tail', exponent, hsign, hinteger, hfraction,
    hexponent, rfl⟩ := JSON.readNumeral_eq_some_iff.mp hread
  have hdigits : digits <:+ token := by
    split_ifs at hsign
    · cases hsign
      exact List.tail_suffix token
    · cases hsign
      exact List.suffix_refl token
  have hsuffix : tail' <:+ token :=
    (readFraction_suffix hfraction).trans ((readInteger_suffix hinteger).trans hdigits)
  have hfound := (negativeExponent_of_readExponent hexponent (not_lt.mp hle)).mono
    (hsuffix.isInfix.trans htoken)
  rw [mayHoldLossyNumber_iff.mpr (Or.inr hfound)] at h
  cases h

theorem run_of_false {text run : JSString} (h : mayHoldLossyNumber text = false)
    (hrun : run <:+: text) (hdigits : ∀ c ∈ run, isDigitOrDot c = true) : run.length ≤ 15 := by
  by_contra hlength
  have hlong : LongRun text := ⟨run, hrun, by omega, hdigits⟩
  rw [mayHoldLossyNumber_iff.mpr (Or.inl hlong)] at h
  cases h

/-- The scan is exact, and where it finds nothing the numbers have short runs and exponents. -/
theorem mayHoldLossyNumber_exact (text : JSString) :
    (mayHoldLossyNumber text = true ↔ LongRun text ∨ NegativeExponent (· ≠ 48) text) ∧
      (mayHoldLossyNumber text = false → ∀ (token : JSString) (numeral : JSON.Numeral),
        token <:+: text → readNumeral token = some (numeral, []) →
          (∀ run, run <:+: token → (∀ c ∈ run, isDigitOrDot c = true) → run.length ≤ 15) ∧
            -100 < numeral.exponent) := by
  constructor
  · exact mayHoldLossyNumber_iff
  · intro h token numeral htoken hread
    constructor
    · intro run hrun hdigits
      exact run_of_false h (hrun.trans htoken) hdigits
    · exact exponent_of_false h htoken hread

/-- All zeros behind the minus sign are skipped before three digits are looked for. -/
theorem mayHoldLossyNumber_zeros : ¬ ∀ text : JSString,
    mayHoldLossyNumber text = true ↔ LongRun text ∨ NegativeExponent (fun _ => True) text := by
  intro h
  have hfound : NegativeExponent (fun _ => True) (js "1e-000") :=
    ⟨101, [], 48, 48, 48, Or.inl rfl, nofun, trivial, rfl, rfl, rfl, js "1", [], rfl⟩
  exact absurd ((h (js "1e-000")).mpr (Or.inr hfound)) (by decide)

end Nifra.Idempotency
