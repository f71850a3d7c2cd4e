import Mathlib.Data.List.Basic
import Mathlib.Data.List.Forall2
import Mathlib.Data.Nat.Basic
import Mathlib.Data.Nat.Notation
import Nifra.Lib.Double

/-! # Strings as sequences of code units

A JavaScript string is a sequence of UTF-16 code units, compared unit by unit.
-/

namespace Nifra

abbrev JSString := List ℕ

/-- Stated once, so that every membership among strings is decided by the same instance. -/
instance JSString.lawfulBEq : LawfulBEq JSString := inferInstance

namespace JSString

def utf16 (c : ℕ) : JSString :=
  if c < 0x10000 then [c]
  else [0xD800 + (c - 0x10000) / 0x400, 0xDC00 + (c - 0x10000) % 0x400]

end JSString

def js (s : String) : JSString := s.toList.flatMap fun c => JSString.utf16 c.toNat

inductive JSError
  | typeError (message : String)
  | rangeError (message : String)
  | error (message : String)
  deriving DecidableEq, Repr

def isSafeInteger (n : ℕ) : Bool := decide (n ≤ 2 ^ 53 - 1)

/-! ## Decimal texts of counters

`String(n)` of a non-negative safe integer is its decimal numeral.
-/

/-- `String(n)` for a counter or a length. -/
def decimal (n : ℕ) : JSString := (Double.digits n).map (48 + ·)

theorem decimal_injective : Function.Injective decimal := fun m n h => by
  have hadd : Function.Injective fun d : ℕ => 48 + d := fun a b hab => by
    simpa using hab
  exact Double.digits_injective (List.map_injective_iff.mpr hadd h)

theorem digit_of_mem_decimal {n c : ℕ} (h : c ∈ decimal n) : 48 ≤ c ∧ c < 58 := by
  obtain ⟨d, hd, rfl⟩ := List.mem_map.mp h
  have hlt := Double.lt_of_mem_digits hd
  omega

theorem decimal_append_inj {m n c : ℕ} {s t : JSString} (hc : ¬(48 ≤ c ∧ c < 58))
    (h : decimal m ++ c :: s = decimal n ++ c :: t) : m = n ∧ s = t := by
  have hm : c ∉ decimal m := fun hmem => hc (digit_of_mem_decimal hmem)
  have hn : c ∉ decimal n := fun hmem => hc (digit_of_mem_decimal hmem)
  have hfront := congrArg (List.takeWhile (· != c)) h
  rw [Double.takeWhile_append_cons hm, Double.takeWhile_append_cons hn] at hfront
  rw [hfront, List.append_cancel_left_eq, List.cons.injEq] at h
  exact ⟨decimal_injective hfront, h.2⟩

/-! ## JSON texts of strings

`JSON.stringify` of a string quotes it, escapes the quote, the backslash and the control
units, and writes a surrogate outside a pair by its number. A quoted string can be read
back off the front of any text.
-/

namespace JSON

def isLeadSurrogate (c : ℕ) : Bool := 0xD800 ≤ c ∧ c < 0xDC00

def isTrailSurrogate (c : ℕ) : Bool := 0xDC00 ≤ c ∧ c < 0xE000

def hexDigit (d : ℕ) : ℕ := if d < 10 then 48 + d else 87 + d

/-- `\uXXXX` -/
def unicodeEscape (c : ℕ) : JSString :=
  [92, 117, hexDigit (c / 4096 % 16), hexDigit (c / 256 % 16), hexDigit (c / 16 % 16),
    hexDigit (c % 16)]

/-- The units with a two-unit escape, each with the unit after the backslash. -/
def escapes : List (ℕ × ℕ) :=
  [(8, 98), (9, 116), (10, 110), (12, 102), (13, 114), (34, 34), (92, 92)]

def escapeUnit (c : ℕ) : JSString :=
  match escapes.lookup c with
  | some e => [92, e]
  | none => if c < 32 then unicodeEscape c else [c]

def escapeAlone (c : ℕ) : JSString :=
  if isLeadSurrogate c ∨ isTrailSurrogate c then unicodeEscape c else escapeUnit c

def escape : JSString → JSString
  | [] => []
  | [c] => escapeAlone c
  | c :: d :: rest =>
    if isLeadSurrogate c ∧ isTrailSurrogate d then c :: d :: escape rest
    else escapeAlone c ++ escape (d :: rest)

def ofString (s : JSString) : JSString := 34 :: escape s ++ [34]

inductive Spells (c : ℕ) : JSString → Prop
  | raw (hquote : c ≠ 34) (hslash : c ≠ 92) (hcontrol : 32 ≤ c) : Spells c [c]
  | short {e : ℕ} (h : (c, e) ∈ escapes) : Spells c [92, e]
  | unicode (h : c < 65536) : Spells c (unicodeEscape c)

theorem hexDigit_inj {d e : ℕ} (hd : d < 16) (he : e < 16) (h : hexDigit d = hexDigit e) :
    d = e := by
  unfold hexDigit at h
  split_ifs at h <;> omega

theorem unicodeEscape_inj {c d : ℕ} {x y : JSString} (hc : c < 65536) (hd : d < 65536)
    (h : unicodeEscape c ++ x = unicodeEscape d ++ y) : c = d ∧ x = y := by
  simp only [unicodeEscape, List.cons_append, List.nil_append, List.cons.injEq, true_and] at h
  obtain ⟨h₁, h₂, h₃, h₄, hxy⟩ := h
  have h₁ := hexDigit_inj (Nat.mod_lt _ (by omega)) (Nat.mod_lt _ (by omega)) h₁
  have h₂ := hexDigit_inj (Nat.mod_lt _ (by omega)) (Nat.mod_lt _ (by omega)) h₂
  have h₃ := hexDigit_inj (Nat.mod_lt _ (by omega)) (Nat.mod_lt _ (by omega)) h₃
  have h₄ := hexDigit_inj (Nat.mod_lt _ (by omega)) (Nat.mod_lt _ (by omega)) h₄
  exact ⟨by omega, hxy⟩

theorem of_mem_escapes {c e : ℕ} (h : (c, e) ∈ escapes) : c < 93 ∧ e ≠ 117 := by
  simp only [escapes, List.mem_cons, Prod.mk.injEq, List.not_mem_nil, or_false] at h
  omega

theorem escapes_inj {c d e : ℕ} (hc : (c, e) ∈ escapes) (hd : (d, e) ∈ escapes) : c = d := by
  simp only [escapes, List.mem_cons, Prod.mk.injEq, List.not_mem_nil, or_false] at hc hd
  omega

theorem Spells.inj {c d : ℕ} {v w x y : JSString} (hv : Spells c v) (hw : Spells d w)
    (h : v ++ x = w ++ y) : c = d ∧ x = y := by
  cases hv with
  | raw hquote hslash =>
    cases hw with
    | raw => simpa using h
    | short hd => simp [hslash] at h
    | unicode => simp [unicodeEscape, hslash] at h
  | @short e hc =>
    cases hw with
    | raw _ hslash => simp [Ne.symm hslash] at h
    | short hd =>
      simp only [List.cons_append, List.nil_append, List.cons.injEq, true_and] at h
      obtain ⟨rfl, hxy⟩ := h
      exact ⟨escapes_inj hc hd, hxy⟩
    | unicode =>
      simp only [unicodeEscape, List.cons_append, List.nil_append, List.cons.injEq, true_and] at h
      exact absurd h.1 (of_mem_escapes hc).2
  | unicode hc =>
    cases hw with
    | raw _ hslash => simp [unicodeEscape, Ne.symm hslash] at h
    | short hd =>
      simp only [unicodeEscape, List.cons_append, List.nil_append, List.cons.injEq, true_and] at h
      exact absurd h.1.symm (of_mem_escapes hd).2
    | unicode hd => exact unicodeEscape_inj hc hd h

theorem Spells.head_ne_quote {c : ℕ} {v x y : JSString} (hv : Spells c v) :
    v ++ x ≠ 34 :: y := by
  cases hv with
  | raw hquote => simp [hquote]
  | short => simp
  | unicode => simp [unicodeEscape]

theorem spells_inj {s t x y : JSString} {vs ws : List JSString} (hv : List.Forall₂ Spells s vs)
    (hw : List.Forall₂ Spells t ws) (h : vs.flatten ++ 34 :: x = ws.flatten ++ 34 :: y) :
    s = t ∧ x = y := by
  induction hv generalizing t ws with
  | nil =>
    cases hw with
    | nil => simpa using h
    | cons hd _ =>
      rw [List.flatten_cons, List.append_assoc] at h
      exact absurd h.symm hd.head_ne_quote
  | cons hc hs ih =>
    cases hw with
    | nil =>
      rw [List.flatten_cons, List.append_assoc] at h
      exact absurd h hc.head_ne_quote
    | cons hd ht =>
      rw [List.flatten_cons, List.flatten_cons, List.append_assoc, List.append_assoc] at h
      obtain ⟨rfl, hrest⟩ := hc.inj hd h
      obtain ⟨rfl, hxy⟩ := ih ht hrest
      exact ⟨rfl, hxy⟩

theorem spells_escapeAlone (c : ℕ) : Spells c (escapeAlone c) := by
  unfold escapeAlone
  split_ifs with hsurrogate
  · refine .unicode ?_
    simp only [isLeadSurrogate, isTrailSurrogate, decide_eq_true_eq] at hsurrogate
    omega
  · unfold escapeUnit
    split
    · rename_i e he
      obtain ⟨l₁, l₂, heq, -⟩ := List.lookup_eq_some_iff.mp he
      exact .short (heq ▸ List.mem_append_right _ List.mem_cons_self)
    · rename_i hnone
      split_ifs
      · exact .unicode (by omega)
      · refine .raw ?_ ?_ (by omega) <;> rintro rfl <;> simp [escapes] at hnone

theorem exists_spells (s : JSString) : ∃ ws, List.Forall₂ Spells s ws ∧ ws.flatten = escape s := by
  induction s using escape.induct with
  | case1 => exact ⟨[], .nil, rfl⟩
  | case2 c => exact ⟨[escapeAlone c], .cons (spells_escapeAlone c) .nil, by simp [escape]⟩
  | case3 c d rest h ih =>
    obtain ⟨ws, hws, heq⟩ := ih
    have hc : c ≠ 34 ∧ c ≠ 92 ∧ 32 ≤ c := by
      simp only [isLeadSurrogate, isTrailSurrogate, decide_eq_true_eq] at h
      omega
    have hd : d ≠ 34 ∧ d ≠ 92 ∧ 32 ≤ d := by
      simp only [isLeadSurrogate, isTrailSurrogate, decide_eq_true_eq] at h
      omega
    refine ⟨[c] :: [d] :: ws, .cons (.raw hc.1 hc.2.1 hc.2.2)
      (.cons (.raw hd.1 hd.2.1 hd.2.2) hws), ?_⟩
    rw [escape, if_pos h]
    simp [heq]
  | case4 c d rest h ih =>
    obtain ⟨ws, hws, heq⟩ := ih
    refine ⟨escapeAlone c :: ws, .cons (spells_escapeAlone c) hws, ?_⟩
    rw [escape, if_neg h, List.flatten_cons, heq]

theorem ofString_append_inj {s t x y : JSString} (h : ofString s ++ x = ofString t ++ y) :
    s = t ∧ x = y := by
  obtain ⟨vs, hvs, hv⟩ := exists_spells s
  obtain ⟨ws, hws, hw⟩ := exists_spells t
  simp only [ofString, List.cons_append, List.append_assoc, List.nil_append, List.cons.injEq,
    true_and] at h
  exact spells_inj hvs hws (by rw [hv, hw]; exact h)

end JSON

end Nifra
