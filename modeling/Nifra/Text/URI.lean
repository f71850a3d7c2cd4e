import Mathlib.Data.List.Basic
import Nifra.Text.JSString

/-! # Percent-encoding of strings

`encodeURIComponent` and `decodeURIComponent` between strings of UTF-16 code units,
by way of the code points and their UTF-8 octets. Decoding inverts every encoding
that escapes the percent sign.
-/

namespace Nifra

def IsScalar (c : ℕ) : Prop := c < 0xD800 ∨ (0xE000 ≤ c ∧ c < 0x110000)

instance (c : ℕ) : Decidable (IsScalar c) := inferInstanceAs (Decidable (_ ∨ _))

/-- The code points of a string, `none` when it holds a lone surrogate. -/
def codePoints : JSString → Option (List ℕ)
  | [] => some []
  | u :: rest =>
    if u < 0x10000 ∧ IsScalar u then (codePoints rest).map (u :: ·)
    else match rest with
      | [] => none
      | v :: rest =>
        if 0xD800 ≤ u ∧ u < 0xDC00 ∧ 0xDC00 ≤ v ∧ v < 0xE000 then
          (codePoints rest).map ((0x10000 + (u - 0xD800) * 0x400 + (v - 0xDC00)) :: ·)
        else none

def WellFormed (s : JSString) : Prop := (codePoints s).isSome

instance (s : JSString) : Decidable (WellFormed s) := inferInstanceAs (Decidable (_ = true))

theorem codePoints_scalar {u : ℕ} (h : u < 0x10000 ∧ IsScalar u) (rest : JSString) :
    codePoints (u :: rest) = (codePoints rest).map (u :: ·) := by
  cases rest <;> simp only [codePoints, if_pos h]

theorem codePoints_scalar_units {s : JSString} {ps : List ℕ} (h : codePoints s = some ps) :
    s = ps.flatMap JSString.utf16 ∧ ∀ p ∈ ps, IsScalar p := by
  induction s using codePoints.induct generalizing ps with
  | case1 =>
    obtain rfl : ps = [] := by simpa [codePoints] using h.symm
    simp
  | case2 u rest hu ih =>
    rw [codePoints_scalar hu, Option.map_eq_some_iff] at h
    obtain ⟨qs, hq, rfl⟩ := h
    obtain ⟨he, hs⟩ := ih hq
    refine ⟨?_, List.forall_mem_cons.mpr ⟨hu.2, hs⟩⟩
    rw [List.flatMap_cons, ← he, JSString.utf16, if_pos hu.1, List.singleton_append]
  | case3 u hu => simp [codePoints, if_neg hu] at h
  | case4 u hu v rest hv ih =>
    simp only [codePoints, if_neg hu, if_pos hv, Option.map_eq_some_iff] at h
    obtain ⟨qs, hq, rfl⟩ := h
    obtain ⟨he, hs⟩ := ih hq
    refine ⟨?_, List.forall_mem_cons.mpr ⟨by unfold IsScalar; omega, hs⟩⟩
    have hlead : (0x10000 + (u - 0xD800) * 0x400 + (v - 0xDC00) - 0x10000) / 0x400 = u - 0xD800 := by
      omega
    have htrail : (0x10000 + (u - 0xD800) * 0x400 + (v - 0xDC00) - 0x10000) % 0x400 = v - 0xDC00 := by
      omega
    rw [List.flatMap_cons, ← he, JSString.utf16, if_neg (by omega), hlead, htrail,
      Nat.add_sub_cancel' hv.1, Nat.add_sub_cancel' hv.2.2.1]
    rfl
  | case5 u hu v rest hv => simp [codePoints, if_neg hu, if_neg hv] at h

def utf8 (c : ℕ) : List ℕ :=
  if c < 0x80 then [c]
  else if c < 0x800 then [0xC0 + c / 0x40, 0x80 + c % 0x40]
  else if c < 0x10000 then [0xE0 + c / 0x1000, 0x80 + c / 0x40 % 0x40, 0x80 + c % 0x40]
  else [0xF0 + c / 0x40000, 0x80 + c / 0x1000 % 0x40, 0x80 + c / 0x40 % 0x40, 0x80 + c % 0x40]

def hexDigit (d : ℕ) : ℕ := if d < 10 then 48 + d else 55 + d

def escape (b : ℕ) : JSString := [37, hexDigit (b / 16), hexDigit (b % 16)]

/-- Escapes every code point outside a set of ASCII characters that stay as written. -/
def percentEncode (raw : ℕ → Bool) (s : JSString) : Option JSString :=
  (codePoints s).map fun ps =>
    ps.flatMap fun c => if c < 0x80 ∧ raw c then [c] else (utf8 c).flatMap escape

def isAlphanumeric (c : ℕ) : Bool :=
  decide (48 ≤ c ∧ c ≤ 57 ∨ 65 ≤ c ∧ c ≤ 90 ∨ 97 ≤ c ∧ c ≤ 122)

/-- The characters that `encodeURIComponent` leaves as written. -/
def uriUnreserved (c : ℕ) : Bool := isAlphanumeric c || (js "-_.!~*'()").contains c

/-- `encodeURIComponent`, `none` for the `URIError` of a lone surrogate. -/
def encodeURIComponent (s : JSString) : Option JSString := percentEncode uriUnreserved s

def hexValue (c : ℕ) : Option ℕ :=
  if 48 ≤ c ∧ c ≤ 57 then some (c - 48)
  else if 65 ≤ c ∧ c ≤ 70 then some (c - 55)
  else if 97 ≤ c ∧ c ≤ 102 then some (c - 87)
  else none

inductive Unescaped
  | unit (c : ℕ)
  | octet (b : ℕ)
  deriving DecidableEq

/-- The characters and octets of a string, `none` when a percent sign starts no escape. -/
def unescape : JSString → Option (List Unescaped)
  | [] => some []
  | c :: rest =>
    if c = 37 then
      match rest with
      | a :: b :: rest =>
        (hexValue a).bind fun x => (hexValue b).bind fun y =>
          (unescape rest).map (.octet (16 * x + y) :: ·)
      | _ => none
    else (unescape rest).map (.unit c :: ·)

def tailBits : Unescaped → Option ℕ
  | .octet b => if 0x80 ≤ b ∧ b < 0xC0 then some (b - 0x80) else none
  | .unit _ => none

/-- The code point whose bits a lead octet and its continuation octets carry. -/
def payload (bits : List ℕ) : ℕ := bits.foldl (fun c b => c * 0x40 + b) 0

/-- The string of a sequence of characters and octets, `none` when the octets are no UTF-8. -/
def decodeOctets : List Unescaped → Option JSString
  | [] => some []
  | .unit c :: rest => (decodeOctets rest).map (c :: ·)
  | .octet b :: rest =>
    if b < 0x80 then (decodeOctets rest).map (b :: ·)
    else if 0xC2 ≤ b ∧ b < 0xE0 then
      match rest with
      | t :: rest => (tailBits t).bind fun x =>
          (decodeOctets rest).map (JSString.utf16 (payload [b - 0xC0, x]) ++ ·)
      | _ => none
    else if 0xE0 ≤ b ∧ b < 0xF0 then
      match rest with
      | t :: t' :: rest => (tailBits t).bind fun x => (tailBits t').bind fun y =>
          let c := payload [b - 0xE0, x, y]
          if 0x800 ≤ c ∧ IsScalar c then (decodeOctets rest).map (JSString.utf16 c ++ ·) else none
      | _ => none
    else if 0xF0 ≤ b ∧ b < 0xF5 then
      match rest with
      | t :: t' :: t'' :: rest =>
        (tailBits t).bind fun x => (tailBits t').bind fun y => (tailBits t'').bind fun z =>
          let c := payload [b - 0xF0, x, y, z]
          if 0x10000 ≤ c ∧ IsScalar c then (decodeOctets rest).map (JSString.utf16 c ++ ·) else none
      | _ => none
    else none

/-- `decodeURIComponent`, `none` for the `URIError` of a malformed escape. -/
def decodeURIComponent (s : JSString) : Option JSString := (unescape s).bind decodeOctets

theorem unescape_unit {c : ℕ} (h : c ≠ 37) (rest : JSString) :
    unescape (c :: rest) = (unescape rest).map (.unit c :: ·) := by
  rcases rest with _ | ⟨a, _ | ⟨b, rest⟩⟩ <;> simp only [unescape, if_neg h]

theorem decodeOctets_ascii {b : ℕ} (h : b < 0x80) (rest : List Unescaped) :
    decodeOctets (.octet b :: rest) = (decodeOctets rest).map (b :: ·) := by
  rcases rest with _ | ⟨t, _ | ⟨t', _ | ⟨t'', rest⟩⟩⟩ <;> simp only [decodeOctets, if_pos h]

theorem hexValue_hexDigit {d : ℕ} (h : d < 16) : hexValue (hexDigit d) = some d := by
  unfold hexValue hexDigit
  split_ifs <;> first | omega | (simp only [Option.some.injEq]; omega)

theorem unescape_escape {b : ℕ} (h : b < 256) (rest : JSString) :
    unescape (escape b ++ rest) = (unescape rest).map (.octet b :: ·) := by
  have hb : 16 * (b / 16) + b % 16 = b := by omega
  simp [escape, unescape, hexValue_hexDigit (show b / 16 < 16 by omega),
    hexValue_hexDigit (show b % 16 < 16 by omega), hb]

theorem unescape_escapes {bs : List ℕ} (h : ∀ b ∈ bs, b < 256) (rest : JSString) :
    unescape (bs.flatMap escape ++ rest) = (unescape rest).map (bs.map .octet ++ ·) := by
  induction bs with
  | nil => simp
  | cons b bs ih =>
    obtain ⟨hb, hbs⟩ := List.forall_mem_cons.mp h
    rw [List.flatMap_cons, List.append_assoc, unescape_escape hb, ih hbs, Option.map_map]
    rfl

theorem utf8_lt {c : ℕ} (h : IsScalar c) : ∀ b ∈ utf8 c, b < 256 := by
  unfold IsScalar at h
  unfold utf8
  split_ifs <;> simp only [List.forall_mem_cons, List.not_mem_nil, false_imp_iff, implies_true,
    and_true] <;> omega

@[simp] theorem tailBits_octet {x : ℕ} (h : x < 0x40) : tailBits (.octet (0x80 + x)) = some x := by
  simp only [tailBits]
  rw [if_pos (by omega), Nat.add_sub_cancel_left]

theorem decodeOctets_utf8 {c : ℕ} (h : IsScalar c) (rest : List Unescaped) :
    decodeOctets ((utf8 c).map .octet ++ rest) =
      (decodeOctets rest).map (JSString.utf16 c ++ ·) := by
  have hs := h
  unfold IsScalar at h
  unfold utf8
  split_ifs with h₁ h₂ h₃
  · simp only [List.map_cons, List.map_nil, List.cons_append, List.nil_append,
      decodeOctets_ascii h₁, JSString.utf16, if_pos (show c < 0x10000 by omega)]
  · have hx : c % 0x40 < 0x40 := Nat.mod_lt _ (by omega)
    have he : payload [0xC0 + c / 0x40 - 0xC0, c % 0x40] = c := by
      simp only [payload, List.foldl_cons, List.foldl_nil]
      omega
    simp only [List.map_cons, List.map_nil, List.cons_append, List.nil_append, decodeOctets]
    rw [if_neg (by omega), if_pos (by omega), tailBits_octet hx, Option.bind_some, he]
  · have hx : c / 0x40 % 0x40 < 0x40 := Nat.mod_lt _ (by omega)
    have hy : c % 0x40 < 0x40 := Nat.mod_lt _ (by omega)
    have he : payload [0xE0 + c / 0x1000 - 0xE0, c / 0x40 % 0x40, c % 0x40] = c := by
      simp only [payload, List.foldl_cons, List.foldl_nil]
      omega
    simp only [List.map_cons, List.map_nil, List.cons_append, List.nil_append, decodeOctets]
    rw [if_neg (by omega), if_neg (by omega), if_pos (by omega), tailBits_octet hx,
      tailBits_octet hy, Option.bind_some, Option.bind_some, he, if_pos ⟨by omega, hs⟩]
  · have hx : c / 0x1000 % 0x40 < 0x40 := Nat.mod_lt _ (by omega)
    have hy : c / 0x40 % 0x40 < 0x40 := Nat.mod_lt _ (by omega)
    have hz : c % 0x40 < 0x40 := Nat.mod_lt _ (by omega)
    have he : payload [0xF0 + c / 0x40000 - 0xF0, c / 0x1000 % 0x40, c / 0x40 % 0x40,
        c % 0x40] = c := by
      simp only [payload, List.foldl_cons, List.foldl_nil]
      omega
    simp only [List.map_cons, List.map_nil, List.cons_append, List.nil_append, decodeOctets]
    rw [if_neg (by omega), if_neg (by omega), if_neg (by omega), if_pos (by omega),
      tailBits_octet hx, tailBits_octet hy, tailBits_octet hz, Option.bind_some, Option.bind_some,
      Option.bind_some, he, if_pos ⟨by omega, hs⟩]

theorem decodeURIComponent_unit {c : ℕ} (h : c ≠ 37) (rest : JSString) :
    decodeURIComponent (c :: rest) = (decodeURIComponent rest).map (c :: ·) := by
  simp only [decodeURIComponent, unescape_unit h]
  cases unescape rest <;> simp [decodeOctets]

theorem decodeURIComponent_escaped {c : ℕ} (h : IsScalar c) (rest : JSString) :
    decodeURIComponent ((utf8 c).flatMap escape ++ rest) =
      (decodeURIComponent rest).map (JSString.utf16 c ++ ·) := by
  rw [decodeURIComponent, unescape_escapes (utf8_lt h), decodeURIComponent]
  cases unescape rest with
  | none => rfl
  | some ts => exact decodeOctets_utf8 h ts

theorem decodeURIComponent_percentEncode {raw : ℕ → Bool} (hraw : raw 37 = false)
    {s t : JSString} (h : percentEncode raw s = some t) : decodeURIComponent t = some s := by
  obtain ⟨ps, hps, rfl⟩ := Option.map_eq_some_iff.mp h
  obtain ⟨rfl, hs⟩ := codePoints_scalar_units hps
  clear h hps
  induction ps with
  | nil => rfl
  | cons c ps ih =>
    obtain ⟨hc, hcs⟩ := List.forall_mem_cons.mp hs
    simp only [List.flatMap_cons]
    split_ifs with hr
    · have hne : c ≠ 37 := by rintro rfl; simp [hraw] at hr
      rw [List.singleton_append, decodeURIComponent_unit hne, ih hcs]
      simp [JSString.utf16, show c < 0x10000 by omega]
    · rw [decodeURIComponent_escaped hc, ih hcs, Option.map_some]

theorem uriUnreserved_percent : uriUnreserved 37 = false := by decide

theorem decodeURIComponent_encodeURIComponent {s t : JSString}
    (h : encodeURIComponent s = some t) : decodeURIComponent t = some s :=
  decodeURIComponent_percentEncode uriUnreserved_percent h

end Nifra
