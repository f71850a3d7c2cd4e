import Mathlib.Data.List.Basic
import Mathlib.Data.List.DropRight
import Mathlib.Tactic.SplitIfs
import Nifra.Text.JSString

/-! # Base64 for URLs

`btoa` and `atob` over octets, and the alphabet for URLs without the padding. Every sequence of
octets has one text that is read back as it.
-/

namespace Nifra

/-- The octets six bits at a time; the last sextet is filled up with zeros. -/
def sextets : List ℕ → List ℕ
  | [] => []
  | [a] => [a / 4, a % 4 * 16]
  | [a, b] => [a / 4, a % 4 * 16 + b / 16, b % 16 * 4]
  | a :: b :: c :: rest =>
    a / 4 :: (a % 4 * 16 + b / 16) :: (b % 16 * 4 + c / 64) :: c % 64 :: sextets rest

/-- The sextets eight bits at a time; bits that fill no octet are dropped. -/
def octets : List ℕ → List ℕ
  | [] | [_] => []
  | [w, x] => [w * 4 + x / 16]
  | [w, x, y] => [w * 4 + x / 16, x % 16 * 16 + y / 4]
  | w :: x :: y :: z :: rest =>
    (w * 4 + x / 16) :: (x % 16 * 16 + y / 4) :: (y % 4 * 64 + z) :: octets rest

def Canonical : List ℕ → Prop
  | [] => True
  | [_] => False
  | [_, x] => x % 16 = 0
  | [_, _, y] => y % 4 = 0
  | _ :: _ :: _ :: _ :: rest => Canonical rest

def base64Unit (v : ℕ) : ℕ :=
  if v < 26 then 65 + v else if v < 52 then 71 + v else if v < 62 then v - 4
  else if v = 62 then 43 else 47

def base64Value (c : ℕ) : Option ℕ :=
  if 65 ≤ c ∧ c ≤ 90 then some (c - 65)
  else if 97 ≤ c ∧ c ≤ 122 then some (c - 71)
  else if 48 ≤ c ∧ c ≤ 57 then some (c + 4)
  else if c = 43 then some 62
  else if c = 47 then some 63
  else none

def btoa (bytes : List ℕ) : JSString :=
  (sextets bytes).map base64Unit ++ List.replicate ((3 - bytes.length % 3) % 3) 61

def dropPadding (s : JSString) : JSString :=
  match s.reverse with
  | 61 :: 61 :: rest => rest.reverse
  | 61 :: rest => rest.reverse
  | _ => s

def atob (s : JSString) : Option (List ℕ) :=
  let s := if s.length % 4 = 0 then dropPadding s else s
  if s.length % 4 = 1 then none else (s.mapM base64Value).map octets

/-- `+` and `/` as they are in a URL. -/
def urlUnit (c : ℕ) : ℕ := if c = 43 then 45 else if c = 47 then 95 else c

def standardUnit (c : ℕ) : ℕ := if c = 45 then 43 else if c = 95 then 47 else c

def toBase64Url (bytes : List ℕ) : JSString := dropPadding ((btoa bytes).map urlUnit)

def base64UrlAlphabet : JSString :=
  js "ABCDEFGHIJKLMNOPQRSTUVWXYZabcdefghijklmnopqrstuvwxyz0123456789-_"

/-- `BASE64URL_PATTERN`, of one unit. -/
def isBase64Url (c : ℕ) : Bool :=
  decide (65 ≤ c ∧ c ≤ 90 ∨ 97 ≤ c ∧ c ≤ 122 ∨ 48 ≤ c ∧ c ≤ 57 ∨ c = 95 ∨ c = 45)

/-- Canonical encodings only: a second spelling of the same octets is refused. -/
def fromBase64Url (s : JSString) : Option (List ℕ) :=
  if s = [] ∨ s.length % 4 = 1 ∨ ¬ s.all isBase64Url then none
  else
    let remainder := s.length % 4
    let last := base64UrlAlphabet.idxOf (s.getLastD 0)
    if remainder = 2 ∧ last % 16 ≠ 0 ∨ remainder = 3 ∧ last % 4 ≠ 0 then none
    else atob (s.map standardUnit ++ List.replicate ((4 - remainder) % 4) 61)

theorem lt_of_mem_sextets {bytes : List ℕ} (h : ∀ b ∈ bytes, b < 256) :
    ∀ v ∈ sextets bytes, v < 64 := by
  induction bytes using sextets.induct with
  | case1 => simp [sextets]
  | case2 a =>
    simp only [List.mem_cons, List.not_mem_nil, or_false, forall_eq] at h
    simp only [sextets, List.mem_cons, List.not_mem_nil, or_false, forall_eq_or_imp, forall_eq]
    omega
  | case3 a b =>
    simp only [List.mem_cons, List.not_mem_nil, or_false, forall_eq_or_imp, forall_eq] at h
    simp only [sextets, List.mem_cons, List.not_mem_nil, or_false, forall_eq_or_imp, forall_eq]
    omega
  | case4 a b c rest ih =>
    simp only [List.mem_cons, forall_eq_or_imp] at h
    obtain ⟨ha, hb, hc, hrest⟩ := h
    simp only [sextets, List.mem_cons, forall_eq_or_imp]
    exact ⟨by omega, by omega, by omega, by omega, ih hrest⟩

theorem canonical_sextets (bytes : List ℕ) : Canonical (sextets bytes) := by
  induction bytes using sextets.induct with
  | case1 => trivial
  | case2 a => exact Nat.mul_mod_left _ _
  | case3 a b => exact Nat.mul_mod_left _ _
  | case4 a b c rest ih => exact ih

theorem length_sextets (bytes : List ℕ) :
    (sextets bytes).length = (4 * bytes.length + 2) / 3 := by
  induction bytes using sextets.induct with
  | case1 => rfl
  | case2 a => simp [sextets]
  | case3 a b => simp [sextets]
  | case4 a b c rest ih =>
    simp only [sextets, List.length_cons]
    omega

theorem octets_sextets {bytes : List ℕ} (h : ∀ b ∈ bytes, b < 256) :
    octets (sextets bytes) = bytes := by
  induction bytes using sextets.induct with
  | case1 => rfl
  | case2 a =>
    simp only [sextets, octets, List.cons.injEq, and_true]
    omega
  | case3 a b =>
    have hb := h b (by simp)
    simp only [sextets, octets, List.cons.injEq, and_true]
    omega
  | case4 a b c rest ih =>
    simp only [List.mem_cons, forall_eq_or_imp] at h
    obtain ⟨ha, hb, hc, hrest⟩ := h
    simp only [sextets, octets, List.cons.injEq]
    exact ⟨by omega, by omega, by omega, ih hrest⟩

theorem lt_of_mem_octets {vs : List ℕ} (h : ∀ v ∈ vs, v < 64) : ∀ b ∈ octets vs, b < 256 := by
  induction vs using octets.induct with
  | case1 => simp [octets]
  | case2 w => simp [octets]
  | case3 w x =>
    simp only [List.mem_cons, List.not_mem_nil, or_false, forall_eq_or_imp, forall_eq] at h
    simp only [octets, List.mem_cons, List.not_mem_nil, or_false, forall_eq]
    omega
  | case4 w x y =>
    simp only [List.mem_cons, List.not_mem_nil, or_false, forall_eq_or_imp, forall_eq] at h
    simp only [octets, List.mem_cons, List.not_mem_nil, or_false, forall_eq_or_imp, forall_eq]
    omega
  | case5 w x y z rest ih =>
    simp only [List.mem_cons, forall_eq_or_imp] at h
    obtain ⟨hw, hx, hy, hz, hrest⟩ := h
    simp only [octets, List.mem_cons, forall_eq_or_imp]
    exact ⟨by omega, by omega, by omega, ih hrest⟩

theorem sextets_octets {vs : List ℕ} (hlt : ∀ v ∈ vs, v < 64) (h : Canonical vs) :
    sextets (octets vs) = vs := by
  induction vs using octets.induct with
  | case1 => rfl
  | case2 w => exact h.elim
  | case3 w x =>
    have hx : x % 16 = 0 := h
    have := hlt x (by simp)
    simp only [sextets, octets, List.cons.injEq, and_true]
    omega
  | case4 w x y =>
    have hy : y % 4 = 0 := h
    simp only [List.mem_cons, List.not_mem_nil, or_false, forall_eq_or_imp, forall_eq] at hlt
    simp only [sextets, octets, List.cons.injEq, and_true]
    omega
  | case5 w x y z rest ih =>
    simp only [List.mem_cons, forall_eq_or_imp] at hlt
    obtain ⟨hw, hx, hy, hz, hrest⟩ := hlt
    simp only [sextets, octets, List.cons.injEq]
    exact ⟨by omega, by omega, by omega, by omega, ih hrest h⟩

theorem canonical_iff (vs : List ℕ) : Canonical vs ↔ vs.length % 4 ≠ 1 ∧
    ¬ (vs.length % 4 = 2 ∧ vs.getLastD 0 % 16 ≠ 0 ∨ vs.length % 4 = 3 ∧ vs.getLastD 0 % 4 ≠ 0) := by
  induction vs using Canonical.induct with
  | case1 => simp [Canonical]
  | case2 w => simp [Canonical]
  | case3 w x => simp [Canonical]
  | case4 w x y => simp [Canonical]
  | case5 w x y z rest ih =>
    have hlength : (w :: x :: y :: z :: rest).length % 4 = rest.length % 4 := by
      simp only [List.length_cons]
      omega
    rw [Canonical, ih, hlength]
    cases rest with
    | nil => simp
    | cons v rest => simp [List.getLastD_eq_getLast?]

def urlText (v : ℕ) : ℕ := urlUnit (base64Unit v)

theorem urlText_spec : ∀ v < 64, isBase64Url (urlText v) ∧ base64UrlAlphabet.idxOf (urlText v) = v ∧
    base64Value (standardUnit (urlText v)) = some v ∧ base64Unit v ≠ 61 ∧ urlText v ≠ 61 := by
  decide +kernel

theorem exists_urlText {c : ℕ} (h : isBase64Url c) : ∃ v < 64, urlText v = c := by
  have hall : ∀ c < 128, isBase64Url c → ∃ v < 64, urlText v = c := by decide +kernel
  refine hall c ?_ h
  have := of_decide_eq_true h
  omega

theorem exists_map_urlText {s : JSString} (h : s.all isBase64Url) :
    ∃ vs : List ℕ, (∀ v ∈ vs, v < 64) ∧ s = vs.map urlText := by
  induction s with
  | nil => exact ⟨[], nofun, rfl⟩
  | cons c s ih =>
    rw [List.all_cons, Bool.and_eq_true] at h
    obtain ⟨v, hv, rfl⟩ := exists_urlText h.1
    obtain ⟨vs, hvs, rfl⟩ := ih h.2
    exact ⟨v :: vs, List.forall_mem_cons.mpr ⟨hv, hvs⟩, rfl⟩

theorem dropPadding_append {s : JSString} (hs : 61 ∉ s) {n : ℕ} (hn : n ≤ 2) :
    dropPadding (s ++ List.replicate n 61) = s := by
  have hrev : 61 ∉ s.reverse := fun hmem => hs (List.mem_reverse.mp hmem)
  unfold dropPadding
  rw [List.reverse_append, List.reverse_replicate]
  obtain rfl | rfl | rfl : n = 0 ∨ n = 1 ∨ n = 2 := by omega
  · rw [List.replicate_zero, List.nil_append, List.append_nil]
    split
    · next heq => simp [heq] at hrev
    · next heq => simp [heq] at hrev
    · rfl
  · rw [List.replicate_one, List.singleton_append]
    split
    · next heq => simp [(List.cons.inj heq).2] at hrev
    · next heq => rw [← (List.cons.inj heq).2, List.reverse_reverse]
    · next hne => exact absurd rfl (hne _)
  · simp [List.replicate]

theorem toBase64Url_eq {bytes : List ℕ} (h : ∀ b ∈ bytes, b < 256) :
    toBase64Url bytes = (sextets bytes).map urlText := by
  have hpad : urlUnit 61 = 61 := by decide
  rw [toBase64Url, btoa, List.map_append, List.map_replicate, List.map_map, hpad]
  refine dropPadding_append ?_ (by omega)
  intro hmem
  obtain ⟨v, hv, heq⟩ := List.mem_map.mp hmem
  exact (urlText_spec v (lt_of_mem_sextets h v hv)).2.2.2.2 heq

theorem fromBase64Url_map {vs : List ℕ} (hlt : ∀ v ∈ vs, v < 64) (hne : vs ≠ [])
    {bytes : List ℕ} :
    fromBase64Url (vs.map urlText) = some bytes ↔ Canonical vs ∧ octets vs = bytes := by
  have hall : (vs.map urlText).all isBase64Url := by
    rw [List.all_map, List.all_eq_true]
    exact fun v hv => (urlText_spec v (hlt v hv)).1
  have hlast : base64UrlAlphabet.idxOf ((vs.map urlText).getLastD 0) = vs.getLastD 0 := by
    obtain ⟨front, v, rfl⟩ := (List.eq_nil_or_concat vs).resolve_left hne
    rw [List.map_concat, List.concat_eq_append, List.concat_eq_append, List.getLastD_concat,
      List.getLastD_concat]
    exact (urlText_spec v (hlt v (by simp))).2.1
  have hvalues : ((vs.map urlText).map standardUnit).mapM base64Value = some vs := by
    clear hne hall hlast
    induction vs with
    | nil => rfl
    | cons v vs ih =>
      obtain ⟨hv, hvs⟩ := List.forall_mem_cons.mp hlt
      simp only [List.map_cons, List.mapM_cons, (urlText_spec v hv).2.2.1, ih hvs,
        Option.bind_eq_bind, Option.bind_some]
      rfl
  have hpads : 61 ∉ (vs.map urlText).map standardUnit := by
    intro hmem
    obtain ⟨c, hc, heq⟩ := List.mem_map.mp hmem
    obtain ⟨v, hv, rfl⟩ := List.mem_map.mp hc
    have hspec := (urlText_spec v (hlt v hv)).2.2.1
    rw [heq] at hspec
    cases hspec
  have hread (hcanonical : Canonical vs) : atob ((vs.map urlText).map standardUnit ++
      List.replicate ((4 - vs.length % 4) % 4) 61) = some (octets vs) := by
    obtain ⟨hone, -⟩ := (canonical_iff vs).mp hcanonical
    have hfour : ((vs.map urlText).map standardUnit ++
        List.replicate ((4 - vs.length % 4) % 4) 61).length % 4 = 0 := by
      simp only [List.length_append, List.length_map, List.length_replicate]
      omega
    rw [atob, if_pos hfour, dropPadding_append hpads (by omega)]
    simp only [List.length_map, if_neg hone, hvalues, Option.map_some]
  have hopen : ¬ (vs.map urlText = [] ∨ vs.length % 4 = 1 ∨ ¬ (vs.map urlText).all isBase64Url) ↔
      vs.length % 4 ≠ 1 := by simp [hne, hall]
  simp only [fromBase64Url, hlast, List.length_map]
  constructor
  · intro h
    split at h
    · cases h
    · next hfirst =>
      split at h
      · cases h
      · next hsecond =>
        have hcanonical := (canonical_iff vs).mpr ⟨hopen.mp hfirst, hsecond⟩
        rw [hread hcanonical] at h
        exact ⟨hcanonical, Option.some.inj h⟩
  · rintro ⟨hcanonical, rfl⟩
    obtain ⟨hone, hbits⟩ := (canonical_iff vs).mp hcanonical
    rw [if_neg (hopen.mpr hone), if_neg hbits, hread hcanonical]

theorem fromBase64Url_toBase64Url {bytes : List ℕ} (h : ∀ b ∈ bytes, b < 256) (hne : bytes ≠ []) :
    fromBase64Url (toBase64Url bytes) = some bytes := by
  have hsextets : sextets bytes ≠ [] := by
    intro heq
    have hlength := length_sextets bytes
    have hpos := List.length_pos_of_ne_nil hne
    rw [heq, List.length_nil] at hlength
    omega
  rw [toBase64Url_eq h]
  exact (fromBase64Url_map (lt_of_mem_sextets h) hsextets).mpr
    ⟨canonical_sextets bytes, octets_sextets h⟩

theorem toBase64Url_fromBase64Url {s : JSString} {bytes : List ℕ}
    (h : fromBase64Url s = some bytes) : toBase64Url bytes = s := by
  have hs : ¬ (s = [] ∨ s.length % 4 = 1 ∨ ¬ s.all isBase64Url) := by
    intro hs
    rw [fromBase64Url, if_pos hs] at h
    cases h
  obtain ⟨hne, -, hall⟩ : s ≠ [] ∧ s.length % 4 ≠ 1 ∧ s.all isBase64Url := by
    simpa [not_or] using hs
  obtain ⟨vs, hvs, rfl⟩ := exists_map_urlText hall
  obtain ⟨hcanonical, rfl⟩ := (fromBase64Url_map hvs (by simpa using hne)).mp h
  rw [toBase64Url_eq (lt_of_mem_octets hvs), sextets_octets hvs hcanonical]

end Nifra
