import Mathlib.Data.Int.ConditionallyCompleteOrder
import Mathlib.Data.Prod.Lex
import Nifra.Router.Pattern

/-! # Specificity as an order

The comparators follow a linear order on keys, as long as the lower bounds of the counts are all
finite, or none of them is.
-/

namespace Nifra.Router

namespace Difference

def Follows {κ : Type} [LT κ] (d : Difference) (x y : κ) : Prop :=
  (d.negative = true ↔ x < y) ∧ (d.positive = true ↔ y < x)

theorem truthy_iff {d : Difference} :
    d.truthy = true ↔ d.negative = true ∨ d.positive = true := by
  cases d <;> simp [truthy, negative, positive]

theorem Follows.falsy_iff {κ : Type} [LinearOrder κ] {d : Difference} {x y : κ}
    (h : d.Follows x y) : d.truthy = false ↔ x = y := by
  rw [← Bool.not_eq_true, truthy_iff, h.1, h.2, not_or, not_lt, not_lt]
  constructor
  · rintro ⟨hyx, hxy⟩
    exact le_antisymm hxy hyx
  · rintro rfl
    exact ⟨le_rfl, le_rfl⟩

theorem follows_int (x y : ℤ) : (int (x - y)).Follows x y := by
  constructor
  · simp [negative]
  · simp [positive]

theorem follows_self {κ : Type} [LinearOrder κ] (x : κ) : (int 0).Follows x x := by
  constructor <;> simp [negative, positive]

theorem follows_nan {κ : Type} [LinearOrder κ] (x : κ) : nan.Follows x x := by
  constructor <;> simp [negative, positive]

theorem Follows.or {κ μ : Type} [LinearOrder κ] [LinearOrder μ] {d e : Difference} {x y : κ}
    {v w : μ} (hd : d.Follows x y) (he : x = y → e.Follows v w) :
    (d.or e).Follows (toLex (x, v)) (toLex (y, w)) := by
  unfold Follows
  simp only [Prod.Lex.toLex_lt_toLex, Difference.or]
  by_cases hxy : x = y
  · have hfalsy : d.truthy = false := hd.falsy_iff.mpr hxy
    rw [hfalsy, if_neg Bool.false_ne_true, (he hxy).1, (he hxy).2]
    simp [hxy]
  · have htruthy : d.truthy = true := by
      rw [← Bool.not_eq_false, hd.falsy_iff]
      exact hxy
    rw [if_pos htruthy, hd.1, hd.2]
    simp [hxy, Ne.symm hxy]

theorem ofNat_eq_zero_iff {n : ℕ} : Double.ofNat n = 0 ↔ n = 0 := by
  constructor
  · intro h
    by_contra hn
    rcases Nat.lt_or_ge n (2 ^ 53) with hlt | hge
    · rw [Double.ofNat, if_pos hlt] at h
      exact hn (by exact_mod_cast h)
    · have hle := Double.le_ofNat hge
      rw [h] at hle
      exact absurd hle (by decide)
  · rintro rfl
    rfl

theorem round_sign (n : ℤ) :
    ((round n).negative = true ↔ n < 0) ∧ ((round n).positive = true ↔ 0 < n) := by
  cases n with
  | ofNat n =>
    have hzero := ofNat_eq_zero_iff (n := n)
    rw [round]
    cases hn : Double.ofNat n with
    | top =>
      have hne : n ≠ 0 := fun h => by rw [hzero.mpr h] at hn; cases hn
      simp [negative, positive]
      omega
    | coe m =>
      have hm : m = 0 ↔ n = 0 := by
        rw [← hzero, hn]
        exact WithTop.coe_eq_zero.symm
      simp [negative, positive]
      omega
  | negSucc n =>
    have hzero := ofNat_eq_zero_iff (n := n + 1)
    rw [round]
    cases hn : Double.ofNat (n + 1) with
    | top => simp [negative, positive, Int.negSucc_lt_zero]
    | coe m =>
      have hm : m ≠ 0 := by
        rintro rfl
        exact Nat.succ_ne_zero n (hzero.mp hn)
      have hneg := Int.negSucc_lt_zero n
      simp [negative, positive]
      omega

theorem follows_round (x y : ℤ) : (round (x - y)).Follows x y := by
  constructor
  · rw [(round_sign _).1, sub_neg]
  · rw [(round_sign _).2, sub_pos]

def ofWidth : WithTop ℕ → Difference
  | ⊤ => inf
  | (n : ℕ) => int n

theorem follows_sub (x y : WithTop ℕ) : ((ofWidth x).sub (ofWidth y)).Follows x y := by
  cases x with
  | top =>
    cases y with
    | top => exact follows_nan _
    | coe y =>
      constructor
      · simp [ofWidth, sub, negative]
      · simp [ofWidth, sub, positive]
  | coe x =>
    cases y with
    | top =>
      constructor
      · simp [ofWidth, sub, negative]
      · simp [ofWidth, sub, positive]
    | coe y =>
      have h := follows_round x y
      constructor
      · exact h.1.trans (by simp)
      · exact h.2.trans (by simp)

end Difference

theorem follows_order (a b : JSString) : (order a b).Follows a b := by
  unfold order
  split_ifs with hab hba
  · exact ⟨by simp [Difference.negative, hab], by simp [Difference.positive, hab.le]⟩
  · exact ⟨by simp [Difference.negative, hba.le], by simp [Difference.positive, hba]⟩
  · exact ⟨by simp [Difference.negative, hab], by simp [Difference.positive, hba]⟩

/-- How many counts there are; not a number, and not compared, where both bounds are infinite. -/
def width (c : ParamConstraint) : WithTop ℕ :=
  match c.min, c.max with
  | ⊤, _ => 0
  | (_ : ℕ), ⊤ => ⊤
  | (min : ℕ), (max : ℕ) => Double.ofNat (max - min)

abbrev PartKey := ℤ ×ₗ ℤ ×ₗ WithTop ℕ ×ₗ List ℕ

def constraintKey : Option ParamConstraint → ℤ ×ₗ WithTop ℕ ×ₗ List ℕ
  | none => toLex (0, toLex (0, []))
  | some c => toLex (c.size, toLex (width c, c.key))

/-- Literals first, the longer ones before the others, and constrained parameters before free ones.
-/
def partKey : MixedPart → PartKey
  | .lit value => toLex (-1, toLex (-value.length, toLex (0, value)))
  | .param _ c => toLex (rank c, constraintKey c)

def listKey {κ : Type} (keys : List κ) : List (WithTop κ) :=
  keys.map WithTop.some ++ [⊤]

abbrev PartsKey := ℤ ×ₗ List (WithTop PartKey)

def partsKey (parts : List MixedPart) : PartsKey :=
  toLex (-literalWeight parts, listKey (parts.map partKey))

def Alike (c d : ParamConstraint) : Prop := c.min = ⊤ ↔ d.min = ⊤

theorem ofCounts_eq {c : ParamConstraint} (hle : c.min ≤ c.max) (hmin : c.min ≠ ⊤) :
    Difference.ofCounts c.max c.min = Difference.ofWidth (width c) := by
  unfold width
  cases hm : c.min with
  | top => exact absurd hm hmin
  | coe min =>
    cases hM : c.max with
    | top => rfl
    | coe max =>
      rw [hm, hM] at hle
      have hle : min ≤ max := by exact_mod_cast hle
      have hint : (max : ℤ) - (min : ℤ) = Int.ofNat (max - min) := (Int.ofNat_sub hle).symm
      change Difference.round ((max : ℤ) - (min : ℤ)) =
        Difference.ofWidth (Double.ofNat (max - min))
      rw [hint, Difference.round]
      rfl

theorem follows_width {c d : ParamConstraint} (hc : c.min ≤ c.max) (hd : d.min ≤ d.max)
    (h : Alike c d) : ((Difference.ofCounts c.max c.min).sub
      (Difference.ofCounts d.max d.min)).Follows (width c) (width d) := by
  by_cases htop : c.min = ⊤
  · have hmax : c.max = ⊤ := top_le_iff.mp (htop ▸ hc)
    have hwidth {c : ParamConstraint} (htop : c.min = ⊤) : width c = 0 := by simp [width, htop]
    rw [hwidth htop, hwidth (h.mp htop), htop, hmax]
    exact Difference.follows_nan 0
  · rw [ofCounts_eq hc htop, ofCounts_eq hd (mt h.mpr htop)]
    exact Difference.follows_sub _ _

theorem follows_compareConstraints {x y : Option ParamConstraint} (hrank : rank x = rank y)
    (h : ∀ c ∈ x, ∀ d ∈ y, rank x = rank y → c.min ≤ c.max ∧ d.min ≤ d.max ∧ Alike c d) :
    (compareConstraints x y).Follows (constraintKey x) (constraintKey y) := by
  cases x with
  | none =>
    cases y with
    | none => exact Difference.follows_self _
    | some d =>
      rw [rank, rank] at hrank
      split_ifs at hrank <;> omega
  | some c =>
    cases y with
    | none =>
      rw [rank, rank] at hrank
      split_ifs at hrank <;> omega
    | some d =>
      obtain ⟨hc, hd, halike⟩ := h c rfl d rfl hrank
      exact (Difference.follows_int _ _).or fun _ => (follows_width hc hd halike).or fun _ =>
        follows_order _ _

/-- The constraints of two lists of parts that the comparator may look at together. -/
def Comparable (left right : List MixedPart) : Prop :=
  ∀ name c name' d, .param name (some c) ∈ left → .param name' (some d) ∈ right →
    rank (some c) = rank (some d) → c.min ≤ c.max ∧ d.min ≤ d.max ∧ Alike c d

theorem follows_compareParts {a b : MixedPart} (h : Comparable [a] [b]) :
    (compareParts a b).Follows (partKey a) (partKey b) := by
  have hrank (c : Option ParamConstraint) : -1 < rank c := by
    cases c
    · decide
    · rw [rank]
      split_ifs <;> decide
  cases a with
  | lit a =>
    cases b with
    | lit b =>
      have hlength : (Difference.int ((b.length : ℤ) - a.length)).Follows (-(a.length : ℤ))
          (-(b.length : ℤ)) := by
        have := Difference.follows_int (-(a.length : ℤ)) (-(b.length : ℤ))
        rwa [neg_sub_neg] at this
      have hkeys : ((Difference.int ((b.length : ℤ) - a.length)).or (order a b)).Follows
          (partKey (.lit a)) (partKey (.lit b)) := by
        have := (Difference.follows_self (-1 : ℤ)).or fun _ => hlength.or fun _ =>
          (Difference.follows_self (0 : WithTop ℕ)).or fun _ => follows_order a b
        exact this
      have heq : compareParts (.lit a) (.lit b) =
          (Difference.int ((b.length : ℤ) - a.length)).or (order a b) := by
        rw [compareParts]
        by_cases hab : a = b
        · subst hab
          simp [Difference.or, Difference.truthy, order]
        · by_cases hlen : a.length = b.length
          · simp [hab, hlen, Difference.or, Difference.truthy]
          · have hne : (b.length : ℤ) - a.length ≠ 0 := by omega
            simp [hab, hlen, hne, Difference.or, Difference.truthy]
      rw [heq]
      exact hkeys
    | param name c =>
      have hlt := hrank c
      constructor
      · simp [compareParts, Difference.negative, partKey, Prod.Lex.toLex_lt_toLex, hlt]
      · simp [compareParts, Difference.positive, partKey, Prod.Lex.toLex_lt_toLex, hlt.not_gt,
          hlt.ne']
  | param name c =>
    cases b with
    | lit b =>
      have hlt := hrank c
      constructor
      · simp [compareParts, Difference.negative, partKey, Prod.Lex.toLex_lt_toLex, hlt.not_gt,
          hlt.ne']
      · simp [compareParts, Difference.positive, partKey, Prod.Lex.toLex_lt_toLex, hlt]
    | param name' d =>
      exact (Difference.follows_int _ _).or fun hsame =>
        follows_compareConstraints hsame fun c' hc d' hd _ =>
          h name c' name' d' (by rw [Option.mem_def.mp hc]; exact List.mem_cons_self)
            (by rw [Option.mem_def.mp hd]; exact List.mem_cons_self)
            (by rw [← Option.mem_def.mp hc, ← Option.mem_def.mp hd]; exact hsame)

theorem Difference.Follows.cons {κ : Type} [LinearOrder κ] {d e : Difference} {x y : κ}
    {v w : List (WithTop κ)} (hd : d.Follows x y) (he : x = y → e.Follows v w) :
    (d.or e).Follows ((x : WithTop κ) :: v) ((y : WithTop κ) :: w) := by
  have h := hd.or he
  constructor
  · rw [h.1, Prod.Lex.toLex_lt_toLex, List.cons_lt_cons_iff, WithTop.coe_lt_coe, WithTop.coe_inj]
  · rw [h.2, Prod.Lex.toLex_lt_toLex, List.cons_lt_cons_iff, WithTop.coe_lt_coe, WithTop.coe_inj]

theorem follows_compareLists {α κ : Type} [LinearOrder κ] {compare : α → α → Difference}
    {key : α → κ} {left right : List α}
    (h : ∀ a ∈ left, ∀ b ∈ right, (compare a b).Follows (key a) (key b)) :
    (compareLists compare left right).Follows (listKey (left.map key))
      (listKey (right.map key)) := by
  induction left generalizing right with
  | nil =>
    cases right with
    | nil => exact Difference.follows_self _
    | cons b right =>
      constructor
      · simp [compareLists, Difference.negative, listKey, List.cons_lt_cons_iff]
      · simp [compareLists, Difference.positive, listKey, List.cons_lt_cons_iff]
  | cons a left ih =>
    cases right with
    | nil =>
      constructor
      · simp [compareLists, Difference.negative, listKey, List.cons_lt_cons_iff]
      · simp [compareLists, Difference.positive, listKey, List.cons_lt_cons_iff]
    | cons b right =>
      exact (h a List.mem_cons_self b List.mem_cons_self).cons fun _ =>
        ih fun a ha b hb => h a (List.mem_cons_of_mem _ ha) b (List.mem_cons_of_mem _ hb)

theorem follows_compareMixed {left right : List MixedPart} (h : Comparable left right) :
    (compareMixedPartsSpecificity left right).Follows (partsKey left) (partsKey right) := by
  have hweight := Difference.follows_int (-literalWeight left) (-literalWeight right)
  rw [neg_sub_neg] at hweight
  refine hweight.or fun _ => follows_compareLists fun a ha b hb => follows_compareParts ?_
  rintro name c name' d hc hd hrank
  obtain rfl := List.mem_singleton.mp hc
  obtain rfl := List.mem_singleton.mp hd
  exact h name c name' d ha hb hrank

abbrev SegmentKey := ℤ ×ₗ WithBot PartsKey

def segmentKey : RoutePatternSegment → SegmentKey
  | .mixed parts => toLex (-3, (partsKey parts : WithBot PartsKey))
  | segment => toLex (-specificity segment, ⊥)

def patternKey (pattern : CompiledRoutePattern) : List (WithTop SegmentKey) :=
  listKey (pattern.segments.map segmentKey)

theorem follows_compareSegments {a b : RoutePatternSegment}
    (h : ∀ left right, a = .mixed left → b = .mixed right → Comparable left right) :
    (compareSegments a b).Follows (segmentKey a) (segmentKey b) := by
  unfold compareSegments
  split_ifs with hne
  · cases a <;> cases b <;>
      simp [specificity, segmentKey, Difference.Follows, Difference.negative, Difference.positive,
        Prod.Lex.toLex_lt_toLex] at hne ⊢
  · split
    · rename_i left right
      have hmixed := follows_compareMixed (h left right rfl rfl)
      simpa [Difference.Follows, segmentKey, Prod.Lex.toLex_lt_toLex] using hmixed
    · rename_i hmixed
      have hkey : segmentKey a = segmentKey b := by
        cases a <;> cases b <;> simp [specificity, segmentKey] at hne hmixed ⊢
      rw [hkey]
      exact Difference.follows_self _

theorem follows_compareRoute {left right : CompiledRoutePattern}
    (h : ∀ parts parts', .mixed parts ∈ left.segments → .mixed parts' ∈ right.segments →
      Comparable parts parts') :
    (compareRoutePatternSpecificity left right).Follows (patternKey left) (patternKey right) := by
  refine follows_compareLists fun a ha b hb => follows_compareSegments ?_
  rintro parts parts' rfl rfl
  exact h parts parts' ha hb

theorem Difference.or_ne_nan {d e : Difference} (h : e ≠ nan) : d.or e ≠ nan := by
  unfold Difference.or
  split_ifs with hd
  · rintro rfl
    exact absurd hd (by decide)
  · exact h

theorem compareLists_ne_nan {α : Type} {compare : α → α → Difference} (left right : List α) :
    compareLists compare left right ≠ .nan := by
  induction left generalizing right with
  | nil => cases right <;> nofun
  | cons a left ih =>
    cases right with
    | nil => nofun
    | cons b right => exact Difference.or_ne_nan (ih right)

theorem compareMixed_ne_nan (left right : List MixedPart) :
    compareMixedPartsSpecificity left right ≠ .nan :=
  Difference.or_ne_nan (compareLists_ne_nan left right)

end Nifra.Router
