import Mathlib.Data.List.Sort
import Nifra.Router.MixedKeys

/-! # When specificity is an order

The comparators are total preorders, and the order of the mixed children is independent of the order
of registration, exactly where the lower bounds of the counts are all finite or all infinite.
-/

namespace Nifra.Router

/-- A comparator that is a total preorder on some of its arguments: it returns numbers, with the
opposite sign for the opposite arguments, and is transitive. -/
structure IsPreorder {α : Type} (P : α → Prop) (compare : α → α → Difference) : Prop where
  sign : ∀ a b, P a → P b → (compare a b).negative = (compare b a).positive
  total : ∀ a b, P a → P b → compare a b ≠ .nan ∧
    ((compare a b).positive = false ∨ (compare b a).positive = false)
  trans : ∀ a b c, P a → P b → P c → (compare a b).positive = false →
    (compare b c).positive = false → (compare a c).positive = false

theorem Difference.Follows.positive_eq_false_iff {κ : Type} [LinearOrder κ] {d : Difference}
    {x y : κ} (h : d.Follows x y) : d.positive = false ↔ x ≤ y := by
  rw [← Bool.not_eq_true, h.2, not_lt]

theorem isPreorder_of_follows {α κ : Type} [LinearOrder κ] {P : α → Prop}
    {compare : α → α → Difference} {key : α → κ} (hnan : ∀ a b, compare a b ≠ .nan)
    (h : ∀ a b, P a → P b → (compare a b).Follows (key a) (key b)) : IsPreorder P compare := by
  refine ⟨fun a b ha hb => ?_, fun a b ha hb => ⟨hnan a b, ?_⟩, fun a b c ha hb hc hab hbc => ?_⟩
  · rw [Bool.eq_iff_iff, (h a b ha hb).1, (h b a hb ha).2]
  · rw [(h a b ha hb).positive_eq_false_iff, (h b a hb ha).positive_eq_false_iff]
    exact le_total _ _
  · rw [(h a b ha hb).positive_eq_false_iff] at hab
    rw [(h b c hb hc).positive_eq_false_iff] at hbc
    rw [(h a c ha hc).positive_eq_false_iff]
    exact hab.trans hbc

section Registration
variable {N : Type} {lower : Set (WithTop ℕ)}

/-- The mixed children of a node after some registrations: each one names a segment, and what is
built below it. -/
def addAll (fresh : N) (added : List (List MixedPart × (N → N))) : List (List MixedPart × N) :=
  added.foldl (fun children segment => addMixed fresh segment.2 children segment.1) []

/-- Children in their order, with one child for every segment that was added. -/
structure Registered (lower : Set (WithTop ℕ)) (added : List (List MixedPart × (N → N)))
    (children : List (List MixedPart × N)) : Prop where
  wellFormed : ∀ child ∈ children, WellFormedParts lower child.1
  sorted : (children.map fun child => partsKey child.1).Pairwise (· < ·)
  keys : ∀ key, key ∈ children.map (fun child => partsKey child.1) ↔
    key ∈ added.map fun segment => partsKey segment.1

theorem Registered.addMixed {added : List (List MixedPart × (N → N))}
    {children : List (List MixedPart × N)} (huniform : Uniform lower)
    (h : Registered lower added children) (fresh : N) {segment : List MixedPart × (N → N)}
    (hsegment : WellFormedParts lower segment.1) :
    Registered lower (added ++ [segment])
      (Router.addMixed fresh segment.2 children segment.1) := by
  rw [Router.addMixed]
  split_ifs with hany
  · obtain ⟨child, hchild, heq⟩ := List.any_eq_true.mp hany
    have hkey : partsKey child.1 = partsKey segment.1 :=
      partsKey_eq_of_mixedKey_eq (h.wellFormed child hchild) hsegment (beq_iff_eq.mp heq)
    have hfirst (child : List MixedPart × N) :
        (if mixedKey child.1 = mixedKey segment.1 then (child.1, segment.2 child.2) else child).1 =
          child.1 := by
      split_ifs <;> rfl
    refine ⟨?_, ?_, fun key => ?_⟩
    · intro child hmem
      obtain ⟨child, hchild, rfl⟩ := List.mem_map.mp hmem
      rw [hfirst]
      exact h.wellFormed child hchild
    · rw [List.map_map]
      simpa only [Function.comp_def, hfirst] using h.sorted
    · rw [List.map_map]
      simp only [Function.comp_def, hfirst, h.keys, List.map_append, List.mem_append,
        List.map_singleton, List.mem_singleton]
      constructor
      · exact Or.inl
      · rintro (hmem | rfl)
        · exact hmem
        · rw [← h.keys, ← hkey]
          exact List.mem_map_of_mem hchild
  · have hwell :
        ∀ child ∈ children ++ [(segment.1, segment.2 fresh)], WellFormedParts lower child.1 := by
      intro child hmem
      rcases List.mem_append.mp hmem with hmem | hmem
      · exact h.wellFormed child hmem
      · obtain rfl := List.mem_singleton.mp hmem
        exact hsegment
    have hnew : partsKey segment.1 ∉ children.map fun child => partsKey child.1 := by
      intro hmem
      obtain ⟨child, hchild, heq⟩ := List.mem_map.mp hmem
      refine hany (List.any_eq_true.mpr ⟨child, hchild, beq_iff_eq.mpr ?_⟩)
      exact mixedKey_eq_of_partsKey_eq heq
    have hmap := List.map_mergeSort (f := fun child : List MixedPart × N => partsKey child.1)
      (r := fun a b => !(compareMixedPartsSpecificity a.1 b.1).positive)
      (s := fun x y : PartsKey => decide (x ≤ y)) fun a ha b hb => by
        have hfollows := follows_compareMixed ((hwell a ha).comparable huniform (hwell b hb))
        rw [Bool.eq_iff_iff, Bool.not_eq_true', hfollows.positive_eq_false_iff, decide_eq_true_eq]
    have hperm := List.mergeSort_perm
      ((children ++ [(segment.1, segment.2 fresh)]).map fun child => partsKey child.1)
      fun x y => decide (x ≤ y)
    refine ⟨fun child hmem => hwell child (List.mem_mergeSort.mp hmem), ?_, fun key => ?_⟩
    · rw [hmap]
      have hnodup : ((children ++ [(segment.1, segment.2 fresh)]).map fun child =>
          partsKey child.1).Nodup := by
        rw [List.map_append, List.map_singleton]
        refine List.Nodup.append (h.sorted.imp fun {x y} hlt => hlt.ne) (List.nodup_singleton _) ?_
        exact List.disjoint_singleton.mpr hnew
      have htrans : ∀ x y z : PartsKey, decide (x ≤ y) = true → decide (y ≤ z) = true →
          decide (x ≤ z) = true := fun x y z hxy hyz =>
        decide_eq_true ((of_decide_eq_true hxy).trans (of_decide_eq_true hyz))
      have htotal : ∀ x y : PartsKey, (decide (x ≤ y) || decide (y ≤ x)) = true := by
        intro x y
        rw [Bool.or_eq_true, decide_eq_true_eq, decide_eq_true_eq]
        exact le_total x y
      have hle := List.pairwise_mergeSort htrans htotal
        ((children ++ [(segment.1, segment.2 fresh)]).map fun child => partsKey child.1)
      exact (hle.and (hperm.nodup_iff.mpr hnodup)).imp fun {x y} hxy =>
        lt_of_le_of_ne (of_decide_eq_true hxy.1) hxy.2
    · rw [hmap, hperm.mem_iff]
      simp only [List.map_append, List.map_singleton, List.mem_append, List.mem_singleton, h.keys]

theorem registered_addAll (huniform : Uniform lower) (fresh : N)
    {added : List (List MixedPart × (N → N))}
    (hadded : ∀ segment ∈ added, WellFormedParts lower segment.1) :
    Registered lower added (addAll fresh added) := by
  induction added using List.reverseRecOn with
  | nil => exact ⟨nofun, .nil, fun _ => Iff.rfl⟩
  | append_singleton added segment ih =>
    rw [addAll, List.foldl_append]
    exact (ih fun s hs => hadded s (List.mem_append_left _ hs)).addMixed huniform fresh
      (hadded segment (List.mem_append_right _ List.mem_cons_self))

theorem mixedKeys_perm (huniform : Uniform lower) (fresh : N)
    {added added' : List (List MixedPart × (N → N))} (hperm : added.Perm added')
    (hadded : ∀ segment ∈ added, WellFormedParts lower segment.1) :
    (addAll fresh added).map (fun child => mixedKey child.1) =
      (addAll fresh added').map fun child => mixedKey child.1 := by
  have h := registered_addAll huniform fresh hadded
  have h' := registered_addAll huniform fresh fun segment hsegment =>
    hadded segment (hperm.mem_iff.mpr hsegment)
  have hkeys : (addAll fresh added).map (fun child => partsKey child.1) =
      (addAll fresh added').map fun child => partsKey child.1 := by
    refine List.Perm.eq_of_pairwise (fun x y _ _ hxy hyx => (lt_asymm hxy hyx).elim) h.sorted
      h'.sorted ?_
    refine (List.perm_ext_iff_of_nodup (h.sorted.imp fun {x y} hlt => hlt.ne)
      (h'.sorted.imp fun {x y} hlt => hlt.ne)).mpr fun key => ?_
    rw [h.keys, h'.keys]
    exact (hperm.map _).mem_iff
  exact map_eq_of_map_eq hkeys fun a _ b _ => mixedKey_eq_of_partsKey_eq

end Registration

/-- What specificity is for, over the segments whose counts have these lower bounds. -/
structure Lawful (lower : Set (WithTop ℕ)) : Prop where
  mixed : IsPreorder (WellFormedParts lower) compareMixedPartsSpecificity
  pattern : IsPreorder (WellFormedPattern lower) compareRoutePatternSpecificity
  same : ∀ left right, WellFormedParts lower left → WellFormedParts lower right →
    (compareMixedPartsSpecificity left right).truthy = false → mixedKey left = mixedKey right
  order : ∀ (N : Type) (fresh : N) (added added' : List (List MixedPart × (N → N))),
    added.Perm added' → (∀ segment ∈ added, WellFormedParts lower segment.1) →
      (addAll fresh added).map (fun child => mixedKey child.1) =
        (addAll fresh added').map fun child => mixedKey child.1

theorem lawful_of_uniform {lower : Set (WithTop ℕ)} (huniform : Uniform lower) : Lawful lower := by
  constructor
  · exact isPreorder_of_follows compareMixed_ne_nan fun a b ha hb =>
      follows_compareMixed (ha.comparable huniform hb)
  · exact isPreorder_of_follows (fun a b => compareLists_ne_nan _ _) fun a b ha hb =>
      follows_compareRoute fun parts parts' hparts hparts' =>
        (ha parts hparts).comparable huniform (hb parts' hparts')
  · intro left right hleft hright hfalsy
    have hfollows := follows_compareMixed (hleft.comparable huniform hright)
    exact mixedKey_eq_of_partsKey_eq (hfollows.falsy_iff.mp hfalsy)
  · intro N fresh added added' hperm hadded
    exact mixedKeys_perm huniform fresh hperm hadded

def classOf (char : ℕ) (min max : WithTop ℕ) : ParamConstraint :=
  { source := [], mask := maskOf (· == char), min := min, max := max }

theorem valid_classOf (char : ℕ) {min max : WithTop ℕ} (hmin : Double.IsDouble min)
    (hmax : Double.IsDouble max) (hone : 1 ≤ min) (hle : min ≤ max) :
    (classOf char min max).Valid := by
  refine ⟨hmin, hmax, hone, hle, by simp [classOf, maskOf], nofun, fun x hx => ?_⟩
  obtain ⟨i, -, rfl⟩ := List.mem_map.mp hx
  split_ifs <;> simp

theorem wellFormed_classOf {lower : Set (WithTop ℕ)} {char : ℕ} {min max : WithTop ℕ}
    (hvalid : (classOf char min max).Valid) (hmin : min ∈ lower) :
    WellFormedParts lower [.param [97] (some (classOf char min max))] := by
  constructor
  · nofun
  · rintro value (_ | ⟨_, ⟨⟩⟩)
  · rintro name c (_ | ⟨_, ⟨⟩⟩)
    exact hvalid
  · rintro name c (_ | ⟨_, ⟨⟩⟩) -
    exact hmin
  · rintro name c (_ | ⟨_, ⟨⟩⟩) h
    exact absurd rfl h

theorem key_classOf_lt {low high : ℕ} (h : (low, high) = (49, 48) ∨ (low, high) = (50, 49))
    (min max min' max' : WithTop ℕ) :
    (classOf low min max).key < (classOf high min' max').key := by
  have hmask {char : ℕ} (min max : WithTop ℕ) : (classOf char min max).key =
      maskOf (· == char) ++ 44 :: Double.text min ++ 44 :: Double.text max := rfl
  rw [hmask, hmask]
  rcases h with h | h
  · obtain ⟨rfl, rfl⟩ := Prod.mk.inj h
    have hlow : maskOf (· == 49) = List.replicate 48 48 ++ 48 :: (maskOf (· == 49)).drop 49 := by
      decide
    have hhigh : maskOf (· == 48) = List.replicate 48 48 ++ 49 :: (maskOf (· == 48)).drop 49 := by
      decide
    rw [hlow, hhigh]
    simp only [List.append_assoc, List.cons_append]
    exact List.append_left_lt (List.cons_lt_cons_iff.mpr (Or.inl (by decide)))
  · obtain ⟨rfl, rfl⟩ := Prod.mk.inj h
    have hlow : maskOf (· == 50) = List.replicate 49 48 ++ 48 :: (maskOf (· == 50)).drop 50 := by
      decide
    have hhigh : maskOf (· == 49) = List.replicate 49 48 ++ 49 :: (maskOf (· == 49)).drop 50 := by
      decide
    rw [hlow, hhigh]
    simp only [List.append_assoc, List.cons_append]
    exact List.append_left_lt (List.cons_lt_cons_iff.mpr (Or.inl (by decide)))

theorem compareMixed_classOf {char char' : ℕ} (hchar : char = 48 ∨ char = 49 ∨ char = 50)
    (hchar' : char' = 48 ∨ char' = 49 ∨ char' = 50) (min max min' max' : WithTop ℕ) :
    compareMixedPartsSpecificity [.param [97] (some (classOf char min max))]
      [.param [97] (some (classOf char' min' max'))] =
      (((Difference.ofCounts max min).sub (Difference.ofCounts max' min')).or
        (order (classOf char min max).key (classOf char' min' max').key)).or (.int 0) := by
  have hsize {char : ℕ} (hchar : char = 48 ∨ char = 49 ∨ char = 50) (min max : WithTop ℕ) :
      (classOf char min max).size = 1 := by
    have hcount : ∀ char ∈ [48, 49, 50], (maskOf (· == char)).count 49 = 1 := by decide
    exact hcount char (by simpa using hchar)
  have hskip (d : Difference) : (Difference.int 0).or d = d := rfl
  have hrank : rank (some (classOf char min max)) - rank (some (classOf char' min' max')) = 0 := rfl
  simp only [compareMixedPartsSpecificity, literalWeight, List.foldl_cons, List.foldl_nil,
    addLiteral, Int.sub_self, hskip, compareLists, compareParts, hrank, compareConstraints,
    hsize hchar, hsize hchar']
  rfl

theorem uniform_of_trans {lower : Set (WithTop ℕ)}
    (hlower : ∀ m ∈ lower, 1 ≤ m ∧ Double.IsDouble m)
    (h : IsPreorder (WellFormedParts lower) compareMixedPartsSpecificity) : Uniform lower := by
  rintro top htop m hm rfl
  by_contra hfinite
  obtain ⟨hone, hdouble⟩ := hlower m hm
  have hy := wellFormed_classOf (valid_classOf 48 hdouble hdouble hone le_rfl) hm
  have hz := wellFormed_classOf (valid_classOf 50 hdouble isDouble_top hone le_top) hm
  have hx := wellFormed_classOf (valid_classOf 49 isDouble_top isDouble_top le_top le_rfl) htop
  obtain ⟨m, rfl⟩ := WithTop.ne_top_iff_exists.mp hfinite
  have hyz : (compareMixedPartsSpecificity [.param [97] (some (classOf 48 m m))]
      [.param [97] (some (classOf 50 m ⊤))]).positive = false := by
    rw [compareMixed_classOf (by decide) (by decide)]
    have hwidth : Difference.ofCounts (m : WithTop ℕ) m = .int 0 := by
      change Difference.round ((m : ℤ) - m) = _
      rw [Int.sub_self]
      rfl
    rw [hwidth]
    rfl
  have hzx : (compareMixedPartsSpecificity [.param [97] (some (classOf 50 m ⊤))]
      [.param [97] (some (classOf 49 ⊤ ⊤))]).positive = false := by
    rw [compareMixed_classOf (by decide) (by decide), order,
      if_pos (key_classOf_lt (Or.inr rfl) _ _ _ _)]
    rfl
  have hyx : (compareMixedPartsSpecificity [.param [97] (some (classOf 48 m m))]
      [.param [97] (some (classOf 49 ⊤ ⊤))]).positive = true := by
    have hlt := key_classOf_lt (Or.inl rfl) ⊤ ⊤ (m : WithTop ℕ) m
    have hnan : (Difference.ofCounts (m : WithTop ℕ) m).sub (Difference.ofCounts ⊤ ⊤) = .nan := by
      cases Difference.ofCounts (m : WithTop ℕ) m <;> rfl
    rw [compareMixed_classOf (by decide) (by decide), hnan, order, if_neg hlt.not_gt, if_pos hlt]
    rfl
  exact Bool.noConfusion ((h.trans _ _ _ hy hz hx hyz hzx).symm.trans hyx)

/-- Specificity is lawful exactly where the lower bounds are all finite, or all infinite. -/
theorem lawful_iff_uniform (lower : Set (WithTop ℕ))
    (hlower : ∀ m ∈ lower, 1 ≤ m ∧ Double.IsDouble m) : Lawful lower ↔ Uniform lower := by
  constructor
  · intro h
    exact uniform_of_trans hlower h.mixed
  · exact lawful_of_uniform

theorem lawful_iff_uniform_one : Lawful {1} ∧ ¬ Lawful {1, ⊤} := by
  have hone : (1 : WithTop ℕ) ≤ 1 ∧ Double.IsDouble 1 := ⟨le_rfl, isDouble_one⟩
  constructor
  · refine (lawful_iff_uniform {1} ?_).mpr ?_
    · rintro m rfl
      exact hone
    · rintro m rfl n rfl h
      exact h
  · rw [lawful_iff_uniform {1, ⊤}]
    · intro h
      have htop := h ⊤ (Or.inr rfl) 1 (Or.inl rfl) rfl
      exact absurd htop (by decide)
    · rintro m (rfl | rfl)
      · exact hone
      · exact ⟨le_top, isDouble_top⟩

/-- The three comparisons of three paths, whose patterns go round in a circle. -/
def circle (first second third : JSString) : Except RouteError (Bool × Bool × Bool) := do
  let a ← compileRoutePattern id first
  let b ← compileRoutePattern id second
  let c ← compileRoutePattern id third
  return ((compareRoutePatternSpecificity a b).positive,
    (compareRoutePatternSpecificity b c).positive, (compareRoutePatternSpecificity a c).positive)

theorem exists_of_circle {first second third : JSString} {ab bc ac : Bool}
    (h : circle first second third = .ok (ab, bc, ac)) : ∃ a b c,
      compileRoutePattern id first = .ok a ∧ compileRoutePattern id second = .ok b ∧
      compileRoutePattern id third = .ok c ∧
      (compareRoutePatternSpecificity a b).positive = ab ∧
      (compareRoutePatternSpecificity b c).positive = bc ∧
      (compareRoutePatternSpecificity a c).positive = ac := by
  simp only [circle, bind, Except.bind] at h
  rcases ha : compileRoutePattern id first with _ | a
  · rw [ha] at h
    cases h
  rcases hb : compileRoutePattern id second with _ | b
  · simp only [ha, hb] at h
    cases h
  rcases hc : compileRoutePattern id third with _ | c
  · simp only [ha, hb, hc] at h
    cases h
  simp only [ha, hb, hc] at h
  obtain ⟨hab, h⟩ := Prod.mk.inj (Except.ok.inj h)
  obtain ⟨hbc, hac⟩ := Prod.mk.inj h
  exact ⟨a, b, c, rfl, rfl, rfl, hab, hbc, hac⟩

/-- A count of 309 digits is infinite: the first goes before the second by their widths, the second
before the third and the third before the first by their keys. -/
theorem compareRoute_circle : ¬ ∀ (a b c : CompiledRoutePattern),
    (∃ path, compileRoutePattern id path = .ok a) → (∃ path, compileRoutePattern id path = .ok b) →
    (∃ path, compileRoutePattern id path = .ok c) →
    (compareRoutePatternSpecificity a b).positive = false →
    (compareRoutePatternSpecificity b c).positive = false →
    (compareRoutePatternSpecificity a c).positive = false := by
  intro h
  have hcircle : circle (js "/:a\x7b[0]\x7b1\x7d\x7d") (js "/:a\x7b[2]\x7b1,\x7d\x7d")
      (js "/:a\x7b[1]\x7b" ++ List.replicate 309 57 ++ js "\x7d\x7d") =
      .ok (false, false, true) := by
    decide +kernel
  obtain ⟨a, b, c, ha, hb, hc, hab, hbc, hac⟩ := exists_of_circle hcircle
  rw [h a b c ⟨_, ha⟩ ⟨_, hb⟩ ⟨_, hc⟩ hab hbc] at hac
  cases hac

end Nifra.Router
