import Nifra.Router.SpecificityOrder

/-! # Well-formed mixed segments

What compilation ensures of the parts of a mixed segment. Two segments have one key of registration
exactly when specificity does not order them.
-/

namespace Nifra.Router

/-- What compilation ensures of a mixed segment, and the lower bounds that its counts have. -/
structure WellFormedParts (lower : Set (WithTop ℕ)) (parts : List MixedPart) : Prop where
  ne_nil : parts ≠ []
  literals : ∀ value, .lit value ∈ parts → 47 ∉ value
  valid : ∀ name c, .param name (some c) ∈ parts → c.Valid
  counts : ∀ name c, .param name (some c) ∈ parts → c.oneOf = none → c.min ∈ lower
  lists : ∀ name c, .param name (some c) ∈ parts → c.oneOf ≠ none →
    c.min = 1 ∧ c.max = 1

def WellFormedPattern (lower : Set (WithTop ℕ)) (pattern : CompiledRoutePattern) : Prop :=
  ∀ parts, .mixed parts ∈ pattern.segments → WellFormedParts lower parts

def Uniform (lower : Set (WithTop ℕ)) : Prop := ∀ m ∈ lower, ∀ n ∈ lower, m = ⊤ → n = ⊤

theorem rank_some (c : ParamConstraint) : rank (some c) = if c.oneOf.isSome then 0 else 1 := rfl

theorem oneOf_eq_none_iff {c d : ParamConstraint} (hrank : rank (some c) = rank (some d)) :
    c.oneOf = none ↔ d.oneOf = none := by
  rw [rank_some, rank_some] at hrank
  cases hc : c.oneOf <;> cases hd : d.oneOf <;> simp [hc, hd] at hrank ⊢

theorem WellFormedParts.comparable {lower : Set (WithTop ℕ)} (huniform : Uniform lower)
    {left right : List MixedPart} (hleft : WellFormedParts lower left)
    (hright : WellFormedParts lower right) :
    Comparable left right := by
  intro name c name' d hc hd hrank
  refine ⟨(hleft.valid name c hc).min_le_max, (hright.valid name' d hd).min_le_max, ?_⟩
  have hone := oneOf_eq_none_iff hrank
  by_cases hlist : c.oneOf = none
  · have hcm := hleft.counts name c hc hlist
    have hdm := hright.counts name' d hd (hone.mp hlist)
    exact ⟨huniform _ hcm _ hdm, huniform _ hdm _ hcm⟩
  · rw [Alike, (hleft.lists name c hc hlist).1, (hright.lists name' d hd (mt hone.mpr hlist)).1]

theorem listKey_injective {κ : Type} : Function.Injective (listKey (κ := κ)) := by
  intro keys keys' h
  exact List.map_injective_iff.mpr WithTop.coe_injective (List.append_cancel_right h)

theorem pieceKey_eq_of_partKey_eq {a b : MixedPart} (h : partKey a = partKey b) :
    pieceKey a = pieceKey b := by
  have hrank (c : Option ParamConstraint) : rank c ≠ -1 := by
    cases c
    · decide
    · rw [rank_some]
      split_ifs <;> decide
  cases a with
  | lit a =>
    cases b with
    | lit b =>
      have hvalue : a = b := congrArg (fun key : PartKey => (ofLex (ofLex (ofLex key).2).2).2) h
      rw [hvalue]
    | param name c =>
      have hfirst : (-1 : ℤ) = rank c := congrArg (fun key : PartKey => (ofLex key).1) h
      exact absurd hfirst.symm (hrank c)
  | param name c =>
    cases b with
    | lit b =>
      have hfirst : rank c = -1 := congrArg (fun key : PartKey => (ofLex key).1) h
      exact absurd hfirst (hrank c)
    | param name' d =>
      have hfirst : rank c = rank d := congrArg (fun key : PartKey => (ofLex key).1) h
      have hsecond : constraintKey c = constraintKey d :=
        congrArg (fun key : PartKey => (ofLex key).2) h
      cases c with
      | none =>
        cases d with
        | none => rfl
        | some d =>
          rw [rank_some, rank] at hfirst
          split_ifs at hfirst <;> omega
      | some c =>
        cases d with
        | none =>
          rw [rank_some, rank] at hfirst
          split_ifs at hfirst <;> omega
        | some d =>
          have hkey : c.key = d.key := congrArg (fun key => (ofLex (ofLex key).2).2) hsecond
          simp only [pieceKey, Option.map_some, Option.getD_some, hkey]

theorem map_eq_of_map_eq {α β γ : Type} {f : α → β} {g : α → γ} {left right : List α}
    (h : left.map f = right.map f)
    (hfg : ∀ a ∈ left, ∀ b ∈ right, f a = f b → g a = g b) : left.map g = right.map g := by
  induction left generalizing right with
  | nil =>
    obtain rfl : right = [] := by simpa using h.symm
    rfl
  | cons a left ih =>
    cases right with
    | nil => cases h
    | cons b right =>
      obtain ⟨hab, hrest⟩ := List.cons.inj h
      rw [List.map_cons, List.map_cons, hfg a List.mem_cons_self b List.mem_cons_self hab,
        ih hrest fun a ha b hb => hfg a (List.mem_cons_of_mem _ ha) b (List.mem_cons_of_mem _ hb)]

theorem mixedKey_eq_of_partsKey_eq {left right : List MixedPart}
    (h : partsKey left = partsKey right) : mixedKey left = mixedKey right := by
  have hlist : listKey (left.map partKey) = listKey (right.map partKey) :=
    congrArg (fun key : PartsKey => (ofLex key).2) h
  have hpieces := map_eq_of_map_eq (listKey_injective hlist)
    fun a _ b _ => pieceKey_eq_of_partKey_eq (a := a) (b := b)
  rw [mixedKey, mixedKey, hpieces]

theorem literalWeight_eq {left right : List MixedPart}
    (h : left.map pieceKey = right.map pieceKey) : literalWeight left = literalWeight right := by
  have hfold (parts : List MixedPart) (n : ℤ) :
      parts.foldl addLiteral n = n + (parts.map (addLiteral 0)).sum := by
    induction parts generalizing n with
    | nil => simp
    | cons part parts ih =>
      rw [List.foldl_cons, ih, List.map_cons, List.sum_cons]
      cases part <;> simp [addLiteral, Int.add_assoc]
  have hmap : left.map (addLiteral 0) = right.map (addLiteral 0) := by
    refine map_eq_of_map_eq h fun a _ b _ hab => ?_
    cases a <;> cases b <;> simp [pieceKey, addLiteral] at hab ⊢
    rw [hab]
  rw [literalWeight, literalWeight, hfold, hfold, hmap]

namespace ParamConstraint

variable {c d : ParamConstraint}

theorem Same.size_eq (h : c.Same d) : c.size = d.size := by
  unfold Same at h
  unfold size
  split at h
  · rename_i hc hd
    simp only [hc, hd, h.length_eq]
  · rename_i hc hd
    simp only [hc, hd, h.1]
  · exact h.elim

theorem Same.oneOf_eq_none_iff (h : c.Same d) : c.oneOf = none ↔ d.oneOf = none := by
  unfold Same at h
  split at h
  · rename_i hc hd
    simp [hc, hd]
  · rename_i hc hd
    simp [hc, hd]
  · exact h.elim

theorem Same.bounds (h : c.Same d) (hnone : c.oneOf = none) : c.min = d.min ∧ c.max = d.max := by
  have hnone' := h.oneOf_eq_none_iff.mp hnone
  unfold Same at h
  simp only [hnone, hnone'] at h
  exact h.2

end ParamConstraint

theorem partKey_eq_of_pieceKey_eq {lower : Set (WithTop ℕ)} {left right : List MixedPart}
    (hleft : WellFormedParts lower left) (hright : WellFormedParts lower right) {a b : MixedPart}
    (ha : a ∈ left) (hb : b ∈ right) (h : pieceKey a = pieceKey b) : partKey a = partKey b := by
  have hkey {c : ParamConstraint} (hc : c.Valid) : c.key ≠ [] := by
    intro hnil
    cases hlist : c.oneOf with
    | none =>
      have hcomma := ParamConstraint.comma_mem_key hlist
      rw [hnil] at hcomma
      cases hcomma
    | some values =>
      obtain ⟨hne, hvalues⟩ := hc.values values hlist
      have hperm := List.mergeSort_perm values fun a b => decide (a ≤ b)
      rw [ParamConstraint.key, hlist] at hnil
      simp only at hnil
      rcases hsorted : values.mergeSort fun a b => decide (a ≤ b) with _ | ⟨value, rest⟩
      · rw [hsorted] at hperm
        exact hne (List.perm_nil.mp hperm.symm)
      · have hmem : value ∈ values := hperm.mem_iff.mp (hsorted ▸ List.mem_cons_self)
        rw [hsorted] at hnil
        exact List.intercalate_ne_nil (hvalues value hmem).1 hnil
  cases a with
  | lit a =>
    cases b with
    | lit b =>
      obtain rfl : a = b := (List.cons.inj h).2
      rfl
    | param name c => cases (List.cons.inj h).1
  | param name c =>
    cases b with
    | lit b => cases (List.cons.inj h).1
    | param name' d =>
      have hkeys := (List.cons.inj h).2
      cases c with
      | none =>
        cases d with
        | none => rfl
        | some d => exact absurd hkeys.symm (hkey (hright.valid _ d hb))
      | some c =>
        cases d with
        | none => exact absurd hkeys (hkey (hleft.valid _ c ha))
        | some d =>
          have hsame :=
            ParamConstraint.same_of_key_eq (hleft.valid _ c ha) (hright.valid _ d hb) hkeys
          have hrank : rank (some c) = rank (some d) := by
            rw [rank_some, rank_some]
            have := hsame.oneOf_eq_none_iff
            cases hc : c.oneOf <;> cases hd : d.oneOf <;> simp [hc, hd] at this ⊢
          have hbounds : c.min = d.min ∧ c.max = d.max := by
            by_cases hlist : c.oneOf = none
            · exact hsame.bounds hlist
            · have hc := hleft.lists _ c ha hlist
              have hd := hright.lists _ d hb (mt hsame.oneOf_eq_none_iff.mpr hlist)
              exact ⟨hc.1.trans hd.1.symm, hc.2.trans hd.2.symm⟩
          have hwidth : width c = width d := by rw [width, width, hbounds.1, hbounds.2]
          have hkey : c.key = d.key := hkeys
          rw [partKey, partKey, hrank, constraintKey, constraintKey, hsame.size_eq, hwidth, hkey]

theorem slash_not_mem_pieceKey {lower : Set (WithTop ℕ)} {parts : List MixedPart}
    (h : WellFormedParts lower parts) : ∀ piece ∈ parts.map pieceKey, 47 ∉ piece := by
  intro piece hpiece hmem
  obtain ⟨part, hpart, rfl⟩ := List.mem_map.mp hpiece
  cases part with
  | lit value =>
    rcases List.mem_cons.mp hmem with heq | hmem
    · omega
    · exact h.literals value hpart hmem
  | param name c =>
    rcases List.mem_cons.mp hmem with heq | hmem
    · omega
    · cases c with
      | none => cases hmem
      | some c => exact (h.valid name c hpart).slash_not_mem_key hmem

theorem partsKey_eq_of_mixedKey_eq {lower : Set (WithTop ℕ)} {left right : List MixedPart}
    (hleft : WellFormedParts lower left) (hright : WellFormedParts lower right)
    (h : mixedKey left = mixedKey right) : partsKey left = partsKey right := by
  have hpieces := List.intercalate_inj (slash_not_mem_pieceKey hleft)
    (slash_not_mem_pieceKey hright) (by simpa using hleft.ne_nil) (by simpa using hright.ne_nil) h
  have hparts := map_eq_of_map_eq hpieces fun a ha b hb =>
    partKey_eq_of_pieceKey_eq hleft hright ha hb
  rw [partsKey, partsKey, literalWeight_eq hpieces, hparts]

theorem mem_paramNameRun {text : JSString} {x : ℕ} (h : x ∈ paramNameRun text) : x ∈ text := by
  cases text with
  | nil => exact h
  | cons c rest =>
    rw [paramNameRun] at h
    split_ifs at h
    · rcases List.mem_cons.mp h with rfl | h
      · exact List.mem_cons_self
      · exact List.mem_cons_of_mem _ ((List.takeWhile_prefix _).subset h)
    · cases h

def FromText (text : JSString) : MixedPart → Prop
  | .lit value => ∀ x ∈ value, x ∈ text
  | .param _ c => ∃ after, c = paramConstraint after ∨ c = none

theorem fromText_splitMixedFrom {segment : JSString} {skip : ℕ} {previous : Option ℕ}
    {literal : JSString} {parts : List MixedPart} {text : JSString}
    (htext : ∀ x ∈ text, x ∈ segment) (hliteral : ∀ x ∈ literal, x ∈ segment)
    (hparts : ∀ part ∈ parts, FromText segment part) :
    ∀ part ∈ splitMixedFrom skip previous literal parts text, FromText segment part := by
  have hclose {literal : JSString} (hliteral : ∀ x ∈ literal, x ∈ segment) {parts : List MixedPart}
      (hparts : ∀ part ∈ parts, FromText segment part) :
      ∀ part ∈ if literal = [] then parts else parts ++ [.lit literal], FromText segment part := by
    intro part hpart
    split_ifs at hpart
    · exact hparts part hpart
    · rcases List.mem_append.mp hpart with hpart | hpart
      · exact hparts part hpart
      · obtain rfl := List.mem_singleton.mp hpart
        exact hliteral
  have hadd {literal more : JSString} (hliteral : ∀ x ∈ literal, x ∈ segment)
      (hmore : ∀ x ∈ more, x ∈ segment) : ∀ x ∈ literal ++ more, x ∈ segment := fun x hx =>
    (List.mem_append.mp hx).elim (hliteral x) (hmore x)
  induction text generalizing skip previous literal parts with
  | nil =>
    cases skip <;> exact hclose hliteral hparts
  | cons c rest ih =>
    have hc : c ∈ segment := htext c List.mem_cons_self
    have hrest : ∀ x ∈ rest, x ∈ segment := fun x hx => htext x (List.mem_cons_of_mem c hx)
    cases skip with
    | succ skip => exact ih hrest hliteral hparts
    | zero =>
      have hname : ∀ x ∈ paramNameRun rest, x ∈ segment := fun x hx => hrest x (mem_paramNameRun hx)
      simp only [splitMixedFrom]
      have hparam {name : JSString} {after : JSString} {parts : List MixedPart}
          (hparts : ∀ part ∈ parts, FromText segment part) :
          ∀ part ∈ parts ++ [.param name (paramConstraint after)], FromText segment part := by
        intro part hpart
        rcases List.mem_append.mp hpart with hpart | hpart
        · exact hparts part hpart
        · obtain rfl := List.mem_singleton.mp hpart
          exact ⟨_, Or.inl rfl⟩
      split_ifs with hcolon hempty hport hnone
      · refine ih hrest (hadd hliteral ?_) hparts
        rintro x (_ | ⟨_, ⟨⟩⟩)
        exact hc
      · refine ih hrest (hadd hliteral ?_) hparts
        rintro x (_ | ⟨_, ⟨⟩⟩)
        exact (not_not.mp hcolon) ▸ hc
      · refine ih hrest (hadd hliteral ?_) hparts
        rintro x (_ | ⟨_, hx⟩)
        · exact (not_not.mp hcolon) ▸ hc
        · exact hname x hx
      · exact ih hrest nofun (hparam hparts)
      · have hclosed := hclose hliteral hparts
        rw [if_neg hnone] at hclosed
        exact ih hrest nofun (hparam hclosed)

theorem paramConstraint_lists {text : JSString} {c : ParamConstraint}
    (h : paramConstraint text = some c) (hlist : c.oneOf ≠ none) : c.min = 1 ∧ c.max = 1 := by
  unfold paramConstraint at h
  split at h
  · dsimp only at h
    split at h
    · obtain ⟨⟨⟨min, max⟩, rest⟩, -, h⟩ := Option.bind_eq_some_iff.mp h
      obtain ⟨source, -, h⟩ := Option.bind_eq_some_iff.mp h
      obtain ⟨table, -, h⟩ := Option.bind_eq_some_iff.mp h
      split_ifs at h
      obtain rfl := Option.some.inj h
      exact absurd rfl hlist
    · obtain ⟨⟨values, rest⟩, -, h⟩ := Option.bind_eq_some_iff.mp h
      obtain ⟨source, -, h⟩ := Option.bind_eq_some_iff.mp h
      obtain rfl := Option.some.inj h
      exact ⟨rfl, rfl⟩
  · cases h

theorem wellFormedParts_of_splitMixed {lower : Set (WithTop ℕ)} {value : JSString}
    {parts : List MixedPart} (hslash : 47 ∉ value) (h : splitMixed value = some parts)
    (hlower : ∀ name c, .param name (some c) ∈ parts → c.oneOf = none → c.min ∈ lower) :
    WellFormedParts lower parts := by
  simp only [splitMixed] at h
  split_ifs at h with hany
  obtain rfl := Option.some.inj h
  have hfrom := @fromText_splitMixedFrom value 0 none [] [] value (fun x hx => hx) nofun nofun
  have hconstraint {name : JSString} {c : ParamConstraint}
      (hc : .param name (some c) ∈ splitMixedFrom 0 none [] [] value) :
      ∃ after, paramConstraint after = some c := by
    obtain ⟨after, h | h⟩ := hfrom _ hc
    · exact ⟨after, h.symm⟩
    · cases h
  refine ⟨?_, fun literal hliteral hmem => ?_, fun name c hc => ?_, hlower, fun name c hc => ?_⟩
  · intro hnil
    rw [hnil] at hany
    cases hany
  · exact hslash (hfrom _ hliteral 47 hmem)
  · obtain ⟨after, h⟩ := hconstraint hc
    exact paramConstraint_valid h
  · obtain ⟨after, h⟩ := hconstraint hc
    exact paramConstraint_lists h

theorem splitMixed_of_compileSegment {pattern value : JSString} {paramNames names : List JSString}
    {last : Bool} {parts : List MixedPart}
    (h : compileSegment pattern paramNames value last = .ok (.mixed parts, names)) :
    splitMixed value = some parts := by
  have hnamed {parts' : List MixedPart} (h : ((mixedNames pattern paramNames parts').map fun names =>
      (RoutePatternSegment.mixed parts', names)) = .ok (.mixed parts, names)) :
      some parts' = some parts := by
    cases hnames : mixedNames pattern paramNames parts' with
    | error e =>
      rw [hnames] at h
      cases h
    | ok names' =>
      rw [hnames] at h
      obtain ⟨h, -⟩ := Prod.mk.inj (Except.ok.inj h)
      rw [RoutePatternSegment.mixed.inj h]
  simp only [compileSegment] at h
  cases hvalue : splitMixed value with
  | none =>
    simp only [hvalue] at h
    split_ifs at h <;> cases h
  | some parts' =>
    simp only [hvalue] at h
    split_ifs at h <;> first | exact hnamed h | cases h

theorem mem_of_compileSegments {pattern : JSString} {paramNames names : List JSString}
    {values : List JSString} {segments : List RoutePatternSegment}
    (h : compileSegments pattern paramNames values = .ok (segments, names)) {parts : List MixedPart}
    (hparts : .mixed parts ∈ segments) : ∃ value ∈ values, splitMixed value = some parts := by
  induction values generalizing paramNames segments names with
  | nil =>
    cases h
    cases hparts
  | cons value values ih =>
    simp only [compileSegments, bind, Except.bind] at h
    cases hfirst : compileSegment pattern paramNames value values.isEmpty with
    | error e =>
      rw [hfirst] at h
      cases h
    | ok first =>
      obtain ⟨segment, names'⟩ := first
      simp only [hfirst] at h
      cases hrest : compileSegments pattern names' values with
      | error e =>
        rw [hrest] at h
        cases h
      | ok rest =>
        simp only [hrest] at h
        obtain ⟨hsegments, -⟩ := Prod.mk.inj (Except.ok.inj h)
        rw [← hsegments] at hparts
        rcases List.mem_cons.mp hparts with rfl | hparts
        · exact ⟨value, List.mem_cons_self, splitMixed_of_compileSegment hfirst⟩
        · obtain ⟨value', hvalue', hsplit⟩ := ih hrest hparts
          exact ⟨value', List.mem_cons_of_mem _ hvalue', hsplit⟩

theorem wellFormedPattern_of_compile {nfc : JSString → JSString} {path : JSString}
    {pattern : CompiledRoutePattern} (h : compileRoutePattern nfc path = .ok pattern)
    {lower : Set (WithTop ℕ)} (hlower : ∀ parts, .mixed parts ∈ pattern.segments →
      ∀ name c, .param name (some c) ∈ parts → c.oneOf = none → c.min ∈ lower) :
    WellFormedPattern lower pattern := by
  intro parts hparts
  rw [compileRoutePattern] at h
  split_ifs at h
  split at h
  · cases h
  · rename_i text htext
    cases hsegments : compileSegments text []
      (if text = [47] then [] else text.tail.splitOn 47) with
    | error e =>
      simp only [hsegments] at h
      cases h
    | ok compiled =>
      simp only [hsegments] at h
      obtain rfl := Except.ok.inj h
      obtain ⟨value, hvalue, hsplit⟩ := mem_of_compileSegments hsegments hparts
      refine wellFormedParts_of_splitMixed (fun hslash => ?_) hsplit (hlower parts hparts)
      split_ifs at hvalue
      · cases hvalue
      · exact (List.mem_of_mem_splitOn hvalue hslash).2 rfl

theorem wellFormedPattern_of_compile_kind :
    ∃ pattern, compileRoutePattern id (js "/:kind\x7bpost|page\x7d-:id") = .ok pattern ∧
      WellFormedPattern Set.univ pattern := by
  have hsegments : ((compileRoutePattern id (js "/:kind\x7bpost|page\x7d-:id")).map
      (·.segments.length)).toOption = some 1 := by decide +kernel
  cases h : compileRoutePattern id (js "/:kind\x7bpost|page\x7d-:id") with
  | error e =>
    rw [h] at hsegments
    cases hsegments
  | ok pattern =>
    exact ⟨pattern, rfl, wellFormedPattern_of_compile h fun _ _ _ _ _ _ => Set.mem_univ _⟩

end Nifra.Router
