import Nifra.Lib.StringSearch
import Nifra.Router.Pattern

/-! # What a mixed segment matches

A segment matches a mixed shape when it is the literals of the shape with a value between every two
of them, and the values that are captured are the shortest ones, the first value first.
-/

namespace Nifra.Router

open Search

inductive Decomposes : List JSString → JSString → List JSString → Prop
  | last (literal : JSString) : Decomposes [literal] literal []
  | param {literal value rest : JSString} {literals values : List JSString} (hvalue : value ≠ [])
    (h : Decomposes literals rest values) :
    Decomposes (literal :: literals) (literal ++ (value ++ rest)) (value :: values)

inductive Fills : List JSString → JSString → List JSString → Prop
  | last {value : JSString} (hvalue : value ≠ []) : Fills [] value [value]
  | next {separator value rest : JSString} {separators values : List JSString} (hvalue : value ≠ [])
    (h : Fills separators rest values) :
    Fills (separator :: separators) (value ++ (separator ++ rest)) (value :: values)

inductive ShortestFirst : List JSString → List JSString → Prop
  | nil : ShortestFirst [] []
  | shorter {value other : JSString} {values others : List JSString}
    (h : value.length < other.length) : ShortestFirst (value :: values) (other :: others)
  | same {value other : JSString} {values others : List JSString}
    (heq : value.length = other.length) (h : ShortestFirst values others) :
    ShortestFirst (value :: values) (other :: others)

theorem Fills.ne_nil {separators values : List JSString} {body : JSString}
    (h : Fills separators body values) : body ≠ [] := by
  cases h with
  | last hvalue => exact hvalue
  | next hvalue => exact List.append_ne_nil_of_left_ne_nil hvalue _

theorem fills_nil_iff {body : JSString} {values : List JSString} :
    Fills [] body values ↔ body ≠ [] ∧ values = [body] := by
  constructor
  · rintro ⟨hvalue⟩
    exact ⟨hvalue, rfl⟩
  · rintro ⟨hbody, rfl⟩
    exact .last hbody

theorem decomposes_iff {head tail segment : JSString} {separators values : List JSString} :
    Decomposes (head :: (separators ++ [tail])) segment values ↔
      ∃ body, segment = head ++ (body ++ tail) ∧ Fills separators body values := by
  induction separators generalizing head segment values with
  | nil =>
    constructor
    · rintro (_ | ⟨hvalue, _ | ⟨_, h⟩⟩)
      · exact ⟨_, rfl, .last hvalue⟩
      · cases h
    · rintro ⟨body, rfl, ⟨hvalue⟩⟩
      exact .param hvalue (.last tail)
  | cons separator separators ih =>
    constructor
    · rintro (_ | ⟨hvalue, h⟩)
      obtain ⟨body, rfl, hfills⟩ := ih.mp h
      exact ⟨_, by simp only [List.append_assoc], .next hvalue hfills⟩
    · rintro ⟨body, rfl, h⟩
      cases h with
      | next hvalue hfills =>
        simp only [List.append_assoc]
        exact .param hvalue (ih.mpr ⟨_, rfl, hfills⟩)

theorem Fills.prepend {separators values : List JSString} {body : JSString}
    (h : Fills separators body values) (extra : JSString) :
    ∃ values', Fills separators (extra ++ body) values' := by
  cases h with
  | last hvalue => exact ⟨_, .last (List.append_ne_nil_of_right_ne_nil extra hvalue)⟩
  | next hvalue h =>
    rw [← List.append_assoc]
    exact ⟨_, .next (List.append_ne_nil_of_right_ne_nil extra hvalue) h⟩

theorem firstIndexOf_spec {separator text : JSString} {i : ℕ}
    (h : firstIndexOf separator text = some i) :
    OccursAt separator text i ∧ ∀ j < i, ¬ OccursAt separator text j := by
  induction text generalizing i with
  | nil =>
    rw [firstIndexOf] at h
    split_ifs at h with hempty
    obtain rfl := Option.some.inj h
    exact ⟨by simp [OccursAt, hempty], by rintro _ ⟨⟩⟩
  | cons c text ih =>
    rw [firstIndexOf] at h
    split_ifs at h with hfront
    · obtain rfl := Option.some.inj h
      exact ⟨List.isPrefixOf_iff_prefix.mp hfront, by rintro _ ⟨⟩⟩
    · obtain ⟨i, hi, rfl⟩ := Option.map_eq_some_iff.mp h
      obtain ⟨hocc, hfirst⟩ := ih hi
      refine ⟨hocc, fun j hj => ?_⟩
      cases j with
      | zero => exact fun hocc => hfront (List.isPrefixOf_iff_prefix.mpr hocc)
      | succ j => exact hfirst j (Nat.lt_of_succ_lt_succ hj)

theorem exists_firstIndexOf {separator text : JSString} {j : ℕ} (h : OccursAt separator text j) :
    ∃ i ≤ j, firstIndexOf separator text = some i := by
  induction text generalizing j with
  | nil =>
    obtain rfl : separator = [] := by simpa [OccursAt] using h
    exact ⟨0, Nat.zero_le j, rfl⟩
  | cons c text ih =>
    rw [firstIndexOf]
    split_ifs with hfront
    · exact ⟨0, Nat.zero_le j, rfl⟩
    · cases j with
      | zero => exact absurd (List.isPrefixOf_iff_prefix.mpr h) hfront
      | succ j =>
        obtain ⟨i, hi, heq⟩ := ih h
        exact ⟨i + 1, Nat.succ_le_succ hi, by rw [heq]; rfl⟩

theorem indexOf_spec {separator text : JSString} {start found : ℕ}
    (h : indexOf separator text start = some found) :
    start ≤ found ∧ OccursAt separator text found := by
  obtain ⟨i, hi, rfl⟩ := Option.map_eq_some_iff.mp h
  have hocc := (firstIndexOf_spec hi).1
  rw [OccursAt, List.drop_drop] at hocc
  exact ⟨Nat.le_add_right start i, hocc⟩

theorem exists_indexOf {separator text : JSString} {start j : ℕ} (hj : start ≤ j)
    (h : OccursAt separator text j) : ∃ found ≤ j, indexOf separator text start = some found := by
  obtain ⟨q, rfl⟩ := Nat.exists_eq_add_of_le hj
  rw [OccursAt, ← List.drop_drop] at h
  obtain ⟨i, hi, heq⟩ := exists_firstIndexOf h
  exact ⟨start + i, by omega, by rw [indexOf, heq]; rfl⟩

section Scan
variable {segment separator : JSString} {separators : List JSString} {stop start found : ℕ}

theorem slice_eq (segment : JSString) (start stop : ℕ) :
    slice segment start stop = (segment.take stop).drop start := by
  rw [slice, List.drop_take]

theorem drop_eq_split (hocc : OccursAt separator segment found) (hstart : start ≤ found)
    (hnext : found + separator.length ≤ stop) :
    (segment.take stop).drop start = slice segment start found ++
      (separator ++ (segment.take stop).drop (found + separator.length)) := by
  obtain ⟨more, hmore⟩ := hocc
  have hbehind : (segment.take stop).drop found =
      separator ++ (segment.take stop).drop (found + separator.length) := by
    rw [List.drop_take, List.drop_take, ← List.drop_drop, ← hmore, List.drop_left, List.take_append,
      List.take_of_length_le (by omega), Nat.sub_sub]
  have hbefore :
      ((segment.take stop).drop start).take (found - start) = slice segment start found := by
    rw [List.drop_take, List.take_take, Nat.min_eq_left (by omega), slice]
  calc (segment.take stop).drop start
      = ((segment.take stop).drop start).take (found - start) ++
          ((segment.take stop).drop start).drop (found - start) := (List.take_append_drop _ _).symm
    _ = slice segment start found ++
          (separator ++ (segment.take stop).drop (found + separator.length)) := by
        rw [hbefore, List.drop_drop, Nat.add_sub_cancel' hstart, ← hbehind]

theorem occursAt_of_split {value rest : JSString}
    (hbody : (segment.take stop).drop start = value ++ (separator ++ rest)) :
    OccursAt separator segment (start + value.length) := by
  have hdrop : (segment.take stop).drop (start + value.length) = separator ++ rest := by
    rw [← List.drop_drop, hbody, List.drop_left]
  have hfront : separator <+: (segment.take stop).drop (start + value.length) :=
    hdrop ▸ List.prefix_append _ _
  rw [List.drop_take] at hfront
  exact hfront.trans (List.take_prefix _ _)

theorem Fills.exists_indexOf {values : List JSString}
    (h : Fills (separator :: separators) ((segment.take stop).drop start) values) :
    ∃ found, indexOf separator segment (start + 1) = some found := by
  generalize hbody : (segment.take stop).drop start = body at h
  cases h with
  | next hvalue =>
    have hpos := List.length_pos_of_ne_nil hvalue
    obtain ⟨found, -, hfound⟩ := Router.exists_indexOf (show start + 1 ≤ _ by omega)
      (occursAt_of_split hbody)
    exact ⟨found, hfound⟩

/-- Where the values fill the text behind a place, the first occurrence of the separator leaves text
that can be filled too, and is no later than the one of the filling. -/
theorem Fills.first {values : List JSString} (hstop : stop ≤ segment.length)
    (hfound : indexOf separator segment (start + 1) = some found)
    (h : Fills (separator :: separators) ((segment.take stop).drop start) values) :
    found + separator.length < stop ∧
      (∃ others, Fills separators ((segment.take stop).drop (found + separator.length)) others) ∧
      ∃ value rest, values = value :: rest ∧ found ≤ start + value.length ∧
        (found = start + value.length →
          Fills separators ((segment.take stop).drop (found + separator.length)) rest) := by
  generalize hbody : (segment.take stop).drop start = body at h
  cases h with
  | @next _ value rest _ values hvalue hrest =>
    have hpos := List.length_pos_of_ne_nil hvalue
    have hpos' := List.length_pos_of_ne_nil hrest.ne_nil
    have hlength := congrArg List.length hbody
    simp only [List.length_drop, List.length_take, List.length_append] at hlength
    obtain ⟨found', hle, hfound'⟩ := Router.exists_indexOf (show start + 1 ≤ _ by omega)
      (occursAt_of_split hbody)
    obtain rfl : found = found' := Option.some.inj (hfound.symm.trans hfound')
    have hdrop : (segment.take stop).drop (start + value.length + separator.length) = rest := by
      rw [← List.drop_drop, ← List.drop_drop, hbody, List.drop_left, List.drop_left]
    refine ⟨by omega, ?_, value, values, rfl, hle, ?_⟩
    · obtain ⟨q, hq⟩ := Nat.exists_eq_add_of_le
        (show found + separator.length ≤ start + value.length + separator.length by omega)
      rw [hq, ← List.drop_drop] at hdrop
      rw [← List.take_append_drop q ((segment.take stop).drop (found + separator.length)), hdrop]
      exact hrest.prepend _
    · rintro rfl
      rwa [hdrop]

end Scan

/-- The scan fills the text between the first literal and the last one with the shortest values, the
first value first, and misses where nothing fills it. -/
theorem scanMixed_spec {segment : JSString} {stop base : ℕ} (hstop : stop ≤ segment.length)
    {separators : List JSString} {start : ℕ} {out : List JSString} (hstart : start < stop)
    (hbase : base ≤ out.length) :
    (scanMixed segment stop base separators start out = (none, out.take base) ∧
      ∀ values, ¬ Fills separators ((segment.take stop).drop start) values) ∨
    ∃ last values, scanMixed segment stop base separators start out = (some last, out ++ values) ∧
      Fills separators ((segment.take stop).drop start) (values ++ [slice segment last stop]) ∧
      ∀ others, Fills separators ((segment.take stop).drop start) others →
        ShortestFirst (values ++ [slice segment last stop]) others := by
  induction separators generalizing start out with
  | nil =>
    refine Or.inr ⟨start, [], by rw [scanMixed, List.append_nil], ?_, ?_⟩
    · rw [List.nil_append, slice_eq]
      refine .last (List.ne_nil_of_length_pos ?_)
      rw [List.length_drop, List.length_take]
      omega
    · intro others hothers
      obtain ⟨-, rfl⟩ := fills_nil_iff.mp hothers
      rw [List.nil_append, slice_eq]
      exact .same rfl .nil
  | cons separator separators ih =>
    rw [scanMixed]
    rcases hfound : indexOf separator segment (start + 1) with _ | found
    · refine Or.inl ⟨by simp, fun values h => ?_⟩
      obtain ⟨found, hfound'⟩ := h.exists_indexOf
      rw [hfound] at hfound'
      cases hfound'
    · obtain ⟨hle, hocc⟩ := indexOf_spec hfound
      by_cases hnext : stop ≤ found + separator.length
      · simp only [if_pos hnext]
        refine Or.inl ⟨trivial, fun values h => ?_⟩
        exact absurd (h.first hstop hfound).1 (not_lt.mpr hnext)
      · simp only [if_neg hnext]
        have hvalue : (slice segment start found).length = found - start := by
          rw [slice, List.length_take, List.length_drop]
          omega
        have hsplit := drop_eq_split hocc (Nat.le_of_succ_le hle) (not_le.mp hnext).le
        have hlength : base ≤ (out ++ [slice segment start found]).length := by
          rw [List.length_append]
          omega
        rcases ih (not_le.mp hnext) hlength with
          ⟨hscan, hnone⟩ | ⟨last, values, hscan, hfills, hmin⟩
        · refine Or.inl ⟨by rw [hscan, List.take_append_of_le_length hbase], fun values h => ?_⟩
          obtain ⟨-, ⟨others, h'⟩, -⟩ := h.first hstop hfound
          exact hnone others h'
        · refine Or.inr ⟨last, slice segment start found :: values, ?_, ?_, ?_⟩
          · rw [hscan, List.append_assoc]
            rfl
          · rw [hsplit]
            exact .next (List.ne_nil_of_length_pos (by omega)) hfills
          · intro others hothers
            obtain ⟨-, -, value, rest, rfl, hshort, hsame⟩ := hothers.first hstop hfound
            rcases hshort.lt_or_eq with hlt | heq
            · exact .shorter (by omega)
            · exact .same (by omega) (hmin rest (hsame heq))

section Match
variable {head tail segment : JSString} {separators out : List JSString}

theorem ends_of_decomposes {values : List JSString}
    (h : Decomposes (head :: (separators ++ [tail])) segment values) :
    head.length + tail.length < segment.length ∧ head <+: segment ∧ tail <:+ segment ∧
      Fills separators ((segment.take (segment.length - tail.length)).drop head.length) values := by
  obtain ⟨body, rfl, hfills⟩ := decomposes_iff.mp h
  have hpos := List.length_pos_of_ne_nil hfills.ne_nil
  have hlength : (head ++ (body ++ tail)).length - tail.length = (head ++ body).length := by
    simp only [List.length_append]
    omega
  refine ⟨by simp only [List.length_append]; omega, List.prefix_append _ _,
    (List.suffix_append _ _).trans (List.suffix_append _ _), ?_⟩
  rwa [hlength, ← List.append_assoc, List.take_left, List.drop_left]

theorem decomposes_of_ends {values : List JSString} (hhead : head <+: segment)
    (htail : tail <:+ segment) (hlength : head.length + tail.length < segment.length)
    (h : Fills separators ((segment.take (segment.length - tail.length)).drop head.length) values) :
    Decomposes (head :: (separators ++ [tail])) segment values := by
  refine decomposes_iff.mpr ⟨_, ?_, h⟩
  obtain ⟨rest, rfl⟩ := hhead
  obtain ⟨front, hfront⟩ := htail
  rw [List.length_append] at hlength
  have htake : (head ++ rest).take ((head ++ rest).length - tail.length) = front := by
    rw [← hfront, List.length_append, Nat.add_sub_cancel, List.take_left]
  have hcut : head <+: front := by
    refine List.prefix_of_prefix_length_le (List.prefix_append head rest)
      (hfront ▸ List.prefix_append front tail) ?_
    have := congrArg List.length hfront
    simp only [List.length_append] at this
    omega
  obtain ⟨body, rfl⟩ := hcut
  rw [htake, List.drop_left, ← hfront, List.append_assoc]

theorem matchMixedSegment_cases (out : List JSString) :
    ((∀ values, ¬ Decomposes (head :: (separators ++ [tail])) segment values) ∧
      ∀ checked, matchMixedSegment (head :: (separators ++ [tail])) segment out checked =
        (false, out)) ∨
    ∃ values, Decomposes (head :: (separators ++ [tail])) segment values ∧
      (∀ others, Decomposes (head :: (separators ++ [tail])) segment others →
        ShortestFirst values others) ∧
      ∀ checked, matchMixedSegment (head :: (separators ++ [tail])) segment out checked =
        if checked.all fun parts => checkValues (out ++ values) parts out.length then
          (true, out ++ values)
        else (false, out) := by
  have hlast : (head :: (separators ++ [tail])).getLastD [] = tail := by
    rw [← List.cons_append, List.getLastD_concat]
  have hmiddle : (head :: (separators ++ [tail])).tail.dropLast = separators := by
    rw [List.tail_cons, List.dropLast_concat]
  simp only [matchMixedSegment, List.headD_cons, hlast, hmiddle, Bool.not_eq_true',
    ← Bool.not_eq_true, List.isPrefixOf_iff_prefix, List.isSuffixOf_iff_suffix]
  by_cases hlength : segment.length ≤ head.length + tail.length
  · refine Or.inl ⟨fun values h => ?_, fun checked => if_pos hlength⟩
    exact absurd (ends_of_decomposes h).1 (not_lt.mpr hlength)
  by_cases hhead : head <+: segment
  · by_cases htail : tail <:+ segment
    · simp only [if_neg hlength, hhead, htail, not_true_eq_false, if_false]
      have hfills (values : List JSString) :
          Decomposes (head :: (separators ++ [tail])) segment values ↔ Fills separators
            ((segment.take (segment.length - tail.length)).drop head.length) values :=
        ⟨fun h => (ends_of_decomposes h).2.2.2, decomposes_of_ends hhead htail (not_le.mp hlength)⟩
      simp only [hfills]
      rcases @scanMixed_spec segment _ _ (Nat.sub_le segment.length tail.length) separators
        head.length out (by omega) (le_refl out.length) with
        ⟨hscan, hnone⟩ | ⟨start, values, hscan, hvalues, hmin⟩
      · refine Or.inl ⟨hnone, fun checked => ?_⟩
        rw [hscan]
        simp
      · refine Or.inr ⟨_, hvalues, hmin, fun checked => ?_⟩
        rw [hscan]
        simp
    · refine Or.inl ⟨fun values h => htail (ends_of_decomposes h).2.2.1, fun checked => ?_⟩
      simp [hlength, hhead, htail]
  · refine Or.inl ⟨fun values h => hhead (ends_of_decomposes h).2.1, fun checked => ?_⟩
    simp [hlength, hhead]

end Match

/-- A mixed shape matches what an anchored pattern with lazy captures matches, with the captures
that this pattern selects, and a miss leaves `out` as it was. -/
theorem matchMixedSegment_lazy (head next : JSString) (literals : List JSString)
    (segment : JSString) (out : List JSString) :
    let shape := head :: next :: literals
    let result := matchMixedSegment shape segment out none
    (result.1 = true ↔ ∃ values, Decomposes shape segment values) ∧
      (result.1 = true → ∃ values, result.2 = out ++ values ∧ Decomposes shape segment values ∧
        ∀ others, Decomposes shape segment others → ShortestFirst values others) ∧
      ∀ checked, (matchMixedSegment shape segment out checked).1 = false →
        (matchMixedSegment shape segment out checked).2 = out := by
  obtain ⟨separators, tail, hshape⟩ : ∃ separators tail, next :: literals = separators ++ [tail] :=
    (List.eq_nil_or_concat (next :: literals)).resolve_left (List.cons_ne_nil _ _) |>.imp
      fun separators ⟨tail, h⟩ => ⟨tail, by rw [h, List.concat_eq_append]⟩
  simp only [hshape]
  rcases matchMixedSegment_cases out with ⟨hnone, hmiss⟩ | ⟨values, hvalues, hmin, hmatch⟩
  · refine ⟨?_, ?_, fun checked _ => ?_⟩
    · rw [hmiss]
      exact iff_of_false Bool.false_ne_true fun ⟨values, h⟩ => hnone values h
    · rw [hmiss]
      intro h
      cases h
    · rw [hmiss]
  · refine ⟨?_, fun _ => ⟨values, ?_, hvalues, hmin⟩, fun checked h => ?_⟩
    · rw [hmatch]
      exact iff_of_true rfl ⟨values, hvalues⟩
    · rw [hmatch]
      rfl
    · rw [hmatch] at h ⊢
      split_ifs at h ⊢
      rfl

end Nifra.Router
