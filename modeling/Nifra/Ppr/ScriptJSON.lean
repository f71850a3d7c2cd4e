import Nifra.Multipart.Parts
import Nifra.Text.JSONUtf8

/-! # JSON inside a script element

The text of a value with `</` and `<!--` escaped after it was printed. Neither is left in it, and it
still parses to the value.
-/

namespace Nifra.Ppr

open Multipart (replaceAll replaceFrom)
open JSON

section Replace
variable {x c : ℕ} {q r s t : JSString}

theorem replaceAll_nil (pattern replacement : JSString) :
    replaceAll [] pattern replacement = [] := rfl

theorem replaceAll_match (q r s : JSString) :
    replaceAll (x :: (q ++ s)) (x :: q) r = r ++ replaceAll s (x :: q) r := by
  have hskip : ∀ q' : JSString, replaceFrom (x :: q) r q'.length (q' ++ s) =
      replaceFrom (x :: q) r 0 s := by
    intro q'
    induction q' with
    | nil => rfl
    | cons c q' ih => exact ih
  have hprefix : (x :: q).isPrefixOf (x :: (q ++ s)) = true := by
    rw [List.isPrefixOf_iff_prefix, List.cons_prefix_cons]
    exact ⟨rfl, List.prefix_append q s⟩
  rw [replaceAll, replaceFrom, if_pos hprefix, List.length_cons, Nat.add_sub_cancel, hskip,
    replaceAll]

theorem replaceAll_cons (h : ¬ x :: q <+: c :: s) :
    replaceAll (c :: s) (x :: q) r = c :: replaceAll s (x :: q) r := by
  rw [replaceAll, replaceFrom, if_neg (by rwa [List.isPrefixOf_iff_prefix])]
  rfl

theorem replaceAll_cons_ne (h : c ≠ x) (q r s : JSString) :
    replaceAll (c :: s) (x :: q) r = c :: replaceAll s (x :: q) r :=
  replaceAll_cons fun hprefix => h (List.cons_prefix_cons.mp hprefix).1.symm

theorem replace_cases (x : ℕ) (q s : JSString) :
    s = [] ∨ (∃ t, s = x :: (q ++ t)) ∨ ∃ c t, s = c :: t ∧ ¬ x :: q <+: c :: t := by
  cases s with
  | nil => exact Or.inl rfl
  | cons c t =>
    by_cases h : x :: q <+: c :: t
    · obtain ⟨t', ht⟩ := h
      exact Or.inr (Or.inl ⟨t', ht.symm⟩)
    · exact Or.inr (Or.inr ⟨c, t, rfl, h⟩)

theorem replaceAll_append_of_not_mem (h : x ∉ s) :
    replaceAll (s ++ t) (x :: q) r = s ++ replaceAll t (x :: q) r := by
  induction s with
  | nil => rfl
  | cons c s ih =>
    rw [List.mem_cons, not_or] at h
    rw [List.cons_append, replaceAll_cons_ne (Ne.symm h.1), ih h.2, List.cons_append]

theorem prefix_of_prefix_append_cons {y : JSString} (hc : c ∉ y) (h : y <+: s ++ c :: t) :
    y <+: s := by
  induction y generalizing s with
  | nil => exact List.nil_prefix
  | cons d y ih =>
    rw [List.mem_cons, not_or] at hc
    cases s with
    | nil => exact absurd (List.cons_prefix_cons.mp h).1.symm hc.1
    | cons e s =>
      rw [List.cons_append, List.cons_prefix_cons] at h
      exact List.cons_prefix_cons.mpr ⟨h.1, ih hc.2 h.2⟩

theorem replaceAll_append_cons (h : c ∉ x :: q) (s t : JSString) :
    replaceAll (s ++ c :: t) (x :: q) r =
      replaceAll s (x :: q) r ++ c :: replaceAll t (x :: q) r := by
  induction hlen : s.length using Nat.strong_induction_on generalizing s with
  | _ n ih =>
    rcases replace_cases x q s with rfl | ⟨s', rfl⟩ | ⟨d, s', rfl, hne⟩
    · refine replaceAll_cons_ne ?_ q r t
      rintro rfl
      exact h List.mem_cons_self
    · rw [List.cons_append, List.append_assoc, replaceAll_match, replaceAll_match,
        ih _ (by simp at hlen; omega) s' rfl, List.append_assoc]
    · have hne' : ¬ x :: q <+: d :: (s' ++ c :: t) := fun hprefix =>
        hne (prefix_of_prefix_append_cons (s := d :: s') h hprefix)
      rw [List.cons_append, replaceAll_cons hne', replaceAll_cons hne,
        ih _ (by simp at hlen; omega) s' rfl, List.cons_append]

theorem mem_replaceAll (h : c ∈ replaceAll s (x :: q) r) : c ∈ s ∨ c ∈ r := by
  induction hlen : s.length using Nat.strong_induction_on generalizing s with
  | _ n ih =>
    rcases replace_cases x q s with rfl | ⟨s', rfl⟩ | ⟨d, s', rfl, hne⟩
    · exact absurd h List.not_mem_nil
    · rw [replaceAll_match, List.mem_append] at h
      rcases h with h | h
      · exact Or.inr h
      · rcases ih _ (by simp at hlen; omega) h rfl with h | h
        · exact Or.inl (List.mem_cons_of_mem _ (List.mem_append_right _ h))
        · exact Or.inr h
    · rw [replaceAll_cons hne] at h
      rcases List.mem_cons.mp h with rfl | h
      · exact Or.inl List.mem_cons_self
      · rcases ih _ (by simp at hlen; omega) h rfl with h | h
        · exact Or.inl (List.mem_cons_of_mem _ h)
        · exact Or.inr h

/-- What the text begins with behind the replacing, without the first unit of the pattern, it began
with before. -/
theorem prefix_of_replaceAll {y : JSString} (hx : x ∉ y)
    (h : y <+: replaceAll s (x :: q) (x :: r)) : y <+: s := by
  induction y generalizing s with
  | nil => exact List.nil_prefix
  | cons d y ih =>
    rw [List.mem_cons, not_or] at hx
    rcases replace_cases x q s with rfl | ⟨s', rfl⟩ | ⟨e, s', rfl, hne⟩
    · exact h
    · rw [replaceAll_match, List.cons_append, List.cons_prefix_cons] at h
      exact absurd h.1.symm hx.1
    · rw [replaceAll_cons hne, List.cons_prefix_cons] at h
      exact List.cons_prefix_cons.mpr ⟨h.1, ih hx.2 h.2⟩

/-- A word that begins like the pattern, and otherwise than the replacement, is in the text only
where it stood before and no occurrence began. -/
theorem not_infix_replaceAll {b d : ℕ} {y : JSString} (hxr : x ∉ b :: r) (hxy : x ∉ d :: y)
    (hbd : b ≠ d)
    (h : ∀ t, t <:+ s → x :: d :: y <+: t → x :: q <+: t) :
    ¬ x :: d :: y <:+: replaceAll s (x :: q) (x :: b :: r) := by
  induction hlen : s.length using Nat.strong_induction_on generalizing s with
  | _ n ih =>
    rcases replace_cases x q s with rfl | ⟨s', rfl⟩ | ⟨e, s', rfl, hne⟩
    · rw [replaceAll_nil, List.infix_nil]
      exact List.cons_ne_nil _ _
    · have hrest : ¬ x :: d :: y <:+: replaceAll s' (x :: q) (x :: b :: r) :=
        ih _ (by simp at hlen; omega) (fun t ht => h t
          (ht.trans ((List.suffix_append q s').trans (List.suffix_cons x _)))) rfl
      have hskip : ∀ u : JSString, x ∉ u →
          ¬ x :: d :: y <:+: u ++ replaceAll s' (x :: q) (x :: b :: r) := by
        intro u hu
        induction u with
        | nil => exact hrest
        | cons e u ihu =>
          rw [List.mem_cons, not_or] at hu
          rw [List.cons_append, List.infix_cons_iff, not_or]
          exact ⟨fun hprefix => hu.1 (List.cons_prefix_cons.mp hprefix).1, ihu hu.2⟩
      rw [replaceAll_match, List.cons_append, List.infix_cons_iff, not_or]
      refine ⟨fun hprefix => hbd ?_, hskip _ hxr⟩
      exact (List.cons_prefix_cons.mp (List.cons_prefix_cons.mp hprefix).2).1.symm
    · rw [replaceAll_cons hne, List.infix_cons_iff, not_or]
      refine ⟨fun hprefix => ?_, ih _ (by simp at hlen; omega)
        (fun t ht => h t (ht.trans (List.suffix_cons e s'))) rfl⟩
      obtain ⟨rfl, hy⟩ := List.cons_prefix_cons.mp hprefix
      exact hne (h _ (List.suffix_refl _)
        (List.cons_prefix_cons.mpr ⟨rfl, prefix_of_replaceAll hxy hy⟩))

end Replace

inductive Spelling : JSString → JSString → Prop
  | nil : Spelling [] []
  | raw {c : ℕ} {w s : JSString} (hquote : c ≠ 34) (hslash : c ≠ 92) (hcontrol : 32 ≤ c)
      (h : Spelling w s) : Spelling (c :: w) (c :: s)
  | short {e c : ℕ} {w s : JSString} (hletter : unescapeLetter e = some c) (he : e ≠ 117)
      (h : Spelling w s) : Spelling (92 :: e :: w) (c :: s)
  | unicode {a b c d u : ℕ} {w s : JSString} (hunit : hexUnit a b c d = some u)
      (h : Spelling w s) : Spelling (92 :: 117 :: a :: b :: c :: d :: w) (u :: s)

theorem Spelling.read {w s : JSString} (h : Spelling w s) (rest : JSString) :
    readString (w ++ 34 :: rest) = some (s, rest) := by
  induction h with
  | nil => rfl
  | raw hquote hslash hcontrol _ ih =>
    rw [List.cons_append, readString, if_neg (by omega), ih]
    · rfl
    · exact hquote
    · exact fun _ _ _ _ _ heq _ => hslash heq
    · exact fun _ _ heq _ => hslash heq
  | short hletter he _ ih =>
    rw [List.cons_append, List.cons_append, readString, hletter, Option.bind_some, ih]
    · rfl
    · exact fun _ _ _ _ _ heq _ => he heq
  | unicode hunit _ ih =>
    simp only [List.cons_append]
    rw [readString, hunit, Option.bind_some, ih]
    rfl

theorem spelling_escape (s : JSString) : Spelling (JSON.escape s) s := by
  obtain ⟨ws, hws, heq⟩ := exists_spells s
  rw [← heq]
  clear heq
  induction hws with
  | nil => exact .nil
  | cons hc _ ih =>
    cases hc with
    | raw hquote hslash hcontrol => exact .raw hquote hslash hcontrol ih
    | short hmem =>
      obtain ⟨hletter, he⟩ := unescapeLetter_of_mem hmem
      exact .short hletter he ih
    | unicode hlt =>
      refine .unicode ?_ ih
      simp only [hexUnit, JSON.hexValue_hexDigit (Nat.mod_lt _ (by omega : 0 < 16)),
        Option.bind_eq_bind, Option.bind_some]
      congr 1
      omega

def PlainUnits (q : JSString) : Prop := ∀ c ∈ q, c ≠ 34 ∧ c ≠ 92 ∧ 32 ≤ c

theorem Spelling.of_append {q w s : JSString} (hq : PlainUnits q) (h : Spelling (q ++ w) s) :
    ∃ s', s = q ++ s' ∧ Spelling w s' := by
  induction q generalizing s with
  | nil => exact ⟨s, rfl, h⟩
  | cons c q ih =>
    obtain ⟨hc, hq⟩ := List.forall_mem_cons.mp hq
    rw [List.cons_append] at h
    generalize hu : q ++ w = u at h
    cases h with
    | raw _ _ _ h =>
      subst hu
      obtain ⟨s', rfl, hs⟩ := ih hq h
      exact ⟨s', rfl, hs⟩
    | short => exact absurd rfl hc.2.1
    | unicode => exact absurd rfl hc.2.1

theorem ne_of_hexUnit {a b c d u : ℕ} (h : hexUnit a b c d = some u) :
    a ≠ 60 ∧ b ≠ 60 ∧ c ≠ 60 ∧ d ≠ 60 := by
  simp only [hexUnit, Option.bind_eq_bind, Option.bind_eq_some_iff] at h
  obtain ⟨a', ha, b', hb, c', hc, d', hd, -⟩ := h
  have hnone : JSON.hexValue 60 = none := by decide
  refine ⟨?_, ?_, ?_, ?_⟩ <;> rintro rfl
  · rw [hnone] at ha
    cases ha
  · rw [hnone] at hb
    cases hb
  · rw [hnone] at hc
    cases hc
  · rw [hnone] at hd
    cases hd

theorem Spelling.replace {q r w s : JSString} (hq : PlainUnits q)
    (hr : ∀ {w s}, Spelling w s → Spelling (r ++ w) (q ++ s)) (h : Spelling w s) :
    Spelling (replaceAll w (60 :: q) (60 :: r)) s := by
  induction hlen : w.length using Nat.strong_induction_on generalizing w s with
  | _ n ih =>
    cases h with
    | nil => exact .nil
    | @raw c w s hquote hslash hcontrol h =>
      rw [List.length_cons] at hlen
      rcases replace_cases 60 q (c :: w) with heq | ⟨t, heq⟩ | ⟨d, t, heq, hne⟩
      · cases heq
      · obtain ⟨rfl, rfl⟩ := List.cons.inj heq
        obtain ⟨s', rfl, hs⟩ := h.of_append hq
        rw [replaceAll_match]
        exact .raw hquote hslash hcontrol (hr (ih _ (by simp at hlen; omega) hs rfl))
      · obtain ⟨rfl, rfl⟩ := List.cons.inj heq
        rw [replaceAll_cons hne]
        exact .raw hquote hslash hcontrol (ih _ (by omega) h rfl)
    | @short e c w s hletter he h =>
      simp only [List.length_cons] at hlen
      have hlt : e ≠ 60 := by
        rintro rfl
        have hnone : unescapeLetter 60 = none := by decide
        rw [hnone] at hletter
        cases hletter
      rw [replaceAll_cons_ne (by decide), replaceAll_cons_ne hlt]
      exact .short hletter he (ih _ (by omega) h rfl)
    | @unicode a b c d u w s hunit h =>
      simp only [List.length_cons] at hlen
      obtain ⟨ha, hb, hc, hd⟩ := ne_of_hexUnit hunit
      rw [replaceAll_cons_ne (by decide), replaceAll_cons_ne (by decide), replaceAll_cons_ne ha,
        replaceAll_cons_ne hb, replaceAll_cons_ne hc, replaceAll_cons_ne hd]
      exact .unicode hunit (ih _ (by omega) h rfl)

/-- `.replaceAll("</", "<\\/").replaceAll("<!--", "<\\u0021--")` -/
def escapeScript (text : JSString) : JSString :=
  replaceAll (replaceAll text (js "</") (js "<\\/")) (js "<!--") (js "<\\u0021--")

def scriptJson (value : Value) : JSString := escapeScript value.stringify

theorem escapeScript_append {s : JSString} (h : 60 ∉ s) (t : JSString) :
    escapeScript (s ++ t) = s ++ escapeScript t := by
  have hfirst : replaceAll (s ++ t) (js "</") (js "<\\/") =
      s ++ replaceAll t (js "</") (js "<\\/") :=
    replaceAll_append_of_not_mem h
  rw [escapeScript, hfirst]
  exact replaceAll_append_of_not_mem h

theorem escapeScript_append_quote (s t : JSString) :
    escapeScript (s ++ 34 :: t) = escapeScript s ++ 34 :: escapeScript t := by
  have hfirst : replaceAll (s ++ 34 :: t) (js "</") (js "<\\/") =
      replaceAll s (js "</") (js "<\\/") ++ 34 :: replaceAll t (js "</") (js "<\\/") :=
    replaceAll_append_cons (by decide) s t
  rw [escapeScript, hfirst]
  exact replaceAll_append_cons (by decide) _ _

theorem escapeScript_ofString (s t : JSString) :
    escapeScript (ofString s ++ t) = escapeScript (ofString s) ++ escapeScript t := by
  have hopen (u : JSString) : escapeScript (34 :: u) = 34 :: escapeScript u :=
    escapeScript_append (s := [34]) (by decide) u
  have hnil : escapeScript [] = [] := rfl
  rw [JSON.ofString, List.cons_append, List.cons_append, hopen, hopen, List.append_assoc,
    List.singleton_append, escapeScript_append_quote, escapeScript_append_quote, hnil]
  simp

theorem escapeScript_inert (text : JSString) :
    ¬ js "</" <:+: escapeScript text ∧ ¬ js "<!--" <:+: escapeScript text := by
  have hend : ¬ js "</" <:+: replaceAll text (js "</") (js "<\\/") :=
    not_infix_replaceAll (x := 60) (q := [47]) (b := 92) (r := [47]) (d := 47) (y := []) (by decide)
      (by decide) (by decide) fun t _ h => h
  constructor
  · refine not_infix_replaceAll (x := 60) (q := [33, 45, 45]) (b := 92)
      (r := [117, 48, 48, 50, 49, 45, 45]) (d := 47) (y := []) (by decide) (by decide)
      (by decide) ?_
    exact fun t ht h => absurd (h.isInfix.trans ht.isInfix) hend
  · exact not_infix_replaceAll (x := 60) (q := [33, 45, 45]) (b := 92)
      (r := [117, 48, 48, 50, 49, 45, 45]) (d := 33) (y := [45, 45]) (by decide) (by decide)
      (by decide) fun t _ h => h

theorem mem_escapeScript {text : JSString} {c : ℕ} (h : c ∈ escapeScript text) :
    c ∈ text ∨ c ∈ js "<\\/" ∨ c ∈ js "<\\u0021--" := by
  rcases mem_replaceAll h with h | h
  · rcases mem_replaceAll h with h | h
    · exact Or.inl h
    · exact Or.inr (Or.inl h)
  · exact Or.inr (Or.inr h)

theorem readBack_escapeScript : ReadBack fun s => escapeScript (ofString s) := by
  intro s
  refine ⟨escapeScript (JSON.escape s) ++ [34], ?_, fun rest => ?_⟩
  · have hopen : escapeScript (34 :: JSON.escape s ++ [34]) =
        34 :: escapeScript (JSON.escape s ++ [34]) :=
      escapeScript_append (s := [34]) (by decide) _
    change escapeScript (34 :: JSON.escape s ++ [34]) = _
    rw [hopen, escapeScript_append_quote]
    rfl
  · have hfirst := (spelling_escape s).replace (q := [47]) (r := [92, 47]) (by simp [PlainUnits])
      fun h => .short (by decide) (by decide) h
    have hsecond := hfirst.replace (q := [33, 45, 45]) (r := [92, 117, 48, 48, 50, 49, 45, 45])
      (by simp [PlainUnits]) fun h => .unicode (by decide)
        (.raw (by decide) (by decide) (by decide) (.raw (by decide) (by decide) (by decide) h))
    rw [List.append_assoc]
    exact hsecond.read rest

theorem not_mem_of_isNumeral {text : JSString} (h : IsNumeral text) : 60 ∉ text := by
  intro hmem
  have hunit := isNumeralUnit_iff.mp (h.units 60 hmem)
  omega

mutual

theorem escapeScript_stringify {v : Value} (h : Printed v) (rest : JSString) :
    escapeScript (v.stringify ++ rest) =
      v.stringifyWith (fun s => escapeScript (ofString s)) ++ escapeScript rest := by
  match h with
  | .null => exact escapeScript_append (by decide) rest
  | .bool true => exact escapeScript_append (by decide) rest
  | .bool false => exact escapeScript_append (by decide) rest
  | .number h => exact escapeScript_append (not_mem_of_isNumeral h) rest
  | .string s => exact escapeScript_ofString s rest
  | .array .nil => exact escapeScript_append (by decide) rest
  | .array (.cons h hs) =>
    rw [Value.stringify, List.append_assoc, List.append_assoc, escapeScript_append (by decide),
      escapeScript_stringify h, escapeScript_stringifyItems hs, Value.stringifyWith,
      List.append_assoc, List.append_assoc]
  | .object .nil _ => exact escapeScript_append (by decide) rest
  | .object (.cons h hs) _ =>
    simp only [Value.stringify, List.append_assoc]
    rw [escapeScript_append (by decide), escapeScript_ofString, escapeScript_append (by decide),
      escapeScript_stringify h, escapeScript_stringifyFields hs, Value.stringifyWith]
    simp only [List.append_assoc]

theorem escapeScript_stringifyItems {items : List Value} (h : PrintedItems items)
    (rest : JSString) : escapeScript (Value.stringifyItems items ++ rest) =
      Value.stringifyItemsWith (fun s => escapeScript (ofString s)) items ++ escapeScript rest := by
  match h with
  | .nil => exact escapeScript_append (by decide) rest
  | .cons h hs =>
    rw [Value.stringifyItems, List.append_assoc, List.append_assoc,
      escapeScript_append (by decide), escapeScript_stringify h, escapeScript_stringifyItems hs,
      Value.stringifyItemsWith, List.append_assoc, List.append_assoc]

theorem escapeScript_stringifyFields {fields : List (JSString × Value)} (h : PrintedFields fields)
    (rest : JSString) : escapeScript (Value.stringifyFields fields ++ rest) =
      Value.stringifyFieldsWith (fun s => escapeScript (ofString s)) fields ++
        escapeScript rest := by
  match h with
  | .nil => exact escapeScript_append (by decide) rest
  | .cons h hs =>
    simp only [Value.stringifyFields, List.append_assoc]
    rw [escapeScript_append (by decide), escapeScript_ofString, escapeScript_append (by decide),
      escapeScript_stringify h, escapeScript_stringifyFields hs, Value.stringifyFieldsWith]
    simp only [List.append_assoc]

end

theorem parse_scriptJson {v : Value} (h : Printed v) : parse (scriptJson v) = some v := by
  have htext := escapeScript_stringify h []
  have hnil : escapeScript [] = [] := rfl
  rw [List.append_nil, hnil, List.append_nil] at htext
  rw [scriptJson, htext]
  exact h.parse_stringifyWith readBack_escapeScript

end Nifra.Ppr
