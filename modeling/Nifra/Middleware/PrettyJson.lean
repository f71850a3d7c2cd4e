import Nifra.Text.JSONDocument
import Nifra.Text.JSONLayout

/-! # Indented JSON

A JSON text is laid out anew without being turned into values: every string and number is
copied as it is written, and a text that would outgrow its budget is left alone.
-/

namespace Nifra.PrettyJson

def maxGrowth : ℕ := 8

def minOutputBudget : ℕ := 64 * 1024

def isJsonWhitespace (code : ℕ) : Bool := code == 32 || code == 9 || code == 10 || code == 13

def budgetOf (text : JSString) : ℕ := max minOutputBudget (text.length * maxGrowth)

/-- What a call gives: a text, `undefined`, the error of a negative indentation, or nothing at
all when a string is never closed. -/
inductive Reindented
  | text (out : JSString)
  | undefined
  | rangeError
  | loops
  deriving DecidableEq

section Walk

variable (spaces budget : ℕ)

/-- `lineBreak(head, tail)`, with what ends the call. -/
def lineBreak (out : JSString) (depth : ℤ) (head tail : JSString) : Except Reindented JSString :=
  if (budget : ℤ) < out.length + depth * spaces then .error .undefined
  else if depth < 0 then .error .rangeError
  else .ok (out ++ head ++ 10 :: List.replicate (depth.toNat * spaces) 32 ++ tail)

/-- A bracket or a comma, with a line break when the text is indented. -/
def writeMark (out : JSString) (depth : ℤ) (head tail : JSString) : Except Reindented JSString :=
  if spaces = 0 then .ok (out ++ head ++ tail) else lineBreak spaces budget out depth head tail

/-- The loop of `reindentJson` over what is left of the text. -/
def walk (text : JSString) (out : JSString) (depth : ℤ) : Reindented :=
  match text with
  | [] => .text out
  | code :: rest =>
    if isJsonWhitespace code then walk rest out depth
    else if code = 34 then
      match hclose : JSON.closeString rest with
      | none => .loops
      | some (body, rest') => walk rest' (out ++ 34 :: body) depth
    else if code = 123 ∨ code = 91 then
      let close := rest.dropWhile isJsonWhitespace
      if close.head? = some (code + 2) then
        walk close.tail (out ++ if code = 123 then js "\x7b\x7d" else js "[]") depth
      else
        match writeMark spaces budget out (depth + 1) [code] [] with
        | .error result => result
        | .ok out => walk rest out (depth + 1)
    else if code = 125 ∨ code = 93 then
      match writeMark spaces budget out (depth - 1) [] [code] with
      | .error result => result
      | .ok out => walk rest out (depth - 1)
    else if code = 44 then
      match writeMark spaces budget out depth [44] [] with
      | .error result => result
      | .ok out => walk rest out depth
    else if code = 58 then walk rest (out ++ if spaces = 0 then js ":" else js ": ") depth
    else walk rest (out ++ [code]) depth
  termination_by text.length
  decreasing_by
    · simp
    · have := JSON.length_of_closeString hclose
      simp only [List.length_cons]
      omega
    · have := (List.dropWhile_suffix isJsonWhitespace (l := rest)).length_le
      simp only [List.length_cons, List.length_tail]
      omega
    all_goals simp

end Walk

def reindentJson (text : JSString) (spaces : ℕ) : Reindented :=
  walk spaces (budgetOf text) text [] 0

/-! ## The layout of indented JSON

A valid text is laid out as `JSON.stringify` would lay out its document, as long as the layout
is at most two units longer than the budget.
-/

open JSON

variable {spaces budget : ℕ} {rest out : JSString}

theorem isJsonWhitespace_eq : isJsonWhitespace = isBlank := by
  funext c
  rw [Bool.eq_iff_iff, isBlank_iff]
  simp [isJsonWhitespace, or_assoc]

section Characters

variable {depth : ℤ}

theorem walk_blanks {blanks : JSString} (h : Blanks blanks) :
    walk spaces budget (blanks ++ rest) out depth = walk spaces budget rest out depth := by
  induction blanks with
  | nil => rfl
  | cons c blanks ih =>
    obtain ⟨hc, hblanks⟩ := List.forall_mem_cons.mp h
    rw [List.cons_append, walk, isJsonWhitespace_eq, if_pos hc, ih hblanks]

theorem walk_word {word : JSString} (h : ∀ c ∈ word, isWordChar c = true) :
    walk spaces budget (word ++ rest) out depth = walk spaces budget rest (out ++ word) depth := by
  induction word generalizing out with
  | nil => simp
  | cons c word ih =>
    obtain ⟨hc, hword⟩ := List.forall_mem_cons.mp h
    obtain ⟨hblank, hmark, hquote⟩ := isWordChar_iff.mp hc
    rw [Bool.eq_false_iff, Ne, isPunctuator_iff] at hmark
    rw [List.cons_append, walk, isJsonWhitespace_eq, if_neg (by simp [hblank]), if_neg hquote,
      if_neg (by omega), if_neg (by omega), if_neg (by omega), if_neg (by omega), ih hword,
      List.append_assoc, List.singleton_append]

theorem walk_string {text : JSString} (h : IsString text) :
    walk spaces budget (text ++ rest) out depth = walk spaces budget rest (out ++ text) depth := by
  obtain ⟨body, hbody, rfl⟩ := h
  have hclose := @closeString_body _ rest hbody
  rw [List.cons_append, walk, if_neg (by decide), if_pos rfl, List.append_assoc,
    List.singleton_append, hclose]

theorem walk_token {text : JSString} (h : IsToken text) :
    walk spaces budget (text ++ rest) out depth = walk spaces budget rest (out ++ text) depth := by
  rcases word_of_isToken h with hstring | ⟨-, hword⟩
  · exact walk_string hstring
  · exact walk_word hword

end Characters

def indentOf (spaces depth : ℕ) : JSString := List.replicate (depth * spaces) 32

def gapOf (spaces : ℕ) : JSString := List.replicate spaces 32

theorem indentOf_succ (spaces depth : ℕ) :
    indentOf spaces depth ++ gapOf spaces = indentOf spaces (depth + 1) := by
  rw [indentOf, gapOf, indentOf, List.replicate_append_replicate, Nat.succ_mul]

def Within (spaces budget length : ℕ) : Prop := spaces = 0 ∨ length ≤ budget + 2

instance (length : ℕ) : Decidable (Within spaces budget length) :=
  inferInstanceAs (Decidable (_ ∨ _))

theorem Within.of_le {m n : ℕ} (h : Within spaces budget n) (hmn : m ≤ n) :
    Within spaces budget m := h.imp_right hmn.trans

theorem writeMark_eq (spaces budget : ℕ) (out head tail : JSString)
    (hmark : head.length + tail.length = 1) (depth : ℕ) :
    writeMark spaces budget out depth head tail =
      if Within spaces budget
          (out ++ head ++ lineFeed (gapOf spaces) (indentOf spaces depth) ++ tail).length then
        .ok (out ++ head ++ lineFeed (gapOf spaces) (indentOf spaces depth) ++ tail)
      else .error .undefined := by
  by_cases hspaces : spaces = 0
  · subst hspaces
    simp [writeMark, Within, lineFeed, gapOf]
  · have hgap : gapOf spaces ≠ [] := by simpa [gapOf] using hspaces
    have hlength : (out ++ head ++ lineFeed (gapOf spaces) (indentOf spaces depth) ++ tail).length
        = out.length + depth * spaces + 2 := by
      simp only [lineFeed, if_neg hgap, List.length_append, List.length_cons, indentOf,
        List.length_replicate]
      omega
    have hwithin : Within spaces budget (out.length + depth * spaces + 2) ↔
        ¬(budget : ℤ) < out.length + (depth : ℤ) * spaces := by
      unfold Within
      have hcast : ((depth * spaces : ℕ) : ℤ) = (depth : ℤ) * spaces := Nat.cast_mul _ _
      omega
    rw [writeMark, if_neg hspaces, lineBreak, hlength]
    by_cases hover : (budget : ℤ) < out.length + (depth : ℤ) * spaces
    · rw [if_pos hover, if_neg (by rwa [hwithin, not_not])]
    · rw [if_neg hover, if_pos (hwithin.mpr hover), if_neg (by omega)]
      simp [lineFeed, hgap, indentOf]

def guarded (c : Prop) [Decidable c] (result : Reindented) : Reindented :=
  if c then result else .undefined

theorem guarded_guarded {c c' : Prop} [Decidable c] [Decidable c'] (h : c' → c) (r : Reindented) :
    guarded c (guarded c' r) = guarded c' r := by
  unfold guarded
  split_ifs <;> tauto

section Marks

variable (kind : Kind) (depth : ℕ)

theorem kind_closing : kind.closing = kind.opening + 2 := by cases kind <;> rfl

theorem walk_opening (hrest : (rest.dropWhile isBlank).head? ≠ some kind.closing) :
    walk spaces budget (kind.opening :: rest) out depth =
      guarded (Within spaces budget
        (out ++ [kind.opening] ++ lineFeed (gapOf spaces) (indentOf spaces (depth + 1))).length)
      (walk spaces budget rest
        (out ++ [kind.opening] ++ lineFeed (gapOf spaces) (indentOf spaces (depth + 1)))
        (depth + 1 : ℕ)) := by
  have hmark : kind.opening = 123 ∨ kind.opening = 91 := by cases kind <;> decide
  have hblank : isBlank kind.opening = false := by cases kind <;> decide
  rw [kind_closing] at hrest
  rw [walk, isJsonWhitespace_eq, if_neg (by simp [hblank]), if_neg (by omega), if_pos hmark]
  simp only [if_neg hrest]
  have hwrite := writeMark_eq spaces budget out [kind.opening] [] rfl (depth + 1)
  rw [List.append_nil] at hwrite
  rw [← Nat.cast_succ, hwrite]
  unfold guarded
  split_ifs <;> rfl

theorem walk_empty {blanks : JSString} (h : Blanks blanks) :
    walk spaces budget (kind.opening :: (blanks ++ kind.closing :: rest)) out depth =
      walk spaces budget rest (out ++ [kind.opening, kind.closing]) depth := by
  have hmark : kind.opening = 123 ∨ kind.opening = 91 := by cases kind <;> decide
  have hblank : isBlank kind.opening = false := by cases kind <;> decide
  have hclosing : isBlank kind.closing = false := by cases kind <;> decide
  have hdrop : (blanks ++ kind.closing :: rest).dropWhile isBlank = kind.closing :: rest := by
    rw [List.dropWhile_append_of_pos h, List.dropWhile_cons_of_neg (by simp [hclosing])]
  have hwritten : (if kind.opening = 123 then js "\x7b\x7d" else js "[]")
      = [kind.opening, kind.closing] := by
    cases kind <;> decide
  rw [walk, isJsonWhitespace_eq, if_neg (by simp [hblank]), if_neg (by omega), if_pos hmark]
  simp only [hdrop, List.head?_cons, List.tail_cons, hwritten]
  exact if_pos (by rw [kind_closing])

theorem walk_closing :
    walk spaces budget (kind.closing :: rest) out (depth + 1 : ℕ) =
      guarded (Within spaces budget
        (out ++ lineFeed (gapOf spaces) (indentOf spaces depth) ++ [kind.closing]).length)
      (walk spaces budget rest
        (out ++ lineFeed (gapOf spaces) (indentOf spaces depth) ++ [kind.closing]) depth) := by
  have hmark : kind.closing = 125 ∨ kind.closing = 93 := by cases kind <;> decide
  have hblank : isBlank kind.closing = false := by cases kind <;> decide
  have hwrite := writeMark_eq spaces budget out [] [kind.closing] rfl depth
  rw [List.append_nil] at hwrite
  rw [walk, isJsonWhitespace_eq, if_neg (by simp [hblank]), if_neg (by omega), if_neg (by omega),
    if_pos hmark, Nat.cast_succ, add_sub_cancel_right, hwrite]
  unfold guarded
  split_ifs <;> rfl

theorem walk_comma :
    walk spaces budget (44 :: rest) out depth =
      guarded (Within spaces budget
        (out ++ [44] ++ lineFeed (gapOf spaces) (indentOf spaces depth)).length)
      (walk spaces budget rest
        (out ++ [44] ++ lineFeed (gapOf spaces) (indentOf spaces depth)) depth) := by
  have hwrite := writeMark_eq spaces budget out [44] [] rfl depth
  rw [List.append_nil] at hwrite
  rw [walk, isJsonWhitespace_eq, if_neg (by decide), if_neg (by decide), if_neg (by decide),
    if_neg (by decide), if_pos rfl, hwrite]
  unfold guarded
  split_ifs <;> rfl

variable {kind}

theorem walk_label {label : Option JSString} {text : JSString} (h : SpellsLabel kind label text) :
    walk spaces budget (text ++ rest) out depth =
      walk spaces budget rest (out ++ labelLayout (gapOf spaces) label) depth := by
  cases h with
  | item => simp [labelLayout]
  | member hkey hback =>
    have hcolon : (if spaces = 0 then js ":" else js ": ")
        = 58 :: if gapOf spaces = [] then [] else [32] := by
      by_cases hspaces : spaces = 0
      · subst hspaces
        decide
      · have hgap : gapOf spaces ≠ [] := by simpa [gapOf] using hspaces
        rw [if_neg hspaces, if_neg hgap]
        decide
    rw [List.append_assoc, List.append_assoc, walk_string hkey, walk_blanks hback,
      List.singleton_append, walk, isJsonWhitespace_eq, if_neg (by decide), if_neg (by decide),
      if_neg (by decide), if_neg (by decide), if_neg (by decide), if_pos rfl, hcolon,
      List.append_assoc, labelLayout]

end Marks

def layoutAt (spaces : ℕ) (doc : Document) (depth : ℕ) : JSString :=
  doc.layout (gapOf spaces) (indentOf spaces depth)

def entriesAt (spaces : ℕ) (entries : List Entry) (depth : ℕ) : JSString :=
  (44 :: lineFeed (gapOf spaces) (indentOf spaces depth)).intercalate
    (layoutEntries (gapOf spaces) (indentOf spaces depth) entries)

def Passes (spaces budget : ℕ) (doc : Document) (out : JSString) (depth : ℕ) : Prop :=
  match doc with
  | .container _ (_ :: _) => Within spaces budget (out ++ layoutAt spaces doc depth).length
  | _ => True

instance (doc : Document) (out : JSString) (depth : ℕ) :
    Decidable (Passes spaces budget doc out depth) := by
  unfold Passes
  split <;> infer_instance

section Documents

variable {doc : Document} {entries : List Entry} {depth : ℕ}

theorem passes_of_within {n : ℕ} (h : Within spaces budget n)
    (hn : (out ++ layoutAt spaces doc depth).length ≤ n) : Passes spaces budget doc out depth := by
  unfold Passes
  split
  · exact h.of_le hn
  · trivial

theorem layoutAt_container (kind : Kind) (entry : Entry) :
    layoutAt spaces (.container kind (entry :: entries)) depth =
      kind.opening :: (lineFeed (gapOf spaces) (indentOf spaces (depth + 1))
        ++ entriesAt spaces (entry :: entries) (depth + 1)
        ++ lineFeed (gapOf spaces) (indentOf spaces depth) ++ [kind.closing]) := by
  rw [layoutAt, Document.layout, indentOf_succ, entriesAt]

theorem entriesAt_singleton (entry : Entry) : entriesAt spaces [entry] depth =
    labelLayout (gapOf spaces) entry.1 ++ layoutAt spaces entry.2 depth := by
  simp [entriesAt, layoutEntries, layoutAt]

theorem entriesAt_cons (entry : Entry) (hne : entries ≠ []) :
    entriesAt spaces (entry :: entries) depth =
      labelLayout (gapOf spaces) entry.1 ++ layoutAt spaces entry.2 depth ++ [44]
        ++ lineFeed (gapOf spaces) (indentOf spaces depth) ++ entriesAt spaces entries depth := by
  obtain ⟨second, entries, rfl⟩ := List.exists_cons_of_ne_nil hne
  simp only [entriesAt, layoutEntries, List.intercalate_cons_cons, layoutAt]
  simp

theorem head_entry {kind kind' : Kind} {entry : Entry} {text : JSString}
    (h : SpellsEntry kind entry text) :
    ((text ++ rest).dropWhile isBlank).head? ≠ some kind'.closing := by
  have hhead {front tail : JSString} {c : ℕ} (hfront : Blanks front) (hblank : isBlank c = false)
      (harray : c ≠ 93) (hobject : c ≠ 125) :
      ((front ++ c :: tail).dropWhile isBlank).head? ≠ some kind'.closing := by
    rw [List.dropWhile_append_of_pos hfront, List.dropWhile_cons_of_neg (by simp [hblank]),
      List.head?_cons]
    cases kind'
    · exact fun heq => harray (Option.some.inj heq)
    · exact fun heq => hobject (Option.some.inj heq)
  cases h with
  | mk hfront hlabel hmid h hback =>
    cases hlabel with
    | item =>
      obtain ⟨c, tail, rfl, hblank, harray, hobject⟩ := h.head
      simp only [List.append_nil, List.append_assoc, List.cons_append]
      rw [← List.append_assoc]
      exact hhead (fun x hx => (List.mem_append.mp hx).elim (hfront x) (hmid x)) hblank harray hobject
    | member hkey hback' =>
      obtain ⟨body, -, rfl⟩ := hkey
      simp only [List.append_assoc, List.cons_append]
      exact hhead hfront (by decide) (by decide) (by decide)

theorem head_entries {kind kind' : Kind} {text : JSString} (h : SpellsEntries kind entries text) :
    ((text ++ rest).dropWhile isBlank).head? ≠ some kind'.closing := by
  cases h with
  | last h => exact head_entry h
  | cons h hrest =>
    rw [List.append_assoc]
    exact head_entry h

end Documents

mutual

theorem walk_document {doc : Document} {text : JSString} (h : SpellsDocument doc text)
    (rest out : JSString) (depth : ℕ) : walk spaces budget (text ++ rest) out depth =
      guarded (Passes spaces budget doc out depth)
        (walk spaces budget rest (out ++ layoutAt spaces doc depth) depth) := by
  cases h with
  | token h =>
    rw [walk_token h]
    exact (if_pos trivial).symm
  | empty kind h =>
    rw [List.cons_append, List.append_assoc, List.singleton_append, walk_empty kind depth h]
    exact (if_pos trivial).symm
  | @container kind entries text h =>
    rw [List.cons_append, List.append_assoc, List.singleton_append,
      walk_opening kind depth (head_entries h), walk_entries h]
    obtain ⟨entry, entries, rfl⟩ := List.exists_cons_of_ne_nil h.ne_nil
    have hfinal : out ++ [kind.opening] ++ lineFeed (gapOf spaces) (indentOf spaces (depth + 1))
        ++ entriesAt spaces (entry :: entries) (depth + 1)
        ++ lineFeed (gapOf spaces) (indentOf spaces depth) ++ [kind.closing]
        = out ++ layoutAt spaces (.container kind (entry :: entries)) depth := by
      rw [layoutAt_container]
      simp
    rw [hfinal, guarded_guarded]
    · rfl
    · rw [← hfinal]
      refine fun hwithin => hwithin.of_le ?_
      simp only [List.length_append]
      omega

theorem walk_entries {kind : Kind} {entries : List Entry} {text : JSString}
    (h : SpellsEntries kind entries text) (rest out : JSString) (depth : ℕ) :
    walk spaces budget (text ++ kind.closing :: rest) out (depth + 1 : ℕ) =
      guarded (Within spaces budget (out ++ entriesAt spaces entries (depth + 1)
        ++ lineFeed (gapOf spaces) (indentOf spaces depth) ++ [kind.closing]).length)
      (walk spaces budget rest (out ++ entriesAt spaces entries (depth + 1)
        ++ lineFeed (gapOf spaces) (indentOf spaces depth) ++ [kind.closing]) depth) := by
  cases h with
  | last h =>
    rw [walk_entry h, walk_closing, entriesAt_singleton, List.append_assoc out]
    apply guarded_guarded
    refine fun hwithin => passes_of_within hwithin ?_
    simp only [List.length_append]
    omega
  | @cons _ entry entries text rest' h hrest =>
    have hfinal : out ++ labelLayout (gapOf spaces) entry.1 ++ layoutAt spaces entry.2 (depth + 1)
        ++ [44] ++ lineFeed (gapOf spaces) (indentOf spaces (depth + 1))
        ++ entriesAt spaces entries (depth + 1)
        = out ++ entriesAt spaces (entry :: entries) (depth + 1) := by
      rw [entriesAt_cons entry hrest.ne_nil]
      simp
    rw [List.append_assoc, List.cons_append, walk_entry h, walk_comma, walk_entries hrest,
      ← hfinal, guarded_guarded, guarded_guarded]
    · refine fun hwithin => hwithin.of_le ?_
      simp only [List.length_append]
      omega
    · refine fun hwithin => passes_of_within hwithin ?_
      simp only [List.length_append]
      omega

theorem walk_entry {kind : Kind} {entry : Entry} {text : JSString}
    (h : SpellsEntry kind entry text) (rest out : JSString) (depth : ℕ) :
    walk spaces budget (text ++ rest) out depth =
      guarded (Passes spaces budget entry.2 (out ++ labelLayout (gapOf spaces) entry.1) depth)
        (walk spaces budget rest
          (out ++ labelLayout (gapOf spaces) entry.1 ++ layoutAt spaces entry.2 depth) depth) := by
  cases h with
  | mk hfront hlabel hmid h hback =>
    simp only [List.append_assoc]
    rw [walk_blanks hfront, walk_label depth hlabel, walk_blanks hmid, walk_document h,
      walk_blanks hback]
    simp only [List.append_assoc]

end

section Texts

variable {doc : Document} {text : JSString}

theorem length_le_budgetOf (text : JSString) : text.length ≤ budgetOf text := by
  unfold budgetOf maxGrowth
  omega

theorem length_layoutAt_le (spaces : ℕ) (h : SpellsDocument doc text)
    (hlines : ∀ kind entry entries, doc = .container kind (entry :: entries) → spaces = 0) :
    (layoutAt spaces doc 0).length ≤ text.length := by
  cases h with
  | token h => rw [layoutAt, Document.layout]
  | empty kind h =>
    rw [layoutAt, Document.layout]
    simp
  | @container kind entries text h =>
    obtain ⟨entry, entries, rfl⟩ := List.exists_cons_of_ne_nil h.ne_nil
    obtain rfl := hlines _ _ _ rfl
    exact length_layout_le _ (.container h)

theorem passes_iff (h : SpellsDocument doc text) (hbudget : text.length ≤ budget) :
    Passes spaces budget doc [] 0 ↔ (layoutAt spaces doc 0).length ≤ budget + 2 := by
  unfold Passes
  split
  · next kind entry entries =>
    rw [List.nil_append]
    constructor
    · rintro (hspaces | hwithin)
      · have hle := length_layoutAt_le spaces h fun _ _ _ _ => hspaces
        omega
      · exact hwithin
    · exact Or.inr
  · next hnot =>
    have hle := length_layoutAt_le spaces h fun kind entry entries heq =>
      absurd heq (hnot kind entry entries)
    simp only [true_iff]
    omega

theorem layoutAt_zero (hspaces : spaces ≤ 10) : layoutAt spaces doc 0 = doc.stringify spaces := by
  rw [layoutAt, Document.stringify, gapOf, indentOf, min_eq_left hspaces, Nat.zero_mul,
    List.replicate_zero]

theorem reindentJson_eq (h : IsText doc text) (hspaces : spaces ≤ 10) :
    reindentJson text spaces =
      if (doc.stringify spaces).length ≤ budgetOf text + 2 then .text (doc.stringify spaces)
      else .undefined := by
  cases h with
  | @mk front text back hfront h hback =>
    generalize hbudget : budgetOf (front ++ text ++ back) = budget
    have hlength : text.length ≤ budget := by
      have := length_le_budgetOf (front ++ text ++ back)
      simp only [List.length_append] at this
      omega
    have hend : walk spaces budget (back ++ []) (layoutAt spaces doc 0) (0 : ℕ)
        = walk spaces budget [] (layoutAt spaces doc 0) (0 : ℕ) := walk_blanks hback
    rw [List.append_nil, walk] at hend
    have hwalk : walk spaces budget (front ++ (text ++ back)) [] (0 : ℕ) = _ :=
      (walk_blanks hfront).trans (walk_document h back [] 0)
    have hpasses : Passes spaces budget doc [] 0 ↔ _ := passes_iff h hlength
    rw [List.nil_append, hend] at hwalk
    rw [layoutAt_zero hspaces] at hwalk hpasses
    rw [reindentJson, hbudget, List.append_assoc]
    exact hwalk.trans (if_congr hpasses rfl rfl)

/-- What is asked of a call: a text that it returns has the tokens of the input, the layout of its
document and a length within the budget, and comes back from a second call; nothing else than a
layout that exceeds the budget is refused. -/
def Reindents (doc : Document) (text : JSString) (spaces : ℕ) : Prop :=
  match reindentJson text spaces with
  | .text out => tokenize out = tokenize text ∧ out = doc.stringify spaces ∧
      reindentJson out spaces = .text out ∧ out.length ≤ budgetOf text
  | .undefined => budgetOf text < (doc.stringify spaces).length
  | _ => False

def Overshoots (doc : Document) (text : JSString) (spaces : ℕ) : Prop :=
  budgetOf text < (doc.stringify spaces).length ∧
    (doc.stringify spaces).length ≤ budgetOf text + 2

theorem not_reindents_of_overshoots (h : IsText doc text) (hspaces : spaces ≤ 10)
    (hover : Overshoots doc text spaces) : ¬Reindents doc text spaces := by
  unfold Reindents
  rw [reindentJson_eq h hspaces, if_pos hover.2]
  rintro ⟨-, -, -, hle⟩
  exact absurd hover.1 (not_lt.mpr hle)

theorem reindents_iff (h : IsText doc text) (hspaces : spaces ≤ 10) :
    Reindents doc text spaces ↔ ¬Overshoots doc text spaces := by
  have hlayout := isText_stringify h spaces
  have hagain : reindentJson (doc.stringify spaces) spaces = .text (doc.stringify spaces) := by
    rw [reindentJson_eq hlayout hspaces]
    apply if_pos
    have := length_le_budgetOf (doc.stringify spaces)
    omega
  have htokens : tokenize (doc.stringify spaces) = tokenize text := by
    rw [tokenize_text hlayout, tokenize_text h]
  constructor
  · exact fun hreindents hover => not_reindents_of_overshoots h hspaces hover hreindents
  · rintro hnot
    unfold Overshoots at hnot
    unfold Reindents
    rw [reindentJson_eq h hspaces]
    by_cases hle : (doc.stringify spaces).length ≤ budgetOf text + 2
    · rw [if_pos hle]
      exact ⟨htokens, rfl, hagain, by omega⟩
    · rw [if_neg hle]
      simp only
      omega

theorem reindents_iff_emptyArray :
    Reindents (.container .array []) [91, 32, 93] 2 ↔
      ¬Overshoots (.container .array []) [91, 32, 93] 2 :=
  reindents_iff (.mk blanks_nil (.empty .array (blanks_replicate 1)) blanks_nil) (by decide)

end Texts

def nested (token : JSString) : ℕ → Document
  | 0 => .token token
  | n + 1 => .container .array [(none, nested token n)]

theorem spells_nested {token : JSString} (h : IsToken token) (n : ℕ) :
    SpellsDocument (nested token n) (List.replicate n 91 ++ token ++ List.replicate n 93) := by
  induction n with
  | zero => simpa [nested] using SpellsDocument.token h
  | succ n ih =>
    have hentry := SpellsEntry.mk blanks_nil .item blanks_nil ih blanks_nil
    have hdoc := SpellsDocument.container (.last hentry)
    rw [nested, List.replicate_succ, List.replicate_succ']
    simpa [Kind.opening, Kind.closing] using hdoc

theorem isText_nested {token : JSString} (h : IsToken token) (n : ℕ) :
    IsText (nested token n) (List.replicate n 91 ++ token ++ List.replicate n 93) := by
  have htext := IsText.mk blanks_nil (spells_nested h n) blanks_nil
  rwa [List.append_nil, List.nil_append] at htext

theorem length_nested {token : JSString} (hspaces : spaces ≠ 0) (n depth : ℕ) :
    (layoutAt spaces (nested token n) depth).length
      = token.length + 4 * n + (n + 2 * depth) * n * spaces := by
  have hgap : gapOf spaces ≠ [] := by simpa [gapOf] using hspaces
  induction n generalizing depth with
  | zero => simp [nested, layoutAt, Document.layout]
  | succ n ih =>
    rw [nested, layoutAt_container, entriesAt_singleton]
    simp only [List.length_cons, List.length_append, ih, labelLayout, lineFeed, if_neg hgap, indentOf,
      List.length_replicate, List.length_nil]
    ring

def letters (n : ℕ) : JSString := 34 :: (List.replicate n 97 ++ [34])

theorem isToken_letters (n : ℕ) : IsToken (letters n) := by
  have hbody : StringBody (List.replicate n 97) := by
    induction n with
    | zero => exact .nil
    | succ n ih => exact .plain (by decide) (by decide) (by decide) ih
  exact Or.inl ⟨_, hbody, rfl⟩

theorem length_letters (n : ℕ) : (letters n).length = n + 2 := by
  simp [letters]

theorem length_nested_letters (m n : ℕ) :
    ((nested (letters m) n).stringify 10).length = m + 2 + 4 * n + n * n * 10 ∧
      budgetOf (List.replicate n 91 ++ letters m ++ List.replicate n 93)
        = max minOutputBudget ((n + (m + 2) + n) * maxGrowth) := by
  constructor
  · rw [← layoutAt_zero (by decide), length_nested (by decide), length_letters, Nat.mul_zero,
      Nat.add_zero n]
  · rw [budgetOf, List.length_append, List.length_append, List.length_replicate,
      List.length_replicate, length_letters]

theorem overshoots_letters {m n : ℕ} (hsmall : (n + (m + 2) + n) * maxGrowth ≤ minOutputBudget)
    (hlow : minOutputBudget < m + 2 + 4 * n + n * n * 10)
    (hhigh : m + 2 + 4 * n + n * n * 10 ≤ minOutputBudget + 2) :
    Overshoots (nested (letters m) n) (List.replicate n 91 ++ letters m ++ List.replicate n 93)
      10 := by
  obtain ⟨hlength, hbudget⟩ := length_nested_letters m n
  rw [max_eq_left hsmall] at hbudget
  unfold Overshoots
  rw [hlength, hbudget]
  exact ⟨hlow, hhigh⟩

/-- Eighty arrays around a long string, indented by ten: two units over the budget. -/
theorem overshoots_nested :
    IsText (nested (letters 1216) 80) (List.replicate 80 91 ++ letters 1216 ++ List.replicate 80 93) ∧
      ¬Reindents (nested (letters 1216) 80)
        (List.replicate 80 91 ++ letters 1216 ++ List.replicate 80 93) 10 := by
  have htext := isText_nested (isToken_letters 1216) 80
  refine ⟨htext, not_reindents_of_overshoots htext (by decide) (overshoots_letters ?_ ?_ ?_)⟩
  all_goals
    simp only [maxGrowth, minOutputBudget]
    omega

end Nifra.PrettyJson
