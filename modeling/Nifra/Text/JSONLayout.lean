import Nifra.Text.JSONDocument

/-! # Texts of one document

All texts of a document have its tokens, its layout is one of them, and none is shorter than
the layout on one line.
-/

namespace Nifra.JSON

section Tokenize

variable {rest : JSString}

theorem tokenize_blanks {blanks : JSString} (h : Blanks blanks) :
    tokenize (blanks ++ rest) = tokenize rest := by
  induction blanks with
  | nil => rfl
  | cons c blanks ih =>
    obtain ⟨hc, hblanks⟩ := List.forall_mem_cons.mp h
    rw [List.cons_append, tokenize, if_pos hc, ih hblanks]

theorem tokenize_punctuator {c : ℕ} (h : isPunctuator c = true) :
    tokenize (c :: rest) = [c] :: tokenize rest := by
  have hmark := isPunctuator_iff.mp h
  have hblank : ¬isBlank c = true := by
    rw [isBlank_iff]
    omega
  rw [tokenize, if_neg hblank, if_neg (by omega), if_pos h]

theorem tokenize_string {text : JSString} (h : IsString text) :
    tokenize (text ++ rest) = text :: tokenize rest := by
  obtain ⟨body, hbody, rfl⟩ := h
  have hclose := @closeString_body _ rest hbody
  rw [List.cons_append, tokenize, if_neg (by decide), if_pos rfl, List.append_assoc,
    List.singleton_append, hclose]

def Delimited (rest : JSString) : Prop := ∀ c, rest.head? = some c → isWordChar c = false

theorem tokenize_token {text : JSString} (h : IsToken text) (hrest : Delimited rest) :
    tokenize (text ++ rest) = text :: tokenize rest := by
  rcases word_of_isToken h with hstring | ⟨hne, hword⟩
  · exact tokenize_string hstring
  · obtain ⟨c, text, rfl⟩ := List.exists_cons_of_ne_nil hne
    obtain ⟨hc, htext⟩ := List.forall_mem_cons.mp hword
    obtain ⟨hblank, hmark, hquote⟩ := isWordChar_iff.mp hc
    have hstop : rest.takeWhile isWordChar = [] ∧ rest.dropWhile isWordChar = rest := by
      cases rest with
      | nil => exact ⟨rfl, rfl⟩
      | cons d rest =>
        have hd := hrest d rfl
        exact ⟨List.takeWhile_cons_of_neg (by simp [hd]), List.dropWhile_cons_of_neg (by simp [hd])⟩
    rw [List.cons_append, tokenize, if_neg (by simp [hblank]), if_neg hquote,
      if_neg (by simp [hmark]), List.takeWhile_append_of_pos htext,
      List.dropWhile_append_of_pos htext, hstop.1, hstop.2, List.append_nil]

theorem delimited_cons {c : ℕ} (h : isWordChar c = false) : Delimited (c :: rest) := by
  rintro d hd
  obtain rfl : c = d := by simpa using hd
  exact h

theorem Delimited.blanks {blanks : JSString} (h : Blanks blanks) (hrest : Delimited rest) :
    Delimited (blanks ++ rest) := by
  cases blanks with
  | nil => exact hrest
  | cons c blanks =>
    apply delimited_cons
    simp [isWordChar, h c List.mem_cons_self]

theorem tokenize_label {kind : Kind} {label : Option JSString} {text : JSString}
    (h : SpellsLabel kind label text) : tokenize (text ++ rest) = labelTokens label ++ tokenize rest := by
  cases h with
  | item => rfl
  | member hkey hback =>
    rw [List.append_assoc, List.append_assoc, tokenize_string hkey, tokenize_blanks hback,
      List.singleton_append, tokenize_punctuator (by decide)]
    rfl

end Tokenize

def entryTokens (entries : List Entry) : List JSString := [[44]].intercalate (tokensOfEntries entries)

mutual

theorem tokenize_document {doc : Document} {text rest : JSString} (h : SpellsDocument doc text)
    (hrest : Delimited rest) : tokenize (text ++ rest) = doc.tokens ++ tokenize rest := by
  cases h with
  | token h =>
    rw [tokenize_token h hrest, Document.tokens, List.singleton_append]
  | empty kind h =>
    have hopening : isPunctuator kind.opening = true := by cases kind <;> decide
    have hclosing : isPunctuator kind.closing = true := by cases kind <;> decide
    rw [List.cons_append, List.append_assoc, List.singleton_append, tokenize_punctuator hopening,
      tokenize_blanks h, tokenize_punctuator hclosing]
    rfl
  | @container kind entries text h =>
    have hopening : isPunctuator kind.opening = true := by cases kind <;> decide
    have hclosing : isPunctuator kind.closing = true := by cases kind <;> decide
    have hends : Delimited (kind.closing :: rest) := delimited_cons (by cases kind <;> decide)
    rw [List.cons_append, List.append_assoc, List.singleton_append, tokenize_punctuator hopening,
      tokenize_entries h hends, tokenize_punctuator hclosing, Document.tokens, entryTokens]
    simp

theorem tokenize_entries {kind : Kind} {entries : List Entry} {text rest : JSString}
    (h : SpellsEntries kind entries text) (hrest : Delimited rest) :
    tokenize (text ++ rest) = entryTokens entries ++ tokenize rest := by
  cases h with
  | last h =>
    rw [tokenize_entry h hrest]
    simp [entryTokens, tokensOfEntries]
  | @cons _ entry entries text rest' h hrest' =>
    obtain ⟨second, tail, rfl⟩ := List.exists_cons_of_ne_nil hrest'.ne_nil
    rw [List.append_assoc, List.cons_append, tokenize_entry h (delimited_cons (by decide)),
      tokenize_punctuator (by decide), tokenize_entries hrest' hrest]
    simp [entryTokens, tokensOfEntries]

theorem tokenize_entry {kind : Kind} {entry : Entry} {text rest : JSString}
    (h : SpellsEntry kind entry text) (hrest : Delimited rest) :
    tokenize (text ++ rest) = labelTokens entry.1 ++ entry.2.tokens ++ tokenize rest := by
  cases h with
  | mk hfront hlabel hmid h hback =>
    simp only [List.append_assoc]
    rw [tokenize_blanks hfront, tokenize_label hlabel, tokenize_blanks hmid,
      tokenize_document h (hrest.blanks hback), tokenize_blanks hback]

end

theorem tokenize_text {doc : Document} {text : JSString} (h : IsText doc text) :
    tokenize text = doc.tokens := by
  cases h with
  | mk hfront h hback =>
    have hends : Delimited [] := fun c hc => nomatch hc
    have hnil : tokenize ([] : JSString) = [] := by rw [tokenize]
    have hback' := @tokenize_blanks [] _ hback
    rw [List.append_nil, hnil] at hback'
    have hends' := Delimited.blanks hback hends
    rw [List.append_nil] at hends'
    rw [List.append_assoc, tokenize_blanks hfront, tokenize_document h hends', hback', List.append_nil]

section Layout

variable {gap indent : JSString}

theorem blanks_nil : Blanks [] := fun _ hc => nomatch hc

theorem Blanks.append {s t : JSString} (hs : Blanks s) (ht : Blanks t) : Blanks (s ++ t) :=
  List.forall_mem_append.mpr ⟨hs, ht⟩

theorem blanks_replicate (n : ℕ) : Blanks (List.replicate n 32) := by
  rintro c hc
  obtain rfl := List.eq_of_mem_replicate hc
  decide

theorem blanks_lineFeed (gap : JSString) (hindent : Blanks indent) : Blanks (lineFeed gap indent) := by
  unfold lineFeed
  split_ifs
  · exact blanks_nil
  · exact List.forall_mem_cons.mpr ⟨by decide, hindent⟩

theorem spellsEntry_layout (gap : JSString) {kind : Kind} {label : Option JSString} {doc : Document}
    {labelText text front back : JSString} (hlabel : SpellsLabel kind label labelText)
    (h : SpellsDocument doc text) (hfront : Blanks front) (hback : Blanks back) :
    SpellsEntry kind (label, doc) (front ++ labelLayout gap label ++ text ++ back) := by
  cases hlabel with
  | item =>
    rw [labelLayout, ← List.append_nil (front ++ [])]
    exact .mk hfront .item blanks_nil h hback
  | @member key _ hkey =>
    have hmid : Blanks (if gap = [] then [] else [32]) := by
      split_ifs
      · exact blanks_nil
      · exact blanks_replicate 1
    have hentry := SpellsEntry.mk hfront (.member hkey blanks_nil) hmid h hback
    rw [labelLayout]
    simpa using hentry

theorem intercalate_layoutEntries {entry : Entry} {entries : List Entry} (hne : entries ≠ []) :
    (44 :: lineFeed gap indent).intercalate (layoutEntries gap indent (entry :: entries))
      = labelLayout gap entry.1 ++ entry.2.layout gap indent ++ 44 :: (lineFeed gap indent
        ++ (44 :: lineFeed gap indent).intercalate (layoutEntries gap indent entries)) := by
  obtain ⟨second, entries, rfl⟩ := List.exists_cons_of_ne_nil hne
  simp [layoutEntries]

mutual

theorem spells_layout {doc : Document} {text indent : JSString} (h : SpellsDocument doc text)
    (hgap : Blanks gap) (hindent : Blanks indent) : SpellsDocument doc (doc.layout gap indent) := by
  cases h with
  | token h =>
    rw [Document.layout]
    exact .token h
  | empty kind h =>
    rw [Document.layout]
    exact .empty kind blanks_nil
  | @container kind entries text h =>
    have hinner := hindent.append hgap
    have hentries := spells_layoutEntries h hgap hinner (blanks_lineFeed gap hinner)
      (blanks_lineFeed gap hindent)
    obtain ⟨entry, entries, rfl⟩ := List.exists_cons_of_ne_nil h.ne_nil
    rw [Document.layout]
    exact .container hentries

theorem spells_layoutEntries {kind : Kind} {entries : List Entry} {text indent : JSString}
    (h : SpellsEntries kind entries text) (hgap : Blanks gap) (hindent : Blanks indent)
    {front back : JSString} (hfront : Blanks front) (hback : Blanks back) :
    SpellsEntries kind entries (front
      ++ (44 :: lineFeed gap indent).intercalate (layoutEntries gap indent entries) ++ back) := by
  cases h with
  | last h =>
    cases h with
    | mk _ hlabel _ h _ =>
      have hentry := spellsEntry_layout gap hlabel (spells_layout h hgap hindent) hfront hback
      simpa [layoutEntries] using SpellsEntries.last hentry
  | @cons _ entry entries text rest h hrest =>
    have htail := spells_layoutEntries hrest hgap hindent (blanks_lineFeed gap hindent) hback
    cases h with
    | mk _ hlabel _ h _ =>
      have hentry := spellsEntry_layout gap hlabel (spells_layout h hgap hindent) hfront
        blanks_nil
      rw [intercalate_layoutEntries hrest.ne_nil]
      simpa using SpellsEntries.cons hentry htail

end

theorem isText_stringify {doc : Document} {text : JSString} (h : IsText doc text) (space : ℕ) :
    IsText doc (doc.stringify space) := by
  cases h with
  | mk hfront h hback =>
    have hspells := spells_layout h (blanks_replicate (min space 10)) blanks_nil
    have htext := IsText.mk blanks_nil hspells blanks_nil
    rwa [List.append_nil, List.nil_append] at htext

mutual

theorem length_layout_le {doc : Document} {text : JSString} (indent : JSString)
    (h : SpellsDocument doc text) :
    (doc.layout [] indent).length ≤ text.length := by
  cases h with
  | token h => rw [Document.layout]
  | empty kind h =>
    rw [Document.layout]
    simp
  | @container kind entries text h =>
    have hentries := length_layoutEntries_le (indent ++ []) h
    obtain ⟨entry, entries, rfl⟩ := List.exists_cons_of_ne_nil h.ne_nil
    rw [Document.layout]
    simp only [lineFeed, if_true, List.length_cons, List.length_append, List.nil_append,
      List.length_nil] at hentries ⊢
    omega

theorem length_layoutEntries_le {kind : Kind} {entries : List Entry} {text : JSString}
    (indent : JSString) (h : SpellsEntries kind entries text) :
    ((44 :: lineFeed [] indent).intercalate (layoutEntries [] indent entries)).length
      ≤ text.length := by
  have hlabel {kind : Kind} {label : Option JSString} {text : JSString}
      (h : SpellsLabel kind label text) : (labelLayout [] label).length ≤ text.length := by
    cases h <;> simp [labelLayout]
  cases h with
  | last h =>
    cases h with
    | mk _ hl _ h _ =>
      have hdoc := length_layout_le indent h
      have hl := hlabel hl
      simp only [layoutEntries, List.intercalate_singleton, List.length_append]
      omega
  | @cons _ entry entries text rest h hrest =>
    have htail := length_layoutEntries_le indent hrest
    cases h with
    | mk _ hl _ h _ =>
      have hdoc := length_layout_le indent h
      have hl := hlabel hl
      rw [intercalate_layoutEntries hrest.ne_nil]
      simp only [List.length_append, List.length_cons, lineFeed, if_true, List.nil_append] at htail ⊢
      omega

end

end Layout

end Nifra.JSON
