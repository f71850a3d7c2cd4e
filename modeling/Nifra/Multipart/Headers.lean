import Nifra.Multipart.Parts

/-! # The headers of a part

What a header reader accepts, said by how the bytes are composed. So a reader that succeeds
says the same of every longer input, and the headers that the encoding writes are read back.
-/

namespace Nifra.Multipart

section Span
variable {p : ℕ → Bool} {l front rest : List ℕ} {c : ℕ}

theorem findIdx_span (hfront : ∀ x ∈ front, p x = false) (hc : p c = true) :
    (front ++ c :: rest).findIdx p = front.length := by
  induction front with
  | nil => simp [List.findIdx_cons, hc]
  | cons a front ih =>
    obtain ⟨ha, hfront⟩ := List.forall_mem_cons.mp hfront
    rw [List.cons_append, List.findIdx_cons, ha, cond_false, ih hfront, List.length_cons]

theorem span_findIdx (h : l[l.findIdx p]? = some c) :
    ∃ front rest, l = front ++ c :: rest ∧ (∀ x ∈ front, p x = false) ∧ p c = true := by
  induction l with
  | nil => cases h
  | cons a l ih =>
    rw [List.findIdx_cons] at h
    cases ha : p a with
    | true =>
      rw [ha, cond_true, List.getElem?_cons_zero, Option.some.injEq] at h
      exact ⟨[], l, by rw [h]; rfl, nofun, by rw [← h, ha]⟩
    | false =>
      rw [ha, cond_false, List.getElem?_cons_succ] at h
      obtain ⟨front, rest, hl, hfront, hc⟩ := ih h
      exact ⟨a :: front, rest, by rw [hl]; rfl, List.forall_mem_cons.mpr ⟨ha, hfront⟩, hc⟩

theorem takeWhile_span (hfront : ∀ x ∈ front, p x = true) (hrest : ∀ x ∈ rest.head?, p x = false) :
    (front ++ rest).takeWhile p = front := by
  rw [List.takeWhile_append_of_pos hfront]
  cases rest with
  | nil => simp
  | cons a rest => simp [hrest a rfl]

theorem head?_drop_takeWhile {x : ℕ} (h : x ∈ (l.drop (l.takeWhile p).length).head?) :
    p x = false := by
  induction l with
  | nil => simp at h
  | cons a l ih =>
    cases ha : p a with
    | true =>
      rw [List.takeWhile_cons, if_pos ha, List.length_cons, List.drop_succ_cons] at h
      exact ih h
    | false =>
      rw [List.takeWhile_cons, if_neg (by simp [ha])] at h
      obtain rfl : a = x := by simpa using h
      exact ha

end Span

theorem textOf_eq (bytes : List ℕ) : textOf bytes = decodeUtf8 bytes := by
  unfold textOf
  split_ifs with h
  · exact (decodeUtf8_ascii (by simpa using h.2)).symm
  · rfl

theorem quotedName_eq_some_iff {rest : List ℕ} {name : JSString} {read : ℕ} :
    quotedName rest = some (name, read) ↔
      ∃ raw tail, rest = raw ++ 34 :: tail ∧ (∀ c ∈ raw, c ∉ [10, 13, 34]) ∧
        name = restoredName raw ∧ read = raw.length + 1 := by
  unfold quotedName
  simp only
  constructor
  · intro h
    split_ifs at h with hclose
    obtain ⟨raw, tail, rfl, hraw, hquote⟩ := span_findIdx hclose
    rw [findIdx_span hraw hquote, List.take_left', Option.some.injEq, Prod.mk.injEq] at h
    · exact ⟨raw, tail, rfl, by simpa using hraw, h.1.symm, h.2.symm⟩
    · rfl
  · rintro ⟨raw, tail, rfl, hraw, rfl, rfl⟩
    rw [findIdx_span (p := fun c => decide (c ∈ [10, 13, 34])) (by simpa using hraw) (by decide),
      List.take_left' rfl, if_pos (by simp)]

theorem quotedName_append {rest : List ℕ} {name : JSString} {read : ℕ}
    (h : quotedName rest = some (name, read)) (more : List ℕ) :
    quotedName (rest ++ more) = some (name, read) := by
  obtain ⟨raw, tail, rfl, hread⟩ := quotedName_eq_some_iff.mp h
  exact quotedName_eq_some_iff.mpr ⟨raw, tail ++ more, by simp, hread⟩

theorem quotedName_le {rest : List ℕ} {name : JSString} {read : ℕ}
    (h : quotedName rest = some (name, read)) : read ≤ rest.length := by
  obtain ⟨raw, tail, rfl, -, -, rfl⟩ := quotedName_eq_some_iff.mp h
  simp

theorem restoredName_encodeUtf8 {s : JSString} (hs : WellFormed s) (hunescaped : Unescaped s) :
    restoredName (encodeUtf8 (escapeName s)) = s := by
  have hwf := wellFormed_escapeName hs
  unfold restoredName
  simp only [textOf_eq, decodeUtf8_encodeUtf8 hwf]
  split_ifs with h
  · exact replaceAll_escapeName hunescaped
  · rw [mem_encodeUtf8_ascii_iff hwf (by decide)] at h
    exact escapeName_of_not_mem h

theorem quotedName_quoted {s : JSString} (hs : WellFormed s) (hunescaped : Unescaped s)
    (tail : List ℕ) : quotedName (quoted s ++ tail) = some (s, (quoted s).length) := by
  refine quotedName_eq_some_iff.mpr ⟨encodeUtf8 (escapeName s), tail, by simp [quoted],
    fun c hc hmem => ?_, (restoredName_encodeUtf8 hs hunescaped).symm, by simp [quoted]⟩
  have hlt : c < 0x80 := by
    simp only [List.mem_cons, List.not_mem_nil, or_false] at hmem
    omega
  exact not_mem_escapeName hmem ((mem_encodeUtf8_ascii_iff (wellFormed_escapeName hs) hlt).mp hc)

def afterName (name : JSString) (k : ℕ) (rest : List ℕ) (head head' : PartHead) (read : ℕ) : Prop :=
  (∃ u filename m, rest = fileName ++ u ∧ quotedName u = some (filename, m) ∧
      head' = ⟨some name, some filename, head.type⟩ ∧
      read = formDataName.length + k + fileName.length + m) ∨
    (¬ fileName <+: rest ∧ head' = ⟨some name, none, head.type⟩ ∧ read = formDataName.length + k)

theorem disposition_eq_some_iff {rest : List ℕ} {head head' : PartHead} {read : ℕ} :
    disposition rest head = some (head', read) ↔
      ∃ q name k, rest = formDataName ++ q ∧ quotedName q = some (name, k) ∧
        afterName name k (q.drop k) head head' read := by
  unfold disposition
  constructor
  · intro h
    split_ifs at h with hform
    obtain ⟨q, rfl⟩ := List.isPrefixOf_iff_prefix.mp hform
    obtain ⟨⟨name, k⟩, hname, h⟩ := Option.bind_eq_some_iff.mp h
    rw [List.drop_left] at hname
    refine ⟨q, name, k, rfl, hname, ?_⟩
    simp only [List.drop_length_add_append, Nat.add_assoc] at h
    split_ifs at h with hfile
    · obtain ⟨⟨filename, m⟩, hfilename, h⟩ := Option.bind_eq_some_iff.mp h
      obtain ⟨u, hu⟩ := List.isPrefixOf_iff_prefix.mp hfile
      rw [← List.drop_drop, ← hu, List.drop_left] at hfilename
      obtain ⟨rfl, rfl⟩ := Prod.mk.inj (Option.some.inj h)
      exact Or.inl ⟨u, filename, m, hu.symm, hfilename, rfl, by omega⟩
    · obtain ⟨rfl, rfl⟩ := Prod.mk.inj (Option.some.inj h)
      exact Or.inr ⟨fun h => hfile (List.isPrefixOf_iff_prefix.mpr h), rfl, rfl⟩
  · rintro ⟨q, name, k, rfl, hname, hafter⟩
    rw [if_neg (by simp)]
    refine Option.bind_eq_some_iff.mpr ⟨(name, k), by rwa [List.drop_left], ?_⟩
    simp only [List.drop_length_add_append, Nat.add_assoc]
    rcases hafter with ⟨u, filename, m, hu, hfilename, rfl, rfl⟩ | ⟨hfile, rfl, rfl⟩
    · rw [if_pos (by simp [hu])]
      refine Option.bind_eq_some_iff.mpr ⟨(filename, m), ?_, by simp only [Nat.add_assoc]⟩
      rwa [← List.drop_drop, hu, List.drop_left]
    · rw [if_neg fun h => hfile (List.isPrefixOf_iff_prefix.mp h)]

theorem disposition_append {rest : List ℕ} {head head' : PartHead} {read : ℕ}
    (h : disposition rest head = some (head', read)) (hend : crlf <+: rest.drop read)
    (more : List ℕ) : disposition (rest ++ more) head = some (head', read) := by
  obtain ⟨q, name, k, rfl, hname, hafter⟩ := disposition_eq_some_iff.mp h
  refine disposition_eq_some_iff.mpr
    ⟨q ++ more, name, k, by simp, quotedName_append hname more, ?_⟩
  rw [List.drop_append_of_le_length (quotedName_le hname)]
  rcases hafter with ⟨u, filename, m, hu, hfilename, hread⟩ | ⟨-, hhead, rfl⟩
  · exact Or.inl ⟨u ++ more, filename, m, by rw [hu, List.append_assoc],
      quotedName_append hfilename more, hread⟩
  · refine Or.inr ⟨fun hfile => ?_, hhead, rfl⟩
    rw [List.drop_length_add_append] at hend
    obtain ⟨tail, htail⟩ := hend
    rw [← htail] at hfile
    exact absurd (List.cons_prefix_cons.mp hfile).1 (by decide)

theorem otherHeader_span {field value rest : List ℕ} {head : PartHead} {c : ℕ}
    (hvalue : ∀ x ∈ value, x ∉ [10, 13]) (hc : c ∈ [10, 13]) :
    otherHeader field (value ++ c :: rest) head =
      (if spells field contentType then { head with type := some (value.rdropWhile isBlank) }
        else head,
      value.length) := by
  have hstop : (value ++ c :: rest).findIdx (· ∈ [10, 13]) = value.length :=
    findIdx_span (by simpa using hvalue) (by simpa using hc)
  simp only [otherHeader, hstop, List.take_left]

theorem headerValue_append {field rest : List ℕ} {head head' : PartHead} {read : ℕ}
    (h : headerValue field rest head = some (head', read)) (hend : crlf <+: rest.drop read)
    (more : List ℕ) : headerValue field (rest ++ more) head = some (head', read) := by
  unfold headerValue at h ⊢
  split_ifs at h ⊢ with hfield
  · exact disposition_append h hend more
  · rw [Option.some.injEq] at h ⊢
    have hread : rest.findIdx (· ∈ [10, 13]) = read := (Prod.mk.inj h).2
    obtain ⟨tail, htail⟩ := hend
    have hclose : rest[rest.findIdx (· ∈ [10, 13])]? = some 13 := by
      rw [hread, ← List.head?_drop, ← htail]
      rfl
    obtain ⟨value, after, rfl, hvalue, hc⟩ := span_findIdx hclose
    rw [otherHeader_span (by simpa using hvalue) (by decide)] at h
    rw [List.append_assoc, List.cons_append, otherHeader_span (by simpa using hvalue) (by decide), h]

def trimmed (front : List ℕ) : List ℕ := (front.dropWhile isBlank).rdropWhile isBlank

structure LineSpan (front blanks value : List ℕ) : Prop where
  front : ∀ c ∈ front, c ∉ [10, 13, 58]
  blanks : ∀ c ∈ blanks, isBlank c = true
  value : ∀ c ∈ value.head?, isBlank c = false

section HeaderLine
variable {front blanks value rest : List ℕ} {head head' : PartHead} {read : ℕ}

theorem headerLine_span (h : LineSpan front blanks value) :
    headerLine (front ++ 58 :: (blanks ++ value)) head =
      if trimmed front = [] ∨ ¬ (trimmed front).all isTchar then none
      else (headerValue (trimmed front) value head).bind fun (head, k) =>
        if crlf.isPrefixOf (value.drop k) then
          some (head, front.length + 1 + blanks.length + k + 2)
        else none := by
  have hcolon : (front ++ 58 :: (blanks ++ value)).findIdx (· ∈ [10, 13, 58]) = front.length :=
    findIdx_span (by simpa using h.front) (by decide)
  have hget : (front ++ 58 :: (blanks ++ value))[front.length]? = some 58 := by simp
  have hdrop (k : ℕ) : (front ++ 58 :: (blanks ++ value)).drop (front.length + 1 + k) =
      (blanks ++ value).drop k := by
    rw [Nat.add_assoc, List.drop_length_add_append, Nat.add_comm 1, List.drop_succ_cons]
  have hblanks : (blanks ++ value).takeWhile isBlank = blanks := takeWhile_span h.blanks h.value
  have hstart := hdrop 0
  rw [Nat.add_zero, List.drop_zero] at hstart
  simp only [headerLine, hcolon, hget, hstart, hblanks, Nat.add_assoc _ blanks.length, hdrop,
    List.drop_length_add_append, List.drop_left, List.take_left, ne_eq, not_true, if_false]
  rfl

theorem exists_lineSpan (h : headerLine rest head ≠ none) :
    ∃ front blanks value, rest = front ++ 58 :: (blanks ++ value) ∧ LineSpan front blanks value := by
  have hcolon : rest[rest.findIdx (· ∈ [10, 13, 58])]? = some 58 := by
    by_contra hne
    exact h (if_pos hne)
  obtain ⟨front, tail, rfl, hfront, -⟩ := span_findIdx hcolon
  refine ⟨front, tail.takeWhile isBlank, tail.drop (tail.takeWhile isBlank).length, ?_, ?_⟩
  · have htail := List.prefix_iff_eq_append.mp (List.takeWhile_prefix (l := tail) isBlank)
    rw [htail]
  · exact ⟨by simpa using hfront, fun c hc => List.mem_takeWhile_imp hc,
      fun c hc => head?_drop_takeWhile hc⟩

theorem headerLine_eq_some_iff :
    headerLine rest head = some (head', read) ↔
      ∃ front blanks value k, rest = front ++ 58 :: (blanks ++ value) ∧
        LineSpan front blanks value ∧ trimmed front ≠ [] ∧ (trimmed front).all isTchar ∧
        headerValue (trimmed front) value head = some (head', k) ∧ crlf <+: value.drop k ∧
        read = front.length + 1 + blanks.length + k + 2 := by
  constructor
  · intro h
    obtain ⟨front, blanks, value, rfl, hspan⟩ := exists_lineSpan (by rw [h]; simp)
    rw [headerLine_span hspan] at h
    split_ifs at h with hfield
    rw [not_or, not_not] at hfield
    obtain ⟨⟨head₁, k⟩, hvalue, h⟩ := Option.bind_eq_some_iff.mp h
    simp only at h
    split_ifs at h with hend
    obtain ⟨rfl, rfl⟩ := Prod.mk.inj (Option.some.inj h)
    exact ⟨front, blanks, value, k, rfl, hspan, hfield.1, hfield.2, hvalue,
      List.isPrefixOf_iff_prefix.mp hend, rfl⟩
  · rintro ⟨front, blanks, value, k, rfl, hspan, hne, htchar, hvalue, hend, rfl⟩
    rw [headerLine_span hspan, if_neg (by simp [hne, htchar])]
    refine Option.bind_eq_some_iff.mpr ⟨(head', k), hvalue, ?_⟩
    exact if_pos (List.isPrefixOf_iff_prefix.mpr hend)

theorem headerLine_append (h : headerLine rest head = some (head', read)) :
    read ≤ rest.length ∧ ∀ more, headerLine (rest ++ more) head = some (head', read) := by
  obtain ⟨front, blanks, value, k, rfl, hspan, hne, htchar, hvalue, hend, rfl⟩ :=
    headerLine_eq_some_iff.mp h
  have hlen := hend.length_le
  rw [List.length_drop, crlf, List.length_cons, List.length_singleton] at hlen
  constructor
  · simp only [List.length_append, List.length_cons]
    omega
  · intro more
    refine headerLine_eq_some_iff.mpr ⟨front, blanks, value ++ more, k, by simp,
      ⟨hspan.front, hspan.blanks, ?_⟩, hne, htchar, headerValue_append hvalue hend more, ?_, rfl⟩
    · rw [List.head?_append_of_ne_nil _ (List.ne_nil_of_length_pos (by omega))]
      exact hspan.value
    · rw [List.drop_append_of_le_length (by omega)]
      exact hend.trans (List.prefix_append _ _)

theorem not_crlf_prefix_of_headerLine (h : headerLine rest head = some (head', read)) :
    ¬ crlf <+: rest := by
  obtain ⟨front, blanks, value, k, rfl, hspan, -⟩ := headerLine_eq_some_iff.mp h
  intro hcrlf
  cases front with
  | nil => exact absurd (List.cons_prefix_cons.mp hcrlf).1 (by decide)
  | cons c front =>
    have hc := hspan.front c List.mem_cons_self
    rw [← (List.cons_prefix_cons.mp hcrlf).1] at hc
    exact hc (by decide)

end HeaderLine

theorem headerLines_blank {head : PartHead} (h : head.name.isSome) (fuel : ℕ) (rest : List ℕ) :
    headerLines (fuel + 1) (crlf ++ rest) head = some (head, 2) := by
  rw [headerLines, if_pos (by simp), if_pos h]

theorem headerLines_line {fuel k m : ℕ} {rest : List ℕ} {head head₁ head₂ : PartHead}
    (hline : headerLine rest head = some (head₁, k))
    (hlines : headerLines fuel (rest.drop k) head₁ = some (head₂, m)) :
    headerLines (fuel + 1) rest head = some (head₂, k + m) := by
  rw [headerLines, if_neg fun h =>
    not_crlf_prefix_of_headerLine hline (List.isPrefixOf_iff_prefix.mp h), hline]
  simp only [Option.bind_eq_bind, Option.bind_some, hlines]

theorem headerLines_append {fuel : ℕ} {rest : List ℕ} {head head' : PartHead} {read : ℕ}
    (h : headerLines fuel rest head = some (head', read)) :
    read ≤ rest.length ∧
      ∀ more fuel', fuel ≤ fuel' → headerLines fuel' (rest ++ more) head = some (head', read) := by
  induction fuel generalizing rest head read with
  | zero => cases h
  | succ fuel ih =>
    rw [headerLines] at h
    by_cases hcrlf : crlf <+: rest
    · rw [if_pos (List.isPrefixOf_iff_prefix.mpr hcrlf)] at h
      have hread : read = 2 := by
        split_ifs at h
        exact (Prod.mk.inj (Option.some.inj h)).2.symm
      refine ⟨hread ▸ hcrlf.length_le, fun more fuel' hfuel => ?_⟩
      obtain ⟨fuel', rfl⟩ := Nat.exists_eq_succ_of_ne_zero (show fuel' ≠ 0 by omega)
      rw [headerLines, if_pos (List.isPrefixOf_iff_prefix.mpr (hcrlf.trans (List.prefix_append ..))), h]
    · rw [if_neg fun h => hcrlf (List.isPrefixOf_iff_prefix.mp h)] at h
      obtain ⟨⟨head₁, k⟩, hline, h⟩ := Option.bind_eq_some_iff.mp h
      obtain ⟨⟨head₂, m⟩, hlines, h⟩ := Option.bind_eq_some_iff.mp h
      obtain ⟨rfl, rfl⟩ := Prod.mk.inj (Option.some.inj h)
      obtain ⟨hk, hline'⟩ := headerLine_append hline
      obtain ⟨hm, hlines'⟩ := ih hlines
      rw [List.length_drop] at hm
      refine ⟨by omega, fun more fuel' hfuel => ?_⟩
      obtain ⟨fuel', rfl⟩ := Nat.exists_eq_succ_of_ne_zero (show fuel' ≠ 0 by omega)
      refine headerLines_line (hline' more) ?_
      rw [List.drop_append_of_le_length hk]
      exact hlines' more fuel' (by omega)

theorem partHeaders_append {rest : List ℕ} {head : PartHead} {read : ℕ}
    (h : partHeaders rest = some (head, read)) :
    read ≤ rest.length ∧ ∀ more, partHeaders (rest ++ more) = some (head, read) := by
  obtain ⟨hle, happend⟩ := headerLines_append h
  exact ⟨hle, fun more => happend more _ (by simp)⟩

/-- A header value is trimmed when it is read, and ends with its line. -/
structure HeaderValue (value : List ℕ) : Prop where
  line : ∀ c ∈ value, c ∉ [10, 13]
  head : ∀ c ∈ value.head?, isBlank c = false
  last : ∀ c ∈ value.getLast?, isBlank c = false

instance (value : List ℕ) : Decidable (HeaderValue value) :=
  decidable_of_iff ((∀ c ∈ value, c ∉ [10, 13]) ∧ (∀ c ∈ value.head?, isBlank c = false) ∧
      ∀ c ∈ value.getLast?, isBlank c = false)
    ⟨fun h => ⟨h.1, h.2.1, h.2.2⟩, fun h => ⟨h.line, h.head, h.last⟩⟩

def Encodable (s : JSString) : Prop := WellFormed s ∧ Unescaped s

instance (s : JSString) : Decidable (Encodable s) := inferInstanceAs (Decidable (_ ∧ _))

theorem afterName_filename {filename : Option JSString} (h : ∀ f ∈ filename, Encodable f)
    (name : JSString) (k : ℕ) (head : PartHead) (rest : List ℕ) :
    afterName name k (filename.elim [] (fun f => fileName ++ quoted f) ++ (crlf ++ rest)) head
      ⟨some name, filename, head.type⟩
      (formDataName.length + k + (filename.elim [] fun f => fileName ++ quoted f).length) := by
  cases filename with
  | none =>
    refine Or.inr ⟨fun h => ?_, rfl, rfl⟩
    exact absurd (List.cons_prefix_cons.mp h).1 (by decide)
  | some f =>
    obtain ⟨hwf, hunescaped⟩ := h f rfl
    refine Or.inl ⟨quoted f ++ (crlf ++ rest), f, _, by simp,
      quotedName_quoted hwf hunescaped _, rfl, ?_⟩
    rw [Option.elim_some, List.length_append, Nat.add_assoc _ fileName.length]

theorem headerLine_dispositionLine {p : FormPart} (hname : Encodable p.name)
    (hfilename : ∀ f ∈ p.filename, Encodable f) (rest : List ℕ) (head : PartHead) :
    headerLine (p.dispositionLine ++ rest) head =
      some (⟨some p.name, p.filename, head.type⟩, p.dispositionLine.length) := by
  set file := p.filename.elim [] fun f => fileName ++ quoted f with hfile
  have htrim : trimmed (js "Content-Disposition") = js "Content-Disposition" := by decide
  have hspan : LineSpan (js "Content-Disposition") [32]
      (formDataName ++ (quoted p.name ++ (file ++ (crlf ++ rest)))) :=
    ⟨by decide, by decide, fun c hc => by cases hc; decide⟩
  have hline : p.dispositionLine = js "Content-Disposition" ++ 58 :: ([32] ++
      (formDataName ++ (quoted p.name ++ (file ++ crlf)))) := by
    simp only [FormPart.dispositionLine, ← hfile, List.append_assoc]
    rfl
  refine headerLine_eq_some_iff.mpr ⟨_, _, _,
    formDataName.length + (quoted p.name).length + file.length, by simp [hline], hspan,
    by decide, by decide, ?_, ?_, ?_⟩
  · rw [headerValue, htrim, if_pos (by decide)]
    refine disposition_eq_some_iff.mpr
      ⟨_, p.name, (quoted p.name).length, rfl, quotedName_quoted hname.1 hname.2 _, ?_⟩
    rw [List.drop_left]
    exact afterName_filename hfilename _ _ _ _
  · rw [Nat.add_assoc, List.drop_length_add_append, List.drop_length_add_append, List.drop_left]
    exact List.prefix_append _ _
  · simp only [hline, List.length_append, List.length_cons, List.length_nil, crlf]
    omega

theorem headerLine_typeLine {t : List ℕ} (ht : HeaderValue t) (rest : List ℕ) (head : PartHead) :
    headerLine (js "Content-Type: " ++ t ++ crlf ++ rest) head =
      some ({ head with type := some t }, (js "Content-Type: " ++ t ++ crlf).length) := by
  have hspan : LineSpan (js "Content-Type") [32] (t ++ 13 :: 10 :: rest) := by
    refine ⟨by decide, by decide, fun c hc => ?_⟩
    cases t with
    | nil =>
      obtain rfl : 13 = c := by simpa using hc
      decide
    | cons a t => exact ht.head c (by simpa using hc)
  have htrim : trimmed (js "Content-Type") = js "Content-Type" := by decide
  have hlast : t.rdropWhile isBlank = t := by
    rw [List.rdropWhile_eq_self_iff]
    intro hne
    rw [ht.last _ (List.getLast?_eq_getLast_of_ne_nil hne ▸ rfl)]
    decide
  have hline : js "Content-Type: " ++ t ++ crlf =
      js "Content-Type" ++ 58 :: ([32] ++ (t ++ [13, 10])) := by
    simp only [List.append_assoc]
    rfl
  refine headerLine_eq_some_iff.mpr
    ⟨_, _, _, t.length, by simp [hline], hspan, by decide, by decide, ?_, ?_, ?_⟩
  · rw [headerValue, htrim, if_neg (by decide), otherHeader_span ht.line (by decide),
      if_pos (by decide), hlast]
  · rw [List.drop_left]
    exact ⟨rest, rfl⟩
  · simp only [hline, List.length_append, List.length_cons, List.length_nil]
    omega

theorem partHeaders_headers {p : FormPart} (hname : Encodable p.name)
    (hfilename : ∀ f ∈ p.filename, Encodable f) (htype : ∀ t ∈ p.type, HeaderValue t)
    (rest : List ℕ) : partHeaders (p.headers ++ rest) =
      some (⟨some p.name, p.filename, p.type⟩, p.headers.length) := by
  have htypeLine (fuel : ℕ) : headerLines (fuel + 2) (p.typeLine ++ (crlf ++ rest))
      ⟨some p.name, p.filename, none⟩ =
        some (⟨some p.name, p.filename, p.type⟩, p.typeLine.length + 2) := by
    obtain ⟨name, filename, type, content⟩ := p
    cases type with
    | none => exact headerLines_blank rfl _ _
    | some t =>
      have hline := headerLine_typeLine (htype t rfl) (crlf ++ rest) ⟨some name, filename, none⟩
      refine headerLines_line hline ?_
      rw [List.drop_left]
      exact headerLines_blank rfl _ _
  have hline := headerLine_dispositionLine hname hfilename (p.typeLine ++ (crlf ++ rest))
    ⟨none, none, none⟩
  have hlines : headerLines 3 (p.dispositionLine ++ (p.typeLine ++ (crlf ++ rest)))
      ⟨none, none, none⟩ = some (_, _) :=
    headerLines_line hline (by rw [List.drop_left]; exact htypeLine 0)
  have hheaders : p.headers ++ rest = p.dispositionLine ++ (p.typeLine ++ (crlf ++ rest)) := by
    simp only [FormPart.headers, List.append_assoc]
  have hlength : p.headers.length = p.dispositionLine.length + (p.typeLine.length + 2) := by
    simp only [FormPart.headers, List.length_append, crlf, List.length_cons, List.length_nil,
      Nat.add_assoc]
  have hle : 3 ≤ (p.headers ++ rest).length + 1 := by
    rw [List.length_append, hlength]
    omega
  rw [partHeaders, hlength, ← (headerLines_append hlines).2 [] _ hle, hheaders, List.append_nil]

end Nifra.Multipart
