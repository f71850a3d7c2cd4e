import Nifra.Multipart.Headers

/-! # Parsing inverts encoding

A delimiter that starts a line can only stand behind the content of its part, so the parser
finds the parts that were written, and none in a body that ends before its closing delimiter.
-/

namespace Nifra.Multipart

open Search

structure IsDelimiter (delimiter : List ℕ) : Prop where
  dash : ∃ rest, delimiter = 45 :: rest
  line : ∀ c ∈ delimiter, c ∉ [10, 13]

theorem startsWith_iff {bytes front : List ℕ} {i : ℕ} :
    startsWith bytes i front ↔ front <+: bytes.drop i :=
  List.isPrefixOf_iff_prefix

section Next
variable {delimiter bytes content tail : List ℕ} {start : ℕ}

theorem le_of_lineDelimiter (hdelimiter : IsDelimiter delimiter)
    (hcontent : ¬ crlf ++ delimiter <:+: content) {j : ℕ}
    (h : crlf ++ delimiter <+: (content ++ crlf ++ tail).drop j) : content.length ≤ j := by
  by_contra hlt
  rw [not_le] at hlt
  obtain ⟨after, hafter⟩ := h
  by_cases hin : j + (2 + delimiter.length) ≤ content.length
  · refine hcontent (List.infix_iff_prefix_suffix.mpr ⟨content.drop j, ?_, List.drop_suffix _ _⟩)
    rw [List.append_assoc content, List.drop_append_of_le_length hlt.le] at hafter
    refine List.prefix_of_prefix_length_le ⟨after, hafter⟩ (List.prefix_append _ _) ?_
    rw [List.length_append, List.length_drop, crlf, List.length_cons, List.length_singleton]
    omega
  · -- The line end behind the content would stand within the delimiter.
    obtain ⟨q, hq⟩ := Nat.exists_eq_add_of_lt hlt
    have hcr : (crlf ++ delimiter ++ after)[q + 1]? = some 13 := by
      rw [hafter, List.getElem?_drop, show j + (q + 1) = content.length by omega, List.append_assoc,
        List.getElem?_append_right le_rfl, Nat.sub_self]
      rfl
    cases q with
    | zero => simp [crlf] at hcr
    | succ q =>
      have hget : (crlf ++ delimiter ++ after)[q + 1 + 1]? = (delimiter ++ after)[q]? := rfl
      rw [hget, List.getElem?_append_left (by omega)] at hcr
      exact hdelimiter.line 13 (List.mem_of_getElem? hcr) (by decide)

theorem nextDelimiter_some {position : ℕ} {starts after : List ℕ} {stop : ℕ}
    (h : nextDelimiter bytes position starts = some (stop, after)) :
    stop ∈ starts ∧ position + 2 ≤ stop ∧ crlf <+: bytes.drop (stop - 2) := by
  induction starts with
  | nil => cases h
  | cons s starts ih =>
    rw [nextDelimiter] at h
    split_ifs at h with hs
    · obtain ⟨hmem, hrest⟩ := ih h
      exact ⟨List.mem_cons_of_mem _ hmem, hrest⟩
    · obtain ⟨rfl, rfl⟩ := Prod.mk.inj (Option.some.inj h)
      rw [not_or, not_lt, not_not, startsWith_iff] at hs
      exact ⟨List.mem_cons_self, hs⟩

theorem nextDelimiter_append {position stop : ℕ} {before after : List ℕ}
    (hbefore : ∀ s ∈ before, ¬ (position + 2 ≤ s ∧ crlf <+: bytes.drop (s - 2)))
    (hle : position + 2 ≤ stop) (hstop : crlf <+: bytes.drop (stop - 2)) :
    nextDelimiter bytes position (before ++ stop :: after) = some (stop, after) := by
  induction before with
  | nil =>
    rw [List.nil_append, nextDelimiter, if_neg]
    rw [not_or, not_lt, not_not, startsWith_iff]
    exact ⟨hle, hstop⟩
  | cons s before ih =>
    obtain ⟨hs, hbefore⟩ := List.forall_mem_cons.mp hbefore
    rw [List.cons_append, nextDelimiter, if_pos, ih hbefore]
    rw [← startsWith_iff] at hs
    by_contra h
    rw [not_or, not_lt, not_not] at h
    exact hs h

theorem lineDelimiter_of_occursAt {j : ℕ} (hj : 2 ≤ j) (hocc : OccursAt delimiter bytes j)
    (hcrlf : crlf <+: bytes.drop (j - 2)) : crlf ++ delimiter <+: bytes.drop (j - 2) := by
  obtain ⟨rest, hrest⟩ := hcrlf
  have hdrop : bytes.drop j = rest := by
    rw [← Nat.sub_add_cancel hj, ← List.drop_drop, ← hrest]
    rfl
  rw [OccursAt, hdrop] at hocc
  rw [← hrest, List.prefix_append_right_inj]
  exact hocc

theorem nextDelimiter_content (hdelimiter : IsDelimiter delimiter)
    (hcontent : ¬ crlf ++ delimiter <:+: content)
    (hbytes : bytes.drop start = content ++ crlf ++ tail) (htail : delimiter <+: tail)
    {s : ℕ} {starts : List ℕ} (hs : s ≤ start) (hscanned : Scanned delimiter bytes s starts) :
    ∃ after, nextDelimiter bytes start starts = some (start + content.length + 2, after) ∧
      after.length < starts.length ∧
      Scanned delimiter bytes (start + content.length + 2 + delimiter.length) after := by
  have hend : bytes.drop (start + content.length) = crlf ++ tail := by
    rw [← List.drop_drop, hbytes, List.append_assoc, List.drop_left]
  have hocc : OccursAt delimiter bytes (start + content.length + 2) := by
    rw [OccursAt, ← List.drop_drop, hend]
    exact htail
  have halone : ∀ j < start + content.length + 2, OccursAt delimiter bytes j →
      j + delimiter.length ≤ start + content.length + 2 := by
    intro j hj hoccj
    have hlf : bytes[start + content.length + 2 - 1]? = some 10 := by
      rw [show start + content.length + 2 - 1 = start + content.length + 1 by omega,
        ← List.getElem?_drop, hend]
      rfl
    exact add_length_le_of_line (fun h => hdelimiter.line 10 h (by decide)) hlf hj hoccj
  obtain ⟨before, after, rfl, hbefore, hafter⟩ := hscanned.split (by omega) hocc halone
  refine ⟨after, nextDelimiter_append (fun j hj hline => ?_) (by omega) ?_, ?_, hafter⟩
  · have hoccj := (hscanned.occursAt (List.mem_append_left _ hj)).2
    have hline' := lineDelimiter_of_occursAt (by omega) hoccj hline.2
    rw [show j - 2 = start + (j - 2 - start) by omega, ← List.drop_drop, hbytes] at hline'
    have := le_of_lineDelimiter hdelimiter hcontent hline'
    have := hbefore j hj
    omega
  · rw [Nat.add_sub_cancel, hend]
    exact List.prefix_append _ _
  · rw [List.length_append, List.length_cons]
    omega

theorem nextDelimiter_cut (hdelimiter : IsDelimiter delimiter)
    (hcontent : ¬ crlf ++ delimiter <:+: content) {m : ℕ}
    (hbytes : bytes.drop start = (content ++ crlf ++ tail).take m) (htail : delimiter <+: tail)
    {s stop : ℕ} {starts after : List ℕ} (hs : s ≤ start)
    (hscanned : Scanned delimiter bytes s starts)
    (hnext : nextDelimiter bytes start starts = some (stop, after)) :
    ∃ m', m = content.length + 2 + m' ∧ bytes.drop stop = tail.take m' ∧
      Scanned delimiter bytes (stop + delimiter.length) after := by
  have hbehind : (content ++ crlf).length = content.length + 2 := List.length_append
  obtain ⟨hmem, hle, hcrlf⟩ := nextDelimiter_some hnext
  have hend := lineDelimiter_of_occursAt (by omega) (hscanned.occursAt hmem).2 hcrlf
  obtain ⟨j, hj⟩ := Nat.exists_eq_add_of_le (show start ≤ stop - 2 by omega)
  rw [hj, ← List.drop_drop, hbytes, List.drop_take] at hend
  have hj := le_of_lineDelimiter hdelimiter hcontent (hend.trans (List.take_prefix ..))
  have hlen := hend.length_le.trans (List.length_take_le _ _)
  rw [List.length_append, crlf, List.length_cons, List.length_singleton] at hlen
  obtain ⟨m, rfl⟩ := Nat.exists_eq_add_of_le (show (content ++ crlf).length ≤ m by omega)
  rw [List.take_length_add_append] at hbytes
  obtain ⟨after', hnext', -, hscanned'⟩ := nextDelimiter_content hdelimiter hcontent hbytes
    (List.prefix_take_iff.mpr ⟨htail, by omega⟩) hs hscanned
  obtain ⟨rfl, rfl⟩ := Prod.mk.inj (Option.some.inj (hnext.symm.trans hnext'))
  refine ⟨m, by rw [hbehind], ?_, hscanned'⟩
  rw [Nat.add_assoc, ← List.drop_drop, hbytes]
  exact List.drop_left' hbehind

end Next

structure FormPart.Valid (delimiter : List ℕ) (p : FormPart) : Prop where
  name : Encodable p.name
  filename : ∀ f ∈ p.filename, Encodable f
  type : ∀ t ∈ p.type, HeaderValue t
  content : ¬ crlf ++ delimiter <:+: p.content

theorem delimiter_prefix_encodeForm (delimiter : List ℕ) (parts : List FormPart) :
    delimiter <+: encodeForm delimiter parts := by
  cases parts with
  | nil => exact List.prefix_append _ _
  | cons p parts =>
    rw [encodeForm]
    simp only [List.append_assoc]
    exact List.prefix_append _ _

theorem drop_encodeForm_cons {delimiter bytes rest : List ℕ} {p : FormPart}
    {parts : List FormPart} {position : ℕ}
    (hbytes : bytes.drop position = encodeForm delimiter (p :: parts) ++ rest) :
    let after := p.content ++ crlf ++ (encodeForm delimiter parts ++ rest)
    let start := position + delimiter.length + 2 + p.headers.length
    bytes.drop (position + delimiter.length) = crlf ++ (p.headers ++ after) ∧
      bytes.drop (position + delimiter.length + 2) = p.headers ++ after ∧
      bytes.drop start = after ∧
      bytes.drop (start + p.content.length + 2) = encodeForm delimiter parts ++ rest := by
  intro after start
  have hline : bytes.drop (position + delimiter.length) = crlf ++ (p.headers ++ after) := by
    rw [← List.drop_drop, hbytes, encodeForm]
    simp only [after, List.append_assoc, List.drop_left]
  have hhead : bytes.drop (position + delimiter.length + 2) = p.headers ++ after := by
    rw [← List.drop_drop, hline]
    rfl
  have hcontent : bytes.drop start = after := by
    rw [← List.drop_drop, hhead, List.drop_left]
  refine ⟨hline, hhead, hcontent, ?_⟩
  rw [Nat.add_assoc start, ← List.drop_drop, hcontent]
  exact List.drop_left' (by simp [crlf])

section Read
variable {delimiter bytes rest : List ℕ} {parts : List FormPart} {position fuel : ℕ}
  {after : List ℕ}

theorem partsFrom_close (h : [45, 45] <+: bytes.drop (position + delimiter.length)) :
    partsFrom bytes delimiter.length (fuel + 1) position after = some [] := by
  simp only [partsFrom, if_pos (startsWith_iff.mpr h)]

theorem partsFrom_part (hline : crlf <+: bytes.drop (position + delimiter.length)) :
    partsFrom bytes delimiter.length (fuel + 1) position after =
      (partHeaders (bytes.drop (position + delimiter.length + 2))).bind fun (head, read) =>
        head.name.bind fun name =>
          (nextDelimiter bytes (position + delimiter.length + 2 + read) after).bind
            fun (stop, after) =>
              (partsFrom bytes delimiter.length fuel stop after).bind fun parts =>
                some (⟨name, head.filename, head.type,
                  position + delimiter.length + 2 + read, stop - 2⟩ :: parts) := by
  have hdash : ¬ startsWith bytes (position + delimiter.length) [45, 45] := by
    rw [startsWith_iff]
    obtain ⟨rest, hrest⟩ := hline
    rw [← hrest]
    exact fun h => absurd (List.cons_prefix_cons.mp h).1 (by decide)
  simp only [partsFrom, if_neg hdash, if_neg (not_not.mpr (startsWith_iff.mpr hline))]
  rfl

theorem partsFrom_short (h : (bytes.drop (position + delimiter.length)).length < 2) :
    partsFrom bytes delimiter.length fuel position after = none := by
  have hnot (a b : ℕ) : ¬ startsWith bytes (position + delimiter.length) [a, b] := by
    rw [startsWith_iff]
    exact fun hprefix => absurd hprefix.length_le (not_le.mpr h)
  cases fuel with
  | zero => rfl
  | succ fuel =>
    simp only [partsFrom, if_neg (hnot 45 45)]
    exact if_pos (hnot 13 10)

theorem partsFrom_encodeForm (hdelimiter : IsDelimiter delimiter)
    (hparts : ∀ p ∈ parts, p.Valid delimiter)
    (hbytes : bytes.drop position = encodeForm delimiter parts ++ rest)
    (hscanned : Scanned delimiter bytes (position + delimiter.length) after)
    (hfuel : after.length < fuel) :
    partsFrom bytes delimiter.length fuel position after =
      some (encodedParts delimiter position parts) := by
  induction parts generalizing position fuel after with
  | nil =>
    obtain ⟨fuel, rfl⟩ := Nat.exists_eq_succ_of_ne_zero (Nat.ne_zero_of_lt hfuel)
    refine partsFrom_close ?_
    rw [← List.drop_drop, hbytes, encodeForm, List.append_assoc, List.drop_left]
    exact List.prefix_append _ _
  | cons p parts ih =>
    obtain ⟨fuel, rfl⟩ := Nat.exists_eq_succ_of_ne_zero (Nat.ne_zero_of_lt hfuel)
    obtain ⟨hp, hparts⟩ := List.forall_mem_cons.mp hparts
    obtain ⟨hline, hhead, hcontent, hrest⟩ := drop_encodeForm_cons hbytes
    obtain ⟨after', hnext, hlt, hscanned'⟩ := nextDelimiter_content hdelimiter hp.content hcontent
      ((delimiter_prefix_encodeForm delimiter parts).trans (List.prefix_append _ _))
      (by omega) hscanned
    rw [partsFrom_part (by rw [hline]; exact List.prefix_append _ _), hhead,
      partHeaders_headers hp.name hp.filename hp.type]
    have hparts' : partsFrom bytes delimiter.length fuel _ after' = some _ :=
      ih hparts hrest hscanned' (by omega)
    simp only [Option.bind_some, hnext, hparts', Nat.add_sub_cancel]
    rfl

theorem partsFrom_cut (hdelimiter : IsDelimiter delimiter)
    (hparts : ∀ p ∈ parts, p.Valid delimiter) {m : ℕ}
    (hbytes : bytes.drop position = (encodeForm delimiter parts).take m)
    (hcut : m < (encodeForm delimiter parts).length)
    (hscanned : Scanned delimiter bytes (position + delimiter.length) after) :
    partsFrom bytes delimiter.length fuel position after = none := by
  induction parts generalizing position fuel after m with
  | nil =>
    refine partsFrom_short ?_
    rw [← List.drop_drop, hbytes, List.length_drop, List.length_take]
    rw [encodeForm, List.length_append, List.length_cons, List.length_singleton] at hcut
    omega
  | cons p parts ih =>
    obtain ⟨hp, hparts⟩ := List.forall_mem_cons.mp hparts
    cases fuel with
    | zero => rfl
    | succ fuel =>
    by_cases hm : m < delimiter.length + 2
    · refine partsFrom_short ?_
      rw [← List.drop_drop, hbytes, List.length_drop, List.length_take]
      omega
    obtain ⟨m, rfl⟩ := Nat.exists_eq_add_of_le (not_lt.mp hm)
    have hform : encodeForm delimiter (p :: parts) = delimiter ++ (crlf ++
        (p.headers ++ (p.content ++ crlf ++ encodeForm delimiter parts))) := by
      rw [encodeForm]
      simp only [List.append_assoc]
    have hline : bytes.drop (position + delimiter.length) = crlf ++
        (p.headers ++ (p.content ++ crlf ++ encodeForm delimiter parts)).take m := by
      rw [← List.drop_drop, hbytes, hform, Nat.add_assoc, List.take_length_add_append,
        List.drop_left, Nat.add_comm 2]
      rfl
    have hhead : bytes.drop (position + delimiter.length + 2) =
        (p.headers ++ (p.content ++ crlf ++ encodeForm delimiter parts)).take m := by
      rw [← List.drop_drop, hline]
      rfl
    rw [partsFrom_part (by rw [hline]; exact List.prefix_append _ _), hhead]
    refine Option.bind_eq_none_iff.mpr fun ⟨head, read⟩ hpart => ?_
    -- Headers that the cut leaves whole are those of the part.
    obtain ⟨hread, happend⟩ := partHeaders_append hpart
    have hwhole := happend ((p.headers ++ (p.content ++ crlf ++ encodeForm delimiter parts)).drop m)
    rw [List.take_append_drop, partHeaders_headers hp.name hp.filename hp.type, Option.some.injEq,
      Prod.mk.injEq] at hwhole
    obtain ⟨rfl, rfl⟩ := hwhole
    rw [List.length_take] at hread
    obtain ⟨m, rfl⟩ := Nat.exists_eq_add_of_le (hread.trans (min_le_left _ _))
    obtain ⟨start, hstart⟩ : ∃ start, position + delimiter.length + 2 + p.headers.length = start :=
      ⟨_, rfl⟩
    have hcontent : bytes.drop start = (p.content ++ crlf ++ encodeForm delimiter parts).take m := by
      rw [← hstart, ← List.drop_drop, hhead, List.take_length_add_append, List.drop_left]
    refine Option.bind_eq_none_iff.mpr fun name _ => ?_
    refine Option.bind_eq_none_iff.mpr fun ⟨stop, after'⟩ hnext => ?_
    rw [hstart] at hnext
    obtain ⟨m, rfl, hrest, hscanned'⟩ := nextDelimiter_cut hdelimiter hp.content hcontent
      (delimiter_prefix_encodeForm delimiter parts) (by omega) hscanned hnext
    have hcut' : m < (encodeForm delimiter parts).length := by
      have hcrlf : crlf.length = 2 := rfl
      simp only [hform, List.length_append, hcrlf] at hcut
      omega
    simp only [ih hparts hrest hcut' hscanned', Option.bind_none]

end Read

def isBoundaryChar (c : ℕ) : Bool := isAlphanumeric c || (js "'()+_,-./:=? ").contains c

/-- A boundary has 1 to 70 characters, and does not end in a space. -/
structure IsBoundary (boundary : List ℕ) : Prop where
  pos : 0 < boundary.length
  le : boundary.length ≤ 70
  chars : ∀ c ∈ boundary, isBoundaryChar c = true
  last : boundary.getLast? ≠ some 32

def delimiterOf (boundary : List ℕ) : List ℕ := 45 :: 45 :: boundary

theorem IsBoundary.length_le {boundary : List ℕ} (h : IsBoundary boundary) :
    (delimiterOf boundary).length ≤ 257 := by
  have := h.le
  rw [delimiterOf, List.length_cons, List.length_cons]
  omega

theorem IsBoundary.isDelimiter {boundary : List ℕ} (h : IsBoundary boundary) :
    IsDelimiter (delimiterOf boundary) := by
  refine ⟨⟨_, rfl⟩, fun c hc hmem => ?_⟩
  have hchar : isBoundaryChar c = false := by
    simp only [List.mem_cons, List.not_mem_nil, or_false] at hmem
    rcases hmem with rfl | rfl <;> decide
  simp only [delimiterOf, List.mem_cons] at hc
  rcases hc with rfl | rfl | hc
  · exact absurd hmem (by decide)
  · exact absurd hmem (by decide)
  · rw [h.chars c hc] at hchar
    cases hchar

def Part.entry (bytes : List ℕ) (part : Part) : FormPart :=
  ⟨part.name, part.filename, part.type, (bytes.drop part.start).take (part.stop - part.start)⟩

theorem entry_encodedParts {delimiter bytes rest : List ℕ} {parts : List FormPart} {position : ℕ}
    (hbytes : bytes.drop position = encodeForm delimiter parts ++ rest) :
    (encodedParts delimiter position parts).map (Part.entry bytes) = parts := by
  induction parts generalizing position with
  | nil => rfl
  | cons p parts ih =>
    obtain ⟨-, -, hcontent, hrest⟩ := drop_encodeForm_cons hbytes
    rw [encodedParts, List.map_cons, ih hrest, Part.entry, Nat.add_sub_cancel_left, hcontent,
      List.append_assoc, List.take_left]

theorem scanned_zero {pattern bytes : List ℕ} {starts : List ℕ} (h : Scanned pattern bytes 0 starts)
    (hocc : OccursAt pattern bytes 0) :
    ∃ after, starts = 0 :: after ∧ Scanned pattern bytes (0 + pattern.length) after := by
  obtain ⟨before, after, rfl, hbefore, hafter⟩ := h.split le_rfl hocc nofun
  cases before with
  | nil => exact ⟨after, rfl, hafter⟩
  | cons j before => exact absurd (hbefore j List.mem_cons_self) (Nat.not_lt_zero j)

/-- Parsing inverts encoding: a body is read as the parts it was written from, with their
contents where they stand, and a body that ends before its closing delimiter is refused. -/
theorem partsOf_encodeForm {boundary : List ℕ} (hboundary : IsBoundary boundary)
    {parts : List FormPart} (hparts : ∀ p ∈ parts, p.Valid (delimiterOf boundary))
    (rest : List ℕ) (limits : DelimiterLimits) :
    let delimiter := delimiterOf boundary
    let body := encodeForm delimiter parts ++ rest
    (∀ found, found = scanDelimiters body delimiter limits → ¬ found.overLimits limits →
      partsOf body found.starts delimiter.length = some (encodedParts delimiter 0 parts) ∧
      (encodedParts delimiter 0 parts).map (Part.entry body) = parts) ∧
    ∀ n < (encodeForm delimiter parts).length, ∀ found,
      found = scanDelimiters (body.take n) delimiter limits → ¬ found.overLimits limits →
      partsOf (body.take n) found.starts delimiter.length = none := by
  intro delimiter body
  have hdelimiter : IsDelimiter delimiter := hboundary.isDelimiter
  obtain ⟨front, hfront⟩ := hdelimiter.dash
  constructor
  · rintro found rfl hwithin
    have hscanned := scanned_scanDelimiters hfront hboundary.length_le hwithin
    obtain ⟨after, hstarts, hafter⟩ := scanned_zero hscanned
      ((delimiter_prefix_encodeForm delimiter parts).trans (List.prefix_append _ _))
    have hbody : body.drop 0 = encodeForm delimiter parts ++ rest := rfl
    rw [hstarts]
    exact ⟨partsFrom_encodeForm hdelimiter hparts hbody hafter (Nat.lt_succ_self _),
      entry_encodedParts hbody⟩
  · rintro n hn found rfl hwithin
    have hscanned := scanned_scanDelimiters hfront hboundary.length_le hwithin
    have htake : (body.take n).drop 0 = (encodeForm delimiter parts).take n :=
      List.take_append_of_le_length hn.le
    generalize (scanDelimiters (body.take n) delimiter limits).starts = starts at hscanned ⊢
    match starts, hscanned with
    | [], _ => rfl
    | (_ + 1) :: _, _ => rfl
    | 0 :: after, .next _ _ _ hafter => exact partsFrom_cut hdelimiter hparts htake hn hafter

/-- A content that holds the delimiter within a line, one that ends in a carriage return, and an
empty one. -/
theorem partsOf_encodeForm_three :
    let delimiter := delimiterOf (js "x")
    let parts : List FormPart :=
      [⟨js "a\"%", none, none, js "a --x--\r\n b"⟩, ⟨js "f", some (js "n\n"), some (js "text/x"), [13]⟩,
        ⟨js "e", none, none, []⟩]
    let body := encodeForm delimiter parts ++ crlf
    let found := scanDelimiters body delimiter ⟨10, 10⟩
    partsOf body found.starts delimiter.length = some (encodedParts delimiter 0 parts) ∧
      (encodedParts delimiter 0 parts).map (Part.entry body) = parts := by
  intro delimiter parts body found
  have hboundary : IsBoundary (js "x") := ⟨by decide, by decide, by decide, by decide⟩
  have hparts : ∀ p ∈ parts, p.Valid delimiter := by
    simp only [parts, List.forall_mem_cons, List.not_mem_nil, false_implies, implies_true, and_true]
    refine ⟨⟨?_, ?_, ?_, ?_⟩, ⟨?_, ?_, ?_, ?_⟩, ⟨?_, ?_, ?_, ?_⟩⟩ <;> decide +kernel
  exact (partsOf_encodeForm hboundary hparts crlf ⟨10, 10⟩).1 found rfl (by decide +kernel)

/-- A type that begins with a blank is read without it. -/
theorem partsOf_blankType :
    let delimiter := delimiterOf (js "x")
    let parts : List FormPart := [⟨js "f", none, some (js " text/plain"), js "hi"⟩]
    let body := encodeForm delimiter parts ++ crlf
    let found := scanDelimiters body delimiter ⟨10, 10⟩
    (∀ p ∈ parts, Encodable p.name ∧ ¬ crlf ++ delimiter <:+: p.content) ∧
      ¬ found.overLimits ⟨10, 10⟩ ∧
      partsOf body found.starts delimiter.length ≠ some (encodedParts delimiter 0 parts) := by
  decide +kernel

end Nifra.Multipart
