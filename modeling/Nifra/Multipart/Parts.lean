import Mathlib.Data.List.DropRight
import Nifra.Multipart.Scan
import Nifra.Text.Utf8

/-! # The parts of a multipart body

The parser of `multipart/form-data`, from the delimiters that the scan found. A reader is
handed the bytes from a position on, and answers how many of them it has read.
-/

namespace Nifra.Multipart

def crlf : List ℕ := [13, 10]

def isBlank (c : ℕ) : Bool := decide (c = 32 ∨ c = 9)

/-- `TCHAR` -/
def isTchar (c : ℕ) : Bool :=
  (js "!#$%&'*+-.^_`|~0123456789ABCDEFGHIJKLMNOPQRSTUVWXYZabcdefghijklmnopqrstuvwxyz").contains c

def formDataName : List ℕ := js "form-data; name=\""

def fileName : List ℕ := js "; filename=\""

def contentDisposition : List ℕ := js "content-disposition"

def contentType : List ℕ := js "content-type"

def shortText : ℕ := 64

/-- Bytes as text: short ASCII byte by byte, and anything else by the decoder. -/
def textOf (bytes : List ℕ) : JSString :=
  if bytes.length ≤ shortText ∧ bytes.all (· < 0x80) then bytes else decodeUtf8 bytes

def spells (bytes lower : List ℕ) : Bool := bytes.map (· ||| 0x20) = lower

/-- `replaceAll`, with so many units of an occurrence still to skip. -/
def replaceFrom (pattern replacement : JSString) : ℕ → JSString → JSString
  | _, [] => []
  | skip + 1, _ :: rest => replaceFrom pattern replacement skip rest
  | 0, c :: rest =>
    if pattern.isPrefixOf (c :: rest) then
      replacement ++ replaceFrom pattern replacement (pattern.length - 1) rest
    else c :: replaceFrom pattern replacement 0 rest

def replaceAll (s pattern replacement : JSString) : JSString := replaceFrom pattern replacement 0 s

def restoredName (raw : List ℕ) : JSString :=
  let value := textOf raw
  if 37 ∈ raw then
    replaceAll (replaceAll (replaceAll value (js "%0A") [10]) (js "%0D") [13]) (js "%22") [34]
  else value

/-- A quoted name, from the byte after its opening quote through the closing one. -/
def quotedName (rest : List ℕ) : Option (JSString × ℕ) :=
  let close := rest.findIdx (· ∈ [10, 13, 34])
  if rest[close]? = some 34 then some (restoredName (rest.take close), close + 1) else none

structure PartHead where
  name : Option JSString
  filename : Option JSString
  type : Option JSString
  deriving DecidableEq, Repr

/-- The value of a `Content-Disposition`, which the standard reads in this exact form only. -/
def disposition (rest : List ℕ) (head : PartHead) : Option (PartHead × ℕ) := do
  if ¬ formDataName.isPrefixOf rest then none
  else
    let (name, read) ← quotedName (rest.drop formDataName.length)
    let read := formDataName.length + read
    if fileName.isPrefixOf (rest.drop read) then
      let (filename, more) ← quotedName (rest.drop (read + fileName.length))
      some (⟨some name, some filename, head.type⟩, read + fileName.length + more)
    else some (⟨some name, none, head.type⟩, read)

/-- The value of any other header, of which only a `Content-Type` is kept. -/
def otherHeader (field rest : List ℕ) (head : PartHead) : PartHead × ℕ :=
  let stop := rest.findIdx (· ∈ [10, 13])
  (if spells field contentType then
      { head with type := some ((rest.take stop).rdropWhile isBlank) }
    else head,
    stop)

def headerValue (field rest : List ℕ) (head : PartHead) : Option (PartHead × ℕ) :=
  if spells field contentDisposition then disposition rest head
  else some (otherHeader field rest head)

def headerLine (rest : List ℕ) (head : PartHead) : Option (PartHead × ℕ) := do
  let colon := rest.findIdx (· ∈ [10, 13, 58])
  if rest[colon]? ≠ some 58 then none
  else
    let field := ((rest.take colon).dropWhile isBlank).rdropWhile isBlank
    if field = [] ∨ ¬ field.all isTchar then none
    else
      let start := colon + 1 + ((rest.drop (colon + 1)).takeWhile isBlank).length
      let (head, read) ← headerValue field (rest.drop start) head
      if crlf.isPrefixOf (rest.drop (start + read)) then some (head, start + read + 2) else none

/-- The header lines up to the blank line that ends them. A line reads a byte at least. -/
def headerLines : ℕ → List ℕ → PartHead → Option (PartHead × ℕ)
  | 0, _, _ => none
  | fuel + 1, rest, head =>
    if crlf.isPrefixOf rest then if head.name.isSome then some (head, 2) else none
    else do
      let (head, read) ← headerLine rest head
      let (head, more) ← headerLines fuel (rest.drop read) head
      some (head, read + more)

def partHeaders (rest : List ℕ) : Option (PartHead × ℕ) :=
  headerLines (rest.length + 1) rest ⟨none, none, none⟩

structure Part where
  name : JSString
  filename : Option JSString
  type : Option JSString
  start : ℕ
  stop : ℕ
  deriving DecidableEq, Repr

/-- The next delimiter that starts a line behind a position, with the ones after it. -/
def nextDelimiter (bytes : List ℕ) (position : ℕ) : List ℕ → Option (ℕ × List ℕ)
  | [] => none
  | stop :: after =>
    if stop < position + 2 ∨ ¬ startsWith bytes (stop - 2) crlf then
      nextDelimiter bytes position after
    else some (stop, after)

def partsFrom (bytes : List ℕ) (size : ℕ) : ℕ → ℕ → List ℕ → Option (List Part)
  | 0, _, _ => none
  | fuel + 1, position, after =>
    let position := position + size
    if startsWith bytes position [45, 45] then some []
    else if ¬ startsWith bytes position crlf then none
    else do
      let (head, read) ← partHeaders (bytes.drop (position + 2))
      let name ← head.name
      let start := position + 2 + read
      let (stop, after) ← nextDelimiter bytes start after
      let parts ← partsFrom bytes size fuel stop after
      some (⟨name, head.filename, head.type, start, stop - 2⟩ :: parts)

/-- Every part takes a delimiter, so as many rounds as delimiters read the body to its end. -/
def partsOf (bytes starts : List ℕ) (size : ℕ) : Option (List Part) :=
  match starts with
  | 0 :: after => partsFrom bytes size (after.length + 1) 0 after
  | _ => none

structure FormPart where
  name : JSString
  filename : Option JSString
  type : Option JSString
  content : List ℕ
  deriving DecidableEq, Repr

def escapeName (s : JSString) : JSString :=
  s.flatMap fun c =>
    if c = 10 then js "%0A" else if c = 13 then js "%0D" else if c = 34 then js "%22" else [c]

def quoted (s : JSString) : List ℕ := encodeUtf8 (escapeName s) ++ [34]

namespace FormPart

variable (p : FormPart)

def dispositionLine : List ℕ :=
  js "Content-Disposition: " ++ formDataName ++ quoted p.name ++
    (p.filename.elim [] fun f => fileName ++ quoted f) ++ crlf

def typeLine : List ℕ := p.type.elim [] fun t => js "Content-Type: " ++ t ++ crlf

def headers : List ℕ := p.dispositionLine ++ p.typeLine ++ crlf

end FormPart

def encodeForm (delimiter : List ℕ) : List FormPart → List ℕ
  | [] => delimiter ++ [45, 45]
  | p :: ps => delimiter ++ crlf ++ p.headers ++ p.content ++ crlf ++ encodeForm delimiter ps

def encodedParts (delimiter : List ℕ) : ℕ → List FormPart → List Part
  | _, [] => []
  | position, p :: ps =>
    let start := position + delimiter.length + 2 + p.headers.length
    ⟨p.name, p.filename, p.type, start, start + p.content.length⟩ ::
      encodedParts delimiter (start + p.content.length + 2) ps

/-! ## Names of a multipart body

A name is written with its line feeds, carriage returns and quotes escaped, and read back by
three replacements. A name that holds an escape of its own would be read as another.
-/

def escapeWith (table : ℕ → Option (ℕ × ℕ)) (s : JSString) : JSString :=
  s.flatMap fun c => match table c with
    | some (a, b) => [37, a, b]
    | none => [c]

def Plain (table : ℕ → Option (ℕ × ℕ)) : Prop :=
  ∀ c a b, table c = some (a, b) → a ≠ 37 ∧ b ≠ 37

section Replace
variable {table : ℕ → Option (ℕ × ℕ)}

theorem escapeWith_some {c a b : ℕ} (h : table c = some (a, b)) (s : JSString) :
    escapeWith table (c :: s) = 37 :: a :: b :: escapeWith table s := by
  simp [escapeWith, h]

theorem escapeWith_none {c : ℕ} (h : table c = none) (s : JSString) :
    escapeWith table (c :: s) = c :: escapeWith table s := by
  simp [escapeWith, h]

theorem cons_prefix_escapeWith {a : ℕ} (ha : a ≠ 37) {w s : JSString}
    (h : a :: w <+: escapeWith table s) : ∃ s', s = a :: s' ∧ w <+: escapeWith table s' := by
  cases s with
  | nil => simp [escapeWith] at h
  | cons c s =>
    cases hc : table c with
    | some p =>
      rw [escapeWith_some hc, List.cons_prefix_cons] at h
      exact absurd h.1 ha
    | none =>
      rw [escapeWith_none hc, List.cons_prefix_cons] at h
      exact ⟨s, by rw [h.1], h.2⟩

theorem replaceFrom_of_ne {pattern replacement : JSString} {c d : ℕ} (h : c ≠ d)
    (rest : JSString) : replaceFrom (d :: pattern) replacement 0 (c :: rest) =
      c :: replaceFrom (d :: pattern) replacement 0 rest := by
  rw [replaceFrom, if_neg]
  simp [Ne.symm h]

theorem replaceAll_escapeWith (hplain : Plain table) {x a b : ℕ} (hx : table x = some (a, b))
    (hinj : ∀ y, table y = some (a, b) → y = x) {s : JSString} (hs : ¬ [37, a, b] <:+: s) :
    replaceAll (escapeWith table s) [37, a, b] [x] =
      escapeWith (Function.update table x none) s := by
  obtain ⟨ha, hb⟩ := hplain x a b hx
  induction s with
  | nil => rfl
  | cons c s ih =>
    have ih := ih fun h => hs (h.trans (List.infix_cons (List.infix_refl _)))
    by_cases hcx : c = x
    · subst hcx
      rw [escapeWith_some hx, escapeWith_none (Function.update_self ..), replaceAll, replaceFrom,
        if_pos (by simp)]
      exact congrArg (c :: ·) ih
    · have hupdate : Function.update table x none c = table c := Function.update_of_ne hcx _ _
      cases hc : table c with
      | some p =>
        obtain ⟨a', b'⟩ := p
        obtain ⟨ha', hb'⟩ := hplain c a' b' hc
        have hne : ¬ (a = a' ∧ b = b') := by
          rintro ⟨rfl, rfl⟩
          exact hcx (hinj c hc)
        rw [escapeWith_some hc, escapeWith_some (hupdate.trans hc), replaceAll, replaceFrom,
          if_neg (by simpa using hne), replaceFrom_of_ne ha', replaceFrom_of_ne hb']
        exact congrArg (37 :: a' :: b' :: ·) ih
      | none =>
        rw [escapeWith_none hc, escapeWith_none (hupdate.trans hc), replaceAll, replaceFrom, if_neg]
        · exact congrArg (c :: ·) ih
        · rw [List.isPrefixOf_iff_prefix, List.cons_prefix_cons]
          rintro ⟨rfl, h⟩
          -- The escape would stand in the string itself.
          obtain ⟨s₁, rfl, h₁⟩ := cons_prefix_escapeWith ha h
          obtain ⟨s₂, rfl, -⟩ := cons_prefix_escapeWith hb h₁
          exact hs ⟨[], s₂, rfl⟩

theorem escapeWith_nothing (s : JSString) : escapeWith (fun _ => none) s = s := by
  simp [escapeWith]

end Replace

def nameEscapes (c : ℕ) : Option (ℕ × ℕ) :=
  if c = 10 then some (48, 65) else if c = 13 then some (48, 68)
  else if c = 34 then some (50, 50) else none

def Unescaped (s : JSString) : Prop := ∀ w ∈ [js "%0A", js "%0D", js "%22"], ¬ w <:+: s

instance (s : JSString) : Decidable (Unescaped s) := inferInstanceAs (Decidable (∀ w ∈ _, _))

theorem escapeName_eq (s : JSString) : escapeName s = escapeWith nameEscapes s := by
  unfold escapeName escapeWith nameEscapes
  congr 1
  funext c
  split_ifs <;> rfl

theorem plain_nameEscapes : Plain nameEscapes := by
  intro c a b h
  unfold nameEscapes at h
  split_ifs at h <;> cases h <;> decide

theorem plain_update {table : ℕ → Option (ℕ × ℕ)} (h : Plain table) (x : ℕ) :
    Plain (Function.update table x none) := by
  intro c a b hc
  rw [Function.update_apply] at hc
  split_ifs at hc
  exact h c a b hc

theorem replaceAll_escapeName {s : JSString} (hs : Unescaped s) :
    replaceAll (replaceAll (replaceAll (escapeName s) (js "%0A") [10]) (js "%0D") [13])
      (js "%22") [34] = s := by
  have hlf := replaceAll_escapeWith plain_nameEscapes (x := 10) (a := 48) (b := 65) rfl
    (fun y h => by
      unfold nameEscapes at h
      split_ifs at h <;> first | assumption | cases h) (hs (js "%0A") (by decide))
  have hcr := replaceAll_escapeWith (plain_update plain_nameEscapes 10) (x := 13) (a := 48) (b := 68)
    rfl (fun y h => by
      rw [Function.update_apply] at h
      unfold nameEscapes at h
      split_ifs at h <;> first | assumption | cases h) (hs (js "%0D") (by decide))
  have hquote := replaceAll_escapeWith (plain_update (plain_update plain_nameEscapes 10) 13)
    (x := 34) (a := 50) (b := 50) rfl (fun y h => by
      rw [Function.update_apply, Function.update_apply] at h
      unfold nameEscapes at h
      split_ifs at h
      assumption) (hs (js "%22") (by decide))
  have hnone : Function.update (Function.update (Function.update nameEscapes 10 none) 13 none) 34
      none = fun _ => none := by
    funext c
    simp only [Function.update_apply, nameEscapes]
    split_ifs <;> rfl
  rw [hnone, escapeWith_nothing] at hquote
  rw [escapeName_eq]
  exact (congrArg (fun t => replaceAll (replaceAll t (js "%0D") [13]) (js "%22") [34]) hlf).trans
    ((congrArg (replaceAll · (js "%22") [34]) hcr).trans hquote)

theorem escapeName_of_not_mem {s : JSString} (h : 37 ∉ escapeName s) : escapeName s = s := by
  rw [escapeName_eq] at h ⊢
  induction s with
  | nil => rfl
  | cons c s ih =>
    cases hc : nameEscapes c with
    | some p =>
      rw [escapeWith_some hc] at h
      exact absurd List.mem_cons_self h
    | none =>
      rw [escapeWith_none hc, List.mem_cons, not_or] at h
      rw [escapeWith_none hc, ih h.2]

theorem not_mem_escapeName {s : JSString} {c : ℕ} (hc : c ∈ [10, 13, 34]) : c ∉ escapeName s := by
  intro h
  obtain ⟨d, -, hd⟩ := List.mem_flatMap.mp h
  simp only [List.mem_cons, List.not_mem_nil, or_false] at hc
  split_ifs at hd
  · rcases hc with rfl | rfl | rfl <;> exact absurd hd (by decide)
  · rcases hc with rfl | rfl | rfl <;> exact absurd hd (by decide)
  · rcases hc with rfl | rfl | rfl <;> exact absurd hd (by decide)
  · rw [List.mem_singleton] at hd
    omega

theorem escapeName_of_clear {s : JSString} (h : ∀ c ∈ s, c ≠ 10 ∧ c ≠ 13 ∧ c ≠ 34) :
    escapeName s = s := by
  induction s with
  | nil => rfl
  | cons c s ih =>
    obtain ⟨⟨hlf, hcr, hquote⟩, hs⟩ := List.forall_mem_cons.mp h
    have hcons : escapeName (c :: s) = c :: escapeName s := by
      simp [escapeName, hlf, hcr, hquote]
    rw [hcons, ih hs]

theorem wellFormed_escapeName {s : JSString} (h : WellFormed s) : WellFormed (escapeName s) := by
  obtain ⟨ps, hps⟩ := Option.isSome_iff_exists.mp h
  obtain ⟨rfl, hs⟩ := codePoints_scalar_units hps
  clear h hps
  induction ps with
  | nil => decide
  | cons p ps ih =>
    obtain ⟨hp, hps⟩ := List.forall_mem_cons.mp hs
    have happend : escapeName ((p :: ps).flatMap JSString.utf16) =
        escapeName (JSString.utf16 p) ++ escapeName (ps.flatMap JSString.utf16) := by
      rw [List.flatMap_cons]
      exact List.flatMap_append
    rw [happend]
    refine WellFormed.append ?_ (ih hps)
    by_cases hspecial : p ∈ [10, 13, 34]
    · simp only [List.mem_cons, List.not_mem_nil, or_false] at hspecial
      rcases hspecial with rfl | rfl | rfl <;> decide
    · rw [escapeName_of_clear]
      · simpa using @wellFormed_utf16 [p] (by simpa using hp)
      · simp only [List.mem_cons, List.not_mem_nil, or_false, not_or] at hspecial
        unfold JSString.utf16
        split_ifs
        · simpa using hspecial
        · simp only [List.mem_cons, List.not_mem_nil, or_false]
          omega

end Nifra.Multipart
