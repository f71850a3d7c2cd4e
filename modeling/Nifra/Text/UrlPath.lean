import Nifra.Text.Url

/-! # Reading a path back

The path state reads clean segments as themselves, and it leaves only clean segments: so a path
that has been read is read again as it is.
-/

namespace Nifra.Url

variable {set : ℕ → Bool} {stops caret : Bool}

theorem afterDot_eq_some_iff {s rest : List ℕ} : afterDot s = some rest ↔
    s = 46 :: rest ∨ ∃ e, (e = 69 ∨ e = 101) ∧ s = 37 :: 50 :: e :: rest := by
  fun_cases afterDot s with
  | case1 tail => simp
  | case2 e tail he =>
    constructor
    · rintro h
      obtain rfl := Option.some.inj h
      exact Or.inr ⟨e, he, rfl⟩
    · rintro (h | ⟨e', -, h⟩)
      · cases h
      · cases h
        rfl
  | case3 e tail he =>
    constructor
    · rintro ⟨⟩
    · rintro (h | ⟨e', he', h⟩)
      · cases h
      · cases h
        exact (he he').elim
  | case4 s hdot hescape =>
    constructor
    · rintro ⟨⟩
    · rintro (rfl | ⟨e, -, rfl⟩)
      · exact (hdot _ rfl).elim
      · exact (hescape _ _ rfl).elim

def EndsSegment (tail : List ℕ) : Prop := ∀ c ∈ tail.head?, c = 47 ∨ c = 63 ∨ c = 35

theorem afterDot_append {tail : List ℕ} (htail : EndsSegment tail) (s : List ℕ) :
    afterDot (s ++ tail) = (afterDot s).map (· ++ tail) := by
  have hfirst : ∀ {c rest}, tail = c :: rest → c = 47 ∨ c = 63 ∨ c = 35 := by
    rintro c rest rfl
    exact htail c rfl
  ext rest
  simp only [Option.map_eq_some_iff, afterDot_eq_some_iff]
  constructor
  · rintro (h | ⟨e, he, h⟩)
    · rcases s with _ | ⟨a, s⟩
      · have := hfirst h
        omega
      · obtain ⟨rfl, rfl⟩ := List.cons.inj h
        exact ⟨s, Or.inl rfl, rfl⟩
    · rcases s with _ | ⟨a, _ | ⟨b, _ | ⟨c, s⟩⟩⟩
      · have := hfirst h
        omega
      · have := hfirst (List.cons.inj h).2
        omega
      · have := hfirst (List.cons.inj (List.cons.inj h).2).2
        omega
      · simp only [List.cons_append, List.cons.injEq] at h
        obtain ⟨rfl, rfl, rfl, rfl⟩ := h
        exact ⟨s, Or.inr ⟨c, he, rfl⟩, rfl⟩
  · rintro ⟨r, rfl | ⟨e, he, rfl⟩, rfl⟩
    · exact Or.inl rfl
    · exact Or.inr ⟨e, he, rfl⟩

@[simp] theorem isSingleDot_nil : isSingleDot [] = false := rfl

@[simp] theorem isDoubleDot_nil : isDoubleDot [] = false := rfl

structure Clean (set : ℕ → Bool) (segment : JSString) : Prop where
  kept : ∀ c ∈ segment, set c = false ∧ isSlash c = false
  single : isSingleDot segment = false
  double : isDoubleDot segment = false

theorem Clean.nil : Clean set [] := ⟨by simp, rfl, rfl⟩

theorem endSegment_clean {path : List JSString} {segment : JSString} (h : Clean set segment)
    (slash : Bool) : endSegment path segment slash = path ++ [segment] := by
  simp [endSegment, h.single, h.double]

def Delimited (set : ℕ → Bool) : Prop := set 63 = true ∧ set 35 = true

theorem pathState_kept (hset : Delimited set) {segment : List ℕ}
    (h : ∀ c ∈ segment, set c = false ∧ isSlash c = false) (path : List JSString)
    (buffer : JSString) (rest : List ℕ) :
    pathState set stops path buffer (segment ++ rest) =
      pathState set stops path (buffer ++ segment) rest := by
  induction segment generalizing buffer with
  | nil => simp
  | cons c segment ih =>
    obtain ⟨⟨hc, hslash⟩, hsegment⟩ := List.forall_mem_cons.mp h
    have hquestion : c ≠ 63 := by
      rintro rfl
      rw [hset.1] at hc
      cases hc
    have hhash : c ≠ 35 := by
      rintro rfl
      rw [hset.2] at hc
      cases hc
    rw [List.cons_append, pathState, if_neg (by simp [hslash]),
      if_neg (by simp [hquestion, hhash]), ih hsegment]
    simp [encodeChar, hc]

/-- Where a path ends: at the end of the text, or at the mark of a query or a fragment. -/
def EndsPath (stops : Bool) (tail : List ℕ) : Prop :=
  tail = [] ∨ stops = true ∧ ∃ c ∈ tail.head?, c = 63 ∨ c = 35

theorem pathState_end {tail : List ℕ} (htail : EndsPath stops tail) (path : List JSString)
    (buffer : JSString) :
    pathState set stops path buffer tail = (endSegment path buffer false, tail) := by
  rcases htail with rfl | ⟨rfl, c, hc, hmark⟩
  · rfl
  · cases tail with
    | nil => cases hc
    | cons d tail =>
      obtain rfl : d = c := by simpa using hc
      rw [pathState, if_neg (by rcases hmark with rfl | rfl <;> decide),
        if_pos (by rcases hmark with rfl | rfl <;> decide)]

theorem pathState_segments (hset : Delimited set) {tail : List ℕ} (htail : EndsPath stops tail)
    {segments : List JSString} (h : ∀ segment ∈ segments, Clean set segment)
    (path : List JSString) {buffer : JSString} (hbuffer : Clean set buffer) :
    pathState set stops path buffer (pathText segments ++ tail) =
      (path ++ buffer :: segments, tail) := by
  induction segments generalizing path buffer with
  | nil =>
    rw [show pathText [] ++ tail = tail from rfl, pathState_end htail, endSegment_clean hbuffer]
  | cons segment segments ih =>
    obtain ⟨hsegment, hsegments⟩ := List.forall_mem_cons.mp h
    have hrest := ih hsegments (path ++ [buffer]) hsegment
    simp only [pathText, List.flatMap_cons, List.cons_append, List.append_assoc] at hrest ⊢
    rw [pathState, if_pos (by rfl), endSegment_clean hbuffer,
      pathState_kept hset hsegment.kept, List.nil_append, hrest]
    simp

theorem pathStart_segments (hset : Delimited set) {tail : List ℕ} (htail : EndsPath stops tail)
    {segments : List JSString} (hne : segments ≠ [])
    (h : ∀ segment ∈ segments, Clean set segment) :
    pathStart set stops (pathText segments ++ tail) = (segments, tail) := by
  cases segments with
  | nil => exact (hne rfl).elim
  | cons segment segments =>
    obtain ⟨hsegment, hsegments⟩ := List.forall_mem_cons.mp h
    have hstate := pathState_segments hset htail hsegments [] hsegment
    simp only [pathText, List.flatMap_cons, List.cons_append, List.append_assoc] at hstate ⊢
    rw [pathStart, if_pos (by rfl), pathState_kept hset hsegment.kept, List.nil_append, hstate]
    rfl

theorem endSegment_ne_nil (path : List JSString) (buffer : JSString) :
    endSegment path buffer false ≠ [] := by
  unfold endSegment
  split_ifs <;> simp_all

theorem forall_endSegment {path : List JSString} {buffer : JSString}
    (hpath : ∀ segment ∈ path, Clean set segment)
    (hbuffer : ∀ c ∈ buffer, set c = false ∧ isSlash c = false) (slash : Bool) :
    ∀ segment ∈ endSegment path buffer slash, Clean set segment := by
  have hlast : ∀ segment ∈ path.dropLast, Clean set segment :=
    fun segment hmem => hpath segment (List.dropLast_subset path hmem)
  have happend : ∀ {front : List JSString} {last : JSString},
      (∀ segment ∈ front, Clean set segment) → Clean set last →
        ∀ segment ∈ front ++ [last], Clean set segment := by
    intro front last hfront hclean segment hmem
    rcases List.mem_append.mp hmem with hmem | hmem
    · exact hfront segment hmem
    · rw [List.mem_singleton.mp hmem]
      exact hclean
  unfold endSegment
  split_ifs with hdouble hslash hsingle hslash
  · exact hlast
  · exact happend hlast Clean.nil
  · exact hpath
  · exact happend hpath Clean.nil
  · exact happend hpath ⟨hbuffer, by simpa using hsingle, by simpa using hdouble⟩

def KeepsEscapes (set : ℕ → Bool) : Prop := ∀ c, EscapeChar c → set c = false

theorem isSlash_of_escapeChar {c : ℕ} (h : EscapeChar c) : isSlash c = false := by
  unfold EscapeChar at h
  simp only [isSlash, Bool.or_eq_false_iff, beq_eq_false_iff_ne]
  omega

theorem forall_encodeChar (hset : KeepsEscapes set) {c : ℕ} (hc : IsScalar c)
    (hslash : isSlash c = false) :
    ∀ d ∈ encodeChar set c, set d = false ∧ isSlash d = false := by
  intro d hd
  rcases mem_encodeChar hc hd with ⟨rfl, hkept⟩ | hescape
  · exact ⟨hkept, hslash⟩
  · exact ⟨hset d hescape, isSlash_of_escapeChar hescape⟩

theorem pathState_clean (hset : KeepsEscapes set) {text : List ℕ} (htext : ∀ c ∈ text, IsScalar c)
    {path : List JSString} (hpath : ∀ segment ∈ path, Clean set segment) {buffer : JSString}
    (hbuffer : ∀ c ∈ buffer, set c = false ∧ isSlash c = false) :
    (pathState set stops path buffer text).1 ≠ [] ∧
      ∀ segment ∈ (pathState set stops path buffer text).1, Clean set segment := by
  induction text generalizing path buffer with
  | nil => exact ⟨endSegment_ne_nil path buffer, forall_endSegment hpath hbuffer false⟩
  | cons c text ih =>
    obtain ⟨hc, htext⟩ := List.forall_mem_cons.mp htext
    rw [pathState]
    split_ifs with hslash hstop
    · exact ih htext (forall_endSegment hpath hbuffer true) (by simp)
    · exact ⟨endSegment_ne_nil path buffer, forall_endSegment hpath hbuffer false⟩
    · refine ih htext hpath fun d hd => ?_
      rcases List.mem_append.mp hd with hd | hd
      · exact hbuffer d hd
      · exact forall_encodeChar hset hc (by simpa using hslash) d hd

theorem pathStart_clean (hset : KeepsEscapes set) {text : List ℕ} (htext : ∀ c ∈ text, IsScalar c) :
    (pathStart set stops text).1 ≠ [] ∧
      ∀ segment ∈ (pathStart set stops text).1, Clean set segment := by
  cases text with
  | nil =>
    rw [pathStart]
    exact pathState_clean hset htext (by simp) (by simp)
  | cons c text =>
    rw [pathStart]
    split_ifs
    · exact pathState_clean hset (List.forall_mem_cons.mp htext).2 (by simp) (by simp)
    · exact pathState_clean hset htext (by simp) (by simp)

/-- `replaceAll("^", "%5E")` -/
def replaceCaret (s : JSString) : JSString := s.flatMap fun c => if c = 94 then js "%5E" else [c]

theorem replaceCaret_append (s t : JSString) :
    replaceCaret (s ++ t) = replaceCaret s ++ replaceCaret t := List.flatMap_append

theorem replaceCaret_of_not_mem {s : JSString} (h : 94 ∉ s) : replaceCaret s = s := by
  induction s with
  | nil => rfl
  | cons c s ih =>
    obtain ⟨hc, hs⟩ := not_or.mp (mt List.mem_cons.mpr h)
    have hrest := ih hs
    unfold replaceCaret at hrest ⊢
    rw [List.flatMap_cons, if_neg (Ne.symm hc), hrest, List.singleton_append]

theorem afterDot_replaceCaret (s : JSString) :
    afterDot (replaceCaret s) = (afterDot s).map replaceCaret := by
  have hother : ∀ {c : ℕ} (t : JSString), c ≠ 94 → replaceCaret (c :: t) = c :: replaceCaret t := by
    intro c t hc
    simp [replaceCaret, hc]
  have hcaret : ∀ t, replaceCaret (94 :: t) = 37 :: 53 :: 69 :: replaceCaret t := fun t => rfl
  rcases s with _ | ⟨a, s⟩
  · rfl
  by_cases ha : a = 46
  · subst ha
    simp [hother s (by decide : (46 : ℕ) ≠ 94), afterDot]
  by_cases ha' : a = 94
  · subst ha'
    rw [hcaret]
    simp [afterDot]
  rw [hother s ha']
  by_cases hpercent : a = 37
  · subst hpercent
    rcases s with _ | ⟨b, s⟩
    · rfl
    by_cases hb : b = 50
    · subst hb
      rw [hother s (by decide : (50 : ℕ) ≠ 94)]
      rcases s with _ | ⟨e, s⟩
      · rfl
      by_cases he : e = 94
      · subst he
        rw [hcaret]
        simp [afterDot]
      · rw [hother s he]
        by_cases hcase : e = 69 ∨ e = 101 <;> simp [afterDot, hcase]
    · by_cases hb' : b = 94
      · subst hb'
        rw [hcaret]
        simp [afterDot]
      · rw [hother s hb']
        simp [afterDot, hb]
  · simp [afterDot, ha, hpercent]

theorem replaceCaret_eq_nil_iff {s : JSString} : replaceCaret s = [] ↔ s = [] := by
  cases s with
  | nil => simp [replaceCaret]
  | cons c s =>
    simp only [replaceCaret, List.flatMap_cons, List.append_eq_nil_iff, reduceCtorEq, iff_false]
    rintro ⟨h, -⟩
    split_ifs at h
    cases h

theorem some_replaceCaret_beq (s : JSString) :
    (some (replaceCaret s) == some []) = (some s == some []) := by
  rw [Bool.eq_iff_iff, beq_iff_eq, beq_iff_eq, Option.some.injEq, Option.some.injEq]
  exact replaceCaret_eq_nil_iff

theorem isSingleDot_replaceCaret (s : JSString) : isSingleDot (replaceCaret s) = isSingleDot s := by
  rw [isSingleDot, isSingleDot, afterDot_replaceCaret]
  rcases afterDot s with _ | rest
  · rfl
  · exact some_replaceCaret_beq rest

theorem isDoubleDot_replaceCaret (s : JSString) : isDoubleDot (replaceCaret s) = isDoubleDot s := by
  rw [isDoubleDot, isDoubleDot, afterDot_replaceCaret]
  rcases afterDot s with _ | rest
  · rfl
  · rw [Option.map_some, Option.bind_some, Option.bind_some, afterDot_replaceCaret]
    rcases afterDot rest with _ | last
    · rfl
    · exact some_replaceCaret_beq last

theorem endSegment_replaceCaret (path : List JSString) (buffer : JSString) (slash : Bool) :
    endSegment (path.map replaceCaret) (replaceCaret buffer) slash =
      (endSegment path buffer slash).map replaceCaret := by
  unfold endSegment
  rw [isDoubleDot_replaceCaret, isSingleDot_replaceCaret]
  split_ifs <;> simp [List.map_dropLast, replaceCaret]

theorem encodeChar_replaceCaret {c : ℕ} (hc : IsScalar c) :
    replaceCaret (encodeChar (pathSet caret) c) = encodeChar (pathSet true) c := by
  have hescapes : ∀ {d}, EscapeChar d → 94 ≠ d := by
    rintro d hd rfl
    unfold EscapeChar at hd
    omega
  by_cases hcaret : c = 94
  · subst hcaret
    cases caret <;> decide
  · have hset : pathSet caret c = pathSet true c := by
      have hne : (c == 94) = false := by simpa using hcaret
      simp [pathSet, hne]
    rw [replaceCaret_of_not_mem, encodeChar, encodeChar, hset]
    intro hmem
    rcases mem_encodeChar hc hmem with ⟨rfl, -⟩ | hescape
    · exact hcaret rfl
    · exact hescapes hescape rfl

theorem pathState_replaceCaret {text : List ℕ} (htext : ∀ c ∈ text, IsScalar c)
    (path : List JSString) (buffer : JSString) :
    pathState (pathSet true) stops (path.map replaceCaret) (replaceCaret buffer) text =
      ((pathState (pathSet caret) stops path buffer text).1.map replaceCaret,
        (pathState (pathSet caret) stops path buffer text).2) := by
  induction text generalizing path buffer with
  | nil => rw [pathState, pathState, endSegment_replaceCaret]
  | cons c text ih =>
    obtain ⟨hc, htext⟩ := List.forall_mem_cons.mp htext
    rw [pathState, pathState]
    split_ifs with hslash hstop
    · rw [endSegment_replaceCaret]
      exact ih htext _ []
    · rw [endSegment_replaceCaret]
    · rw [← encodeChar_replaceCaret hc, ← replaceCaret_append]
      exact ih htext path _

theorem pathStart_replaceCaret {text : List ℕ} (htext : ∀ c ∈ text, IsScalar c) :
    pathStart (pathSet true) stops text =
      ((pathStart (pathSet caret) stops text).1.map replaceCaret,
        (pathStart (pathSet caret) stops text).2) := by
  cases text with
  | nil =>
    rw [pathStart, pathStart]
    exact pathState_replaceCaret htext [] []
  | cons c text =>
    rw [pathStart, pathStart]
    split_ifs
    · exact pathState_replaceCaret (List.forall_mem_cons.mp htext).2 [] []
    · exact pathState_replaceCaret htext [] []

theorem pathText_replaceCaret (path : List JSString) :
    pathText (path.map replaceCaret) = replaceCaret (pathText path) := by
  induction path with
  | nil => rfl
  | cons segment path ih =>
    simp only [pathText, List.map_cons, List.flatMap_cons] at ih ⊢
    rw [replaceCaret_append, ← ih]
    rfl

theorem delimited_pathSet : Delimited (pathSet caret) := by
  cases caret <;> exact ⟨by decide, by decide⟩

theorem forall_escapeChar {P : ℕ → Prop} (h : ∀ c < 91, EscapeChar c → P c) :
    ∀ c, EscapeChar c → P c := by
  intro c hc
  refine h c ?_ hc
  unfold EscapeChar at hc
  omega

instance (c : ℕ) : Decidable (EscapeChar c) := inferInstanceAs (Decidable (_ ∨ _))

theorem keepsEscapes_pathSet : KeepsEscapes (pathSet caret) := by
  cases caret <;> exact forall_escapeChar (by decide +kernel)

theorem keepsEscapes_specialQuerySet : KeepsEscapes specialQuerySet :=
  forall_escapeChar (by decide +kernel)

theorem keepsEscapes_fragmentSet : KeepsEscapes fragmentSet :=
  forall_escapeChar (by decide +kernel)

end Nifra.Url
