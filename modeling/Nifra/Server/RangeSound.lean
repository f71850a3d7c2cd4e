import Nifra.Server.RangeSets

/-! # The answers to a range header

The scan of a single range answers as the general path does. A satisfiable answer holds the selected
bytes in ranges that are in order and apart, and the other two answers tell whether a specifier was
valid.
-/

namespace Nifra.Range

open Postgres (isSpace)

structure Coalesced (seen merged : List ByteRange) : Prop where
  proper : ∀ m ∈ merged, m.start ≤ m.stop
  apart : merged.Pairwise fun a b => a.stop + 1 < b.start
  starts : ∀ m ∈ merged, ∃ r ∈ seen, r.start = m.start
  bytes : ∀ x, (∃ m ∈ merged, x ∈ m.bytes) ↔ ∃ r ∈ seen, x ∈ r.bytes

theorem coalesced_nil : Coalesced [] [] := ⟨nofun, .nil, nofun, fun _ => Iff.rfl⟩

theorem mergeInto_append (front : List ByteRange) (previous range : ByteRange) :
    mergeInto (front ++ [previous]) range =
      if range.start ≤ previous.stop + 1 then
        front ++ [⟨previous.start, max previous.stop range.stop⟩]
      else front ++ [previous] ++ [range] := by
  rw [mergeInto, List.getLast?_concat]
  simp only [List.dropLast_concat]

theorem Coalesced.mergeInto {seen merged : List ByteRange} (h : Coalesced seen merged)
    {range : ByteRange} (hrange : range.start ≤ range.stop)
    (hsorted : ∀ r ∈ seen, r.start ≤ range.start) :
    Coalesced (seen ++ [range]) (Range.mergeInto merged range) := by
  have hseen (x : ℕ) : (∃ r ∈ seen ++ [range], x ∈ r.bytes) ↔
      (∃ m ∈ merged, x ∈ m.bytes) ∨ x ∈ range.bytes := by
    rw [h.bytes]
    simp only [List.mem_append, List.mem_singleton, or_and_right, exists_or, exists_eq_left]
  have hstarts {m : ByteRange} (hm : m ∈ merged) : ∃ r ∈ seen ++ [range], r.start = m.start := by
    obtain ⟨r, hr, heq⟩ := h.starts m hm
    exact ⟨r, List.mem_append_left _ hr, heq⟩
  rcases List.eq_nil_or_concat merged with rfl | ⟨front, previous, rfl⟩
  · refine ⟨?_, ?_, ?_, fun x => ?_⟩
    · rintro m (_ | ⟨_, ⟨⟩⟩)
      exact hrange
    · exact List.pairwise_singleton _ _
    · rintro m (_ | ⟨_, ⟨⟩⟩)
      exact ⟨range, List.mem_append_right _ List.mem_cons_self, rfl⟩
    · rw [hseen]
      simp [Range.mergeInto]
  · rw [List.concat_eq_append] at *
    have hproper := h.proper previous (List.mem_append_right _ List.mem_cons_self)
    obtain ⟨r, hr, hstart⟩ := h.starts previous (List.mem_append_right _ List.mem_cons_self)
    have hle : previous.start ≤ range.start := hstart ▸ hsorted r hr
    obtain ⟨hfront, -, hlast⟩ := List.pairwise_append.mp h.apart
    have hlast (a : ByteRange) (ha : a ∈ front) := hlast a ha previous List.mem_cons_self
    rw [mergeInto_append]
    split_ifs with hjoin
    · refine ⟨?_, ?_, ?_, fun x => ?_⟩
      · intro m hm
        rcases List.mem_append.mp hm with hm | hm
        · exact h.proper m (List.mem_append_left _ hm)
        · obtain rfl := List.mem_singleton.mp hm
          exact hproper.trans (le_max_left _ _)
      · refine List.pairwise_append.mpr ⟨hfront, List.pairwise_singleton _ _, fun a ha b hb => ?_⟩
        obtain rfl := List.mem_singleton.mp hb
        exact hlast a ha
      · intro m hm
        rcases List.mem_append.mp hm with hm | hm
        · exact hstarts (List.mem_append_left _ hm)
        · obtain rfl := List.mem_singleton.mp hm
          exact hstarts (m := previous) (List.mem_append_right _ List.mem_cons_self)
      · rw [hseen]
        simp only [List.mem_append, List.mem_singleton, or_and_right, exists_or, exists_eq_left,
          or_assoc, ByteRange.mem_bytes]
        refine or_congr Iff.rfl ?_
        omega
    · refine ⟨?_, ?_, ?_, fun x => ?_⟩
      · intro m hm
        rcases List.mem_append.mp hm with hm | hm
        · exact h.proper m hm
        · obtain rfl := List.mem_singleton.mp hm
          exact hrange
      · refine List.pairwise_append.mpr ⟨h.apart, List.pairwise_singleton _ _, fun a ha b hb => ?_⟩
        obtain rfl := List.mem_singleton.mp hb
        rcases List.mem_append.mp ha with ha | ha
        · have := hlast a ha
          omega
        · obtain rfl := List.mem_singleton.mp ha
          omega
      · intro m hm
        rcases List.mem_append.mp hm with hm | hm
        · exact hstarts hm
        · obtain rfl := List.mem_singleton.mp hm
          exact ⟨m, List.mem_append_right _ List.mem_cons_self, rfl⟩
      · rw [hseen]
        simp only [List.mem_append, List.mem_singleton, or_and_right, exists_or, exists_eq_left]

theorem Coalesced.foldl {seen merged ranges : List ByteRange} (h : Coalesced seen merged)
    (hproper : ∀ r ∈ ranges, r.start ≤ r.stop)
    (hsorted : (seen ++ ranges).Pairwise fun a b => a.start ≤ b.start) :
    Coalesced (seen ++ ranges) (ranges.foldl Range.mergeInto merged) := by
  induction ranges generalizing seen merged with
  | nil => rwa [List.append_nil]
  | cons range ranges ih =>
    have hstep := h.mergeInto (hproper range List.mem_cons_self) fun r hr =>
      (List.pairwise_append.mp hsorted).2.2 r hr range List.mem_cons_self
    have happend : seen ++ range :: ranges = seen ++ [range] ++ ranges := by simp
    rw [happend] at hsorted ⊢
    exact ih hstep (fun r hr => hproper r (List.mem_cons_of_mem _ hr)) hsorted

theorem coalesced_sorted {ranges : List ByteRange} (hproper : ∀ r ∈ ranges, r.start ≤ r.stop) :
    Coalesced (ranges.mergeSort before) ((ranges.mergeSort before).foldl mergeInto []) := by
  have hsorted : (ranges.mergeSort before).Pairwise fun a b => before a b = true := by
    refine List.pairwise_mergeSort (fun a b c => ?_) (fun a b => ?_) ranges
    · simp only [before, decide_eq_true_eq]
      omega
    · simp only [before, Bool.or_eq_true, decide_eq_true_eq]
      omega
  refine coalesced_nil.foldl (fun r hr => hproper r (List.mem_mergeSort.mp hr)) ?_
  rw [List.nil_append]
  refine hsorted.imp fun {a b} h => ?_
  rw [before, decide_eq_true_eq] at h
  omega

/-- `bytes` in letters of either case, an equals sign and a list of specifiers, blanks around the
sign. The list begins with no blank, and holds no line terminator. -/
def IsHeader (value source : JSString) : Prop :=
  ∃ unit a b,
    List.Forall₂ (fun letter code => code = letter ∨ code + 32 = letter) (js "bytes") unit ∧
    IsBlank a ∧ IsBlank b ∧ value = unit ++ (a ++ 61 :: (b ++ source)) ∧
    (∃ c, source.head? = some c ∧ isSpace c = false) ∧ ∀ c ∈ source, isLineTerminator c = false

def specifiers (value : JSString) : Set Specifier :=
  {s | ∃ source, IsHeader value source ∧ ∃ raw ∈ source.splitOn 44, s.Spelled raw}

def selected (value : JSString) (size : ℕ) : Set ℕ :=
  {x | ∃ s ∈ specifiers value, x ∈ s.bytes size}

def WithinLimit (value : JSString) : Prop :=
  ∀ source, IsHeader value source → (source.splitOn 44).length ≤ 16

theorem dropWhile_blank_append {a : JSString} (ha : IsBlank a) {c : ℕ} (hc : isSpace c = false)
    (rest : JSString) : (a ++ c :: rest).dropWhile isSpace = c :: rest := by
  rw [List.dropWhile_append_of_pos ha, List.dropWhile_cons_of_neg (by simp [hc])]

theorem rangeSource_eq_some_iff {value source : JSString} :
    rangeSource value = some source ↔ IsHeader value source := by
  have hletter (letter code : ℕ) :
      matchesLetter letter code = true ↔ code = letter ∨ code + 32 = letter := by
    simp [matchesLetter]
  simp only [rangeSource, hletter]
  constructor
  · intro h
    split_ifs at h with hunit
    have hblank := List.takeWhile_append_dropWhile (p := isSpace) (l := value.drop 5)
    split at h
    · rename_i rest heq
      rw [heq] at hblank
      split_ifs at h with hbad
      obtain ⟨hne, hlines⟩ := not_or.mp hbad
      obtain rfl := Option.some.inj h
      obtain ⟨c, source, hsource⟩ := List.exists_cons_of_ne_nil hne
      have hc := List.head?_dropWhile_not isSpace rest
      rw [hsource] at hc
      refine ⟨value.take 5, (value.drop 5).takeWhile isSpace, rest.takeWhile isSpace, hunit,
        isBlank_takeWhile _, isBlank_takeWhile _, ?_, ⟨c, by rw [hsource]; rfl, hc⟩, ?_⟩
      · rw [List.takeWhile_append_dropWhile, hblank, List.take_append_drop]
      · simpa using hlines
    · cases h
  · rintro ⟨unit, a, b, hunit, ha, hb, rfl, ⟨c, hhead, hc⟩, hlines⟩
    have hlength : unit.length = 5 := hunit.length_eq.symm
    cases source with
    | nil => cases hhead
    | cons d source =>
      obtain rfl := Option.some.inj hhead
      rw [List.take_left' hlength, List.drop_left' hlength, if_pos hunit,
        dropWhile_blank_append ha (by decide)]
      simp only [dropWhile_blank_append hb hc]
      rw [if_neg]
      rintro (hnil | hlines')
      · cases hnil
      · obtain ⟨e, he, hline⟩ := List.any_eq_true.mp hlines'
        rw [hlines e he] at hline
        cases hline

theorem IsHeader.unique {value source source' : JSString} (h : IsHeader value source)
    (h' : IsHeader value source') : source = source' := by
  rw [← rangeSource_eq_some_iff] at h h'
  rw [h] at h'
  exact Option.some.inj h'

theorem mem_filterMap_specifierOf {source left right : JSString} :
    (left, right) ∈ (source.splitOn 44).filterMap specifierOf ↔
      ∃ s : Specifier, (∃ raw ∈ source.splitOn 44, s.Spelled raw) ∧ s.texts = (left, right) := by
  simp only [List.mem_filterMap, specifierOf_eq_some_iff]
  constructor
  · rintro ⟨raw, hraw, s, hs, htexts⟩
    exact ⟨s, ⟨raw, hraw, hs⟩, htexts⟩
  · rintro ⟨s, ⟨raw, hraw, hs⟩, htexts⟩
    exact ⟨raw, hraw, s, hs, htexts⟩

structure Answers (value : JSString) (size : ℕ) (result : ByteRangeResult) : Prop where
  satisfiable : ∀ ranges, result = .satisfiable ranges →
    (∀ r ∈ ranges, r.start ≤ r.stop ∧ r.stop < size) ∧
      (ranges.Pairwise fun a b => a.stop + 1 < b.start) ∧
      ∀ x, (∃ r ∈ ranges, x ∈ r.bytes) ↔ x ∈ selected value size
  unsatisfiable : result = .unsatisfiable ↔
    (specifiers value).Nonempty ∧ selected value size = ∅
  none : result = .none ↔ specifiers value = ∅

theorem mem_specifiers_iff {value source : JSString} (h : IsHeader value source) {s : Specifier} :
    s ∈ specifiers value ↔ ∃ raw ∈ source.splitOn 44, s.Spelled raw := by
  constructor
  · rintro ⟨source', h', hs⟩
    rwa [h.unique h']
  · intro hs
    exact ⟨source, h, hs⟩

section
variable {value : JSString} {size : ℕ} (hsize : isSafeInteger size = true)

theorem Answers.of_not_header (h : ∀ source, ¬ IsHeader value source) :
    Answers value size .none := by
  have hnone : specifiers value = ∅ := by
    ext s
    constructor
    · rintro ⟨source, hsource, -⟩
      exact h source hsource
    · exact False.elim
  refine ⟨nofun, iff_of_false nofun ?_, iff_of_true rfl hnone⟩
  rw [hnone]
  exact fun h => Set.not_nonempty_empty h.1

include hsize

theorem answers_ranges {valid : List (JSString × JSString)}
    (hvalid : ∀ left right, (left, right) ∈ valid ↔
      ∃ s ∈ specifiers value, s.texts = (left, right))
    {ranges : List ByteRange}
    (hranges : ranges = valid.filterMap fun (left, right) => rangeOf size left right) :
    Answers value size (if ranges = [] then if valid = [] then .none else .unsatisfiable
      else .satisfiable ((ranges.mergeSort before).foldl mergeInto [])) := by
  have hempty : valid = [] ↔ specifiers value = ∅ := by
    rw [List.eq_nil_iff_forall_not_mem, Set.eq_empty_iff_forall_notMem]
    constructor
    · intro h s hs
      exact h s.texts ((hvalid _ _).mpr ⟨s, hs, rfl⟩)
    · rintro h ⟨left, right⟩ hmem
      obtain ⟨s, hs, -⟩ := (hvalid left right).mp hmem
      exact h s hs
  have hmem (r : ByteRange) :
      r ∈ ranges ↔ ∃ s ∈ specifiers value, r ∈ rangeOf size s.texts.1 s.texts.2 := by
    rw [hranges, List.mem_filterMap]
    constructor
    · rintro ⟨⟨left, right⟩, htexts, hr⟩
      obtain ⟨s, hs, heq⟩ := (hvalid left right).mp htexts
      exact ⟨s, hs, by rw [heq]; exact hr⟩
    · rintro ⟨s, hs, hr⟩
      exact ⟨s.texts, (hvalid _ _).mpr ⟨s, hs, rfl⟩, hr⟩
  have hproper (r : ByteRange) (hr : r ∈ ranges) : r.start ≤ r.stop ∧ r.stop < size := by
    obtain ⟨s, -, hr⟩ := (hmem r).mp hr
    exact rangeOf_bounds hsize hr
  have hselected (x : ℕ) : (∃ r ∈ ranges, x ∈ r.bytes) ↔ x ∈ selected value size := by
    constructor
    · rintro ⟨r, hr, hx⟩
      obtain ⟨s, hs, hr⟩ := (hmem r).mp hr
      exact ⟨s, hs, (mem_bytes_iff hsize s x).mpr ⟨r, hr, hx⟩⟩
    · rintro ⟨s, hs, hx⟩
      obtain ⟨r, hr, hx⟩ := (mem_bytes_iff hsize s x).mp hx
      exact ⟨r, (hmem r).mpr ⟨s, hs, hr⟩, hx⟩
  have hnothing : ranges = [] ↔ selected value size = ∅ := by
    rw [List.eq_nil_iff_forall_not_mem, Set.eq_empty_iff_forall_notMem]
    constructor
    · intro h x hx
      obtain ⟨r, hr, -⟩ := (hselected x).mpr hx
      exact h r hr
    · intro h r hr
      exact h r.start ((hselected _).mp ⟨r, hr, le_rfl, (hproper r hr).1⟩)
  split_ifs with hranges' hvalid'
  · have hspecifiers := hempty.mp hvalid'
    refine ⟨nofun, iff_of_false nofun fun h => ?_, iff_of_true rfl hspecifiers⟩
    rw [hspecifiers] at h
    exact Set.not_nonempty_empty h.1
  · have hspecifiers := mt hempty.mpr hvalid'
    exact ⟨nofun, iff_of_true rfl ⟨Set.nonempty_iff_ne_empty.mpr hspecifiers, hnothing.mp hranges'⟩,
      iff_of_false nofun hspecifiers⟩
  · have hcoalesced := coalesced_sorted fun r hr => (hproper r hr).1
    have hbytes (x : ℕ) := (hcoalesced.bytes x).trans ((by simp only [List.mem_mergeSort]) :
      (∃ r ∈ ranges.mergeSort before, x ∈ r.bytes) ↔ ∃ r ∈ ranges, x ∈ r.bytes)
    refine ⟨?_, iff_of_false nofun fun h => hranges' (hnothing.mpr h.2),
      iff_of_false nofun fun h => hranges' ?_⟩
    · rintro merged ⟨⟩
      refine ⟨fun m hm => ⟨hcoalesced.proper m hm, ?_⟩, hcoalesced.apart, fun x =>
        (hbytes x).trans (hselected x)⟩
      obtain ⟨r, hr, hstop⟩ := (hbytes m.stop).mp ⟨m, hm, hcoalesced.proper m hm, le_rfl⟩
      exact hstop.2.trans_lt (hproper r hr).2
    · rw [hnothing, Set.eq_empty_iff_forall_notMem]
      rintro x ⟨s, hs, -⟩
      rw [h] at hs
      exact hs

theorem answers_parseRanges (hlimit : WithinLimit value) :
    Answers value size (parseRanges value size) := by
  rw [parseRanges]
  rcases hsource : rangeSource value with _ | source
  · refine .of_not_header fun source h => ?_
    rw [← rangeSource_eq_some_iff, hsource] at h
    cases h
  · have hheader := rangeSource_eq_some_iff.mp hsource
    have hcount := hlimit source hheader
    rw [List.length_splitOn] at hcount
    simp only
    rw [if_neg (show ¬ maxRangeSpecifiers ≤ source.count 44 from not_le.mpr hcount)]
    refine answers_ranges hsize (fun left right => ?_) rfl
    rw [mem_filterMap_specifierOf]
    simp only [mem_specifiers_iff hheader]

omit hsize in
theorem parseRanges_of_not_withinLimit (hlimit : ¬ WithinLimit value) :
    parseRanges value size = .none := by
  simp only [WithinLimit, not_forall, not_le] at hlimit
  obtain ⟨source, hheader, hcount⟩ := hlimit
  rw [List.length_splitOn] at hcount
  rw [parseRanges, rangeSource_eq_some_iff.mpr hheader]
  simp only
  rw [if_pos (show maxRangeSpecifiers ≤ source.count 44 from Nat.le_of_lt_succ hcount)]

end

theorem findDash_some {digits : JSString} {index dash found : ℕ}
    (h : findDash digits index (some dash) = some found) :
    found = dash ∧ ∀ c ∈ digits, 48 ≤ c ∧ c < 58 := by
  induction digits generalizing index with
  | nil => exact ⟨(Option.some.inj h).symm, nofun⟩
  | cons c digits ih =>
    rw [findDash, if_pos (show (some dash).isSome = true from rfl)] at h
    split_ifs at h with hdash hdigit
    · obtain ⟨hfound, hdigits⟩ := ih h
      refine ⟨hfound, fun d hd => ?_⟩
      rcases List.mem_cons.mp hd with rfl | hd
      · omega
      · exact hdigits d hd

theorem findDash_none {digits : JSString} {index found : ℕ}
    (h : findDash digits index none = some found) : ∃ left right, digits = left ++ 45 :: right ∧
      found = index + left.length ∧ (∀ c ∈ left, 48 ≤ c ∧ c < 58) ∧
      ∀ c ∈ right, 48 ≤ c ∧ c < 58 := by
  induction digits generalizing index with
  | nil => cases h
  | cons c digits ih =>
    rw [findDash] at h
    split_ifs at h with hdash hsome hdigit
    · obtain ⟨rfl, hdigits⟩ := findDash_some h
      exact ⟨[], digits, by rw [hdash, List.nil_append], rfl, nofun, hdigits⟩
    · obtain ⟨left, right, rfl, rfl, hleft, hright⟩ := ih h
      refine ⟨c :: left, right, rfl, by rw [List.length_cons]; omega, fun d hd => ?_, hright⟩
      rcases List.mem_cons.mp hd with rfl | hd
      · omega
      · exact hleft d hd

theorem isInteger_digits {digits : JSString} (hdigits : ∀ c ∈ digits, 48 ≤ c ∧ c < 58) :
    isInteger digits = true ↔ digits ≠ [] ∧ ¬ (1 < digits.length ∧ digits.head? = some 48) := by
  rcases digits with _ | ⟨c, digits⟩
  · simp [isInteger]
  · have hc := hdigits c List.mem_cons_self
    have hrest : digits.all JSON.isDigit = true := by
      rw [List.all_eq_true]
      exact fun d hd => decide_eq_true (hdigits d (List.mem_cons_of_mem c hd))
    by_cases hzero : c = 48
    · subst hzero
      cases digits <;> simp [isInteger]
    · unfold isInteger
      split
      · rename_i heq
        cases heq
      · rename_i heq
        cases heq
        exact absurd rfl hzero
      · rename_i heq
        cases heq
        rw [hrest]
        simp [hzero]
        omega

theorem specifierOf_digits {left right : JSString} (hleft : ∀ c ∈ left, 48 ≤ c ∧ c < 58)
    (hright : ∀ c ∈ right, 48 ≤ c ∧ c < 58) :
    specifierOf (left ++ 45 :: right) =
      if 1 < left.length ∧ left.head? = some 48 ∨ 1 < right.length ∧ right.head? = some 48 then none
      else if left = [] ∧ (right = [] ∨ right = [48]) then none
      else some (left, right) := by
  have hdash : 45 ∉ left := fun h => by
    have := hleft 45 h
    omega
  have hspace {digits : JSString} (h : ∀ c ∈ digits, 48 ≤ c ∧ c < 58) : trim digits = digits :=
    trim_eq_self fun c hc => isSpace_of_digit (h c hc)
  have hinteger {digits : JSString} (h : ∀ c ∈ digits, 48 ≤ c ∧ c < 58) :
      isInteger digits = false ↔ digits = [] ∨ 1 < digits.length ∧ digits.head? = some 48 := by
    rw [← Bool.not_eq_true, isInteger_digits h, not_and_or, not_not, not_not]
  rw [specifierOf_append hdash, hspace hleft, hspace hright]
  simp only [hinteger hleft, hinteger hright]
  have hempty (digits : JSString) :
      digits = [] → ¬ (1 < digits.length ∧ digits.head? = some 48) := by
    rintro rfl ⟨hlength, -⟩
    exact absurd hlength (by decide)
  have hleft' := hempty left
  have hright' := hempty right
  split_ifs <;> first | rfl | (exfalso; tauto)

theorem parseRanges_of_single {value : JSString} {size : ℕ} {single : ByteRangeResult}
    (h : parseSingleRange value size = some single) : parseRanges value size = single := by
  rw [parseSingleRange] at h
  split_ifs at h with hform
  simp only [not_or, not_lt, not_not, Bool.not_eq_false] at hform
  obtain ⟨hlength, hequals, hunit⟩ := hform
  obtain ⟨dash, hdash, rfl⟩ := Option.map_eq_some_iff.mp h
  obtain ⟨left, right, hdigits, rfl, hleft, hright⟩ := findDash_none hdash
  have hvalue : value = value.take 5 ++ ([] ++ 61 :: ([] ++ (left ++ 45 :: right))) := by
    rw [← hdigits, List.nil_append, List.nil_append]
    obtain ⟨hlt, hget⟩ := List.getElem?_eq_some_iff.mp hequals
    rw [← hget, List.getElem_cons_drop, List.take_append_drop]
  have htake : (value.drop 6).take (0 + left.length) = left := by
    rw [hdigits, Nat.zero_add, List.take_left]
  have hdrop : (value.drop 6).drop (0 + left.length + 1) = right := by
    rw [hdigits, Nat.zero_add, List.drop_length_add_append]
    rfl
  have hclean : ∀ c ∈ left ++ 45 :: right, 45 ≤ c ∧ c < 58 := by
    intro c hc
    rcases List.mem_append.mp hc with hc | hc
    · have := hleft c hc
      omega
    · rcases List.mem_cons.mp hc with rfl | hc
      · omega
      · have := hright c hc
        omega
  have hheader : IsHeader value (left ++ 45 :: right) := by
    refine ⟨value.take 5, [], [], ?_, isBlank_nil, isBlank_nil, hvalue, ?_, fun c hc => ?_⟩
    · rw [foldsTo, beq_iff_eq] at hunit
      rw [← hunit, List.forall₂_map_left_iff, List.forall₂_same]
      intro code hcode
      have hletter : code ||| 32 ∈ js "bytes" := by
        rw [← hunit]
        exact List.mem_map_of_mem hcode
      have hletters : ∀ letter ∈ js "bytes", 97 ≤ letter ∧ letter ≤ 122 := by decide
      exact (or_32_eq_iff (hletters _ hletter)).mp rfl
    · obtain ⟨c, rest, heq⟩ := List.exists_cons_of_ne_nil (show left ++ 45 :: right ≠ [] by simp)
      refine ⟨c, by rw [heq]; rfl, ?_⟩
      have hc := hclean c (heq ▸ List.mem_cons_self)
      rw [isSpace, decide_eq_false_iff_not]
      omega
    · have := hclean c hc
      rw [isLineTerminator, decide_eq_false_iff_not]
      omega
  have hcomma : 44 ∉ left ++ 45 :: right := fun hc => by
    have := hclean 44 hc
    omega
  rw [parseRanges, rangeSource_eq_some_iff.mpr hheader]
  simp only [List.count_eq_zero_of_not_mem hcomma, List.splitOn_eq_singleton hcomma,
    List.filterMap_cons, List.filterMap_nil, specifierOf_digits hleft hright, htake, hdrop]
  rw [if_neg (by decide)]
  by_cases hzero :
    1 < left.length ∧ left.head? = some 48 ∨ 1 < right.length ∧ right.head? = some 48
  · simp only [if_pos hzero, List.filterMap_nil, if_true]
  · by_cases hsuffix : left = [] ∧ (right = [] ∨ right = [48])
    · simp only [if_neg hzero, if_pos hsuffix, List.filterMap_nil, if_true]
    · simp only [if_neg hzero, if_neg hsuffix, List.filterMap_cons, List.filterMap_nil]
      rcases rangeOf size left right with _ | range
      · rfl
      · simp only [if_neg (List.cons_ne_nil _ _), List.mergeSort_singleton]
        rfl

/-- The scan and the general path agree, and the answer is exact for up to 16 specifiers. -/
theorem parseByteRange_exact (value : JSString) (size : ℕ) (hsize : isSafeInteger size = true)
    (hlength : value.length ≤ 16384) :
    (∀ single, parseSingleRange value size = some single → parseRanges value size = single) ∧
      ∃ result, parseByteRange (some value) size = .ok result ∧
        (WithinLimit value → Answers value size result) ∧
        (¬ WithinLimit value → result = .none) := by
  refine ⟨fun single h => parseRanges_of_single h, parseRanges value size, ?_,
    answers_parseRanges hsize, parseRanges_of_not_withinLimit⟩
  have hwithin : ¬ maxRangeHeaderLength < value.length := not_lt.mpr hlength
  rw [parseByteRange, if_neg (by rw [hsize]; decide)]
  simp only [if_neg hwithin]
  split
  · rename_i single hsingle
    rw [parseRanges_of_single hsingle]
  · rfl

theorem parseByteRange_exact_seek :
    parseByteRange (some (js "bytes=500-")) 700 = .ok (.satisfiable [⟨500, 699⟩]) ∧
      (WithinLimit (js "bytes=500-") →
        Answers (js "bytes=500-") 700 (.satisfiable [⟨500, 699⟩])) := by
  obtain ⟨-, result, hresult, hwithin, -⟩ :=
    parseByteRange_exact (js "bytes=500-") 700 (by decide) (by decide)
  have heval : parseByteRange (some (js "bytes=500-")) 700 = .ok (.satisfiable [⟨500, 699⟩]) := by
    decide +kernel
  rw [heval] at hresult
  cases hresult
  exact ⟨heval, hwithin⟩

/-- Of more than 16 specifiers, valid as they are, none is read. -/
theorem parseByteRange_seventeen : ¬ ∀ (value : JSString) (size : ℕ), isSafeInteger size = true →
    value.length ≤ 16384 → ∀ result, parseByteRange (some value) size = .ok result →
      Answers value size result := by
  intro h
  have hheader : IsHeader (js "bytes=0-,,,,,,,,,,,,,,,,") (js "0-,,,,,,,,,,,,,,,,") :=
    ⟨js "bytes", [], [], by decide, isBlank_nil, isBlank_nil, by decide, ⟨48, by decide, by decide⟩,
      by decide⟩
  have hspecifier : Specifier.onward 0 ∈ specifiers (js "bytes=0-,,,,,,,,,,,,,,,,") :=
    ⟨_, hheader, js "0-", by decide, nofun, [], [], [], [], isBlank_nil, isBlank_nil, isBlank_nil,
      isBlank_nil, by decide⟩
  have hnone := (h (js "bytes=0-,,,,,,,,,,,,,,,,") 10 (by decide) (by decide) .none
    (by decide +kernel)).none.mp rfl
  rw [hnone] at hspecifier
  exact hspecifier

end Nifra.Range
