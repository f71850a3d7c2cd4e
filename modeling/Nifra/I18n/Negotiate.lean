import Nifra.Lib.InsertionMap
import Nifra.Lib.Slices
import Nifra.Lib.StableSort
import Nifra.Router.Pattern
import Nifra.Text.Fields

/-! # The locale of an `Accept-Language` header

One pass over the ranges of the header, with two maps over the locales, against the search that
sorts the ranges by quality and looks through the locales for each.
-/

namespace Nifra.I18n

open Postgres (isSpace)

/-! ## Numbers

A finite double is the multiple of `2 ^ (-1074)` that it is; `NaN` and the infinities are `none`.
-/

/-- The integer nearest to `a / b`, the even one of two. -/
def roundHalfEven (a b : ℕ) : ℕ :=
  if 2 * (a % b) < b ∨ 2 * (a % b) = b ∧ a / b % 2 = 0 then a / b else a / b + 1

/-- The double nearest to `a / b`. -/
def nearest (a b : ℕ) : Option ℕ :=
  let a := a * 2 ^ 1074
  let unit := 2 ^ (Nat.log2 (a / b) - 52)
  let n := roundHalfEven a (b * unit) * unit
  if n < 2 ^ (1024 + 1074) then some n else none

def one : ℤ := 2 ^ 1074

def isDigit (c : ℕ) : Bool := decide (48 ≤ c ∧ c ≤ 57)

def signOf : JSString → ℤ × JSString
  | [] => (1, [])
  | c :: text => if c = 45 then (-1, text) else if c = 43 then (1, text) else (1, c :: text)

def numberOf (digits : JSString) : ℕ := Nat.ofDigits 10 (digits.map (· - 48)).reverse

def fractionOf : JSString → JSString
  | [] => []
  | c :: text => if c = 46 then text.takeWhile isDigit else []

def afterFraction : JSString → JSString
  | [] => []
  | c :: text => if c = 46 then text.dropWhile isDigit else c :: text

def exponentOf : JSString → ℤ
  | [] => 0
  | c :: text =>
    if c = 101 ∨ c = 69 then
      (signOf text).1 * numberOf ((signOf text).2.takeWhile isDigit)
    else 0

/-- `Number.parseFloat`: the longest numeral at the front of the text, without its blanks. -/
def parseFloat (text : JSString) : Option ℤ :=
  let (sign, text) := signOf (text.dropWhile isSpace)
  let whole := text.takeWhile isDigit
  let fraction := fractionOf (text.dropWhile isDigit)
  let exponent := exponentOf (afterFraction (text.dropWhile isDigit)) - fraction.length
  let value := numberOf (whole ++ fraction)
  if whole ++ fraction = [] then none
  else (nearest (value * 10 ^ exponent.toNat) (10 ^ (-exponent).toNat)).map (sign * ·)

section Ended

variable {text rest : JSString}

/-! A semicolon ends every part of a numeral. -/

theorem takeWhile_ended {p : ℕ → Bool} (hp : p 59 = false) (text rest : JSString) :
    (text ++ 59 :: rest).takeWhile p = text.takeWhile p := by
  induction text with
  | nil => simp [hp]
  | cons c text ih => simp only [List.cons_append, List.takeWhile_cons, ih]

theorem dropWhile_ended {p : ℕ → Bool} (hp : p 59 = false) (text rest : JSString) :
    (text ++ 59 :: rest).dropWhile p = text.dropWhile p ++ 59 :: rest := by
  induction text with
  | nil => simp [hp]
  | cons c text ih =>
    simp only [List.cons_append, List.dropWhile_cons]
    split_ifs
    · exact ih
    · rfl

theorem signOf_ended (text rest : JSString) :
    signOf (text ++ 59 :: rest) = ((signOf text).1, (signOf text).2 ++ 59 :: rest) := by
  cases text with
  | nil => rfl
  | cons c text =>
    simp only [List.cons_append, signOf]
    split_ifs <;> rfl

theorem fractionOf_ended (text rest : JSString) :
    fractionOf (text ++ 59 :: rest) = fractionOf text := by
  cases text with
  | nil => rfl
  | cons c text => simp only [List.cons_append, fractionOf, takeWhile_ended (p := isDigit) rfl]

theorem exponentOf_ended (text rest : JSString) :
    exponentOf (afterFraction (text ++ 59 :: rest)) = exponentOf (afterFraction text) := by
  have hexponent (text : JSString) : exponentOf (text ++ 59 :: rest) = exponentOf text := by
    cases text with
    | nil => rfl
    | cons c text =>
      simp only [List.cons_append, exponentOf, signOf_ended, takeWhile_ended (p := isDigit) rfl]
  cases text with
  | nil => rfl
  | cons c text =>
    simp only [List.cons_append, afterFraction]
    split_ifs
    · rw [dropWhile_ended (p := isDigit) rfl, hexponent]
    · rw [← List.cons_append, hexponent]

theorem parseFloat_ended (text rest : JSString) :
    parseFloat (text ++ 59 :: rest) = parseFloat text := by
  have hspace : isSpace 59 = false := by decide
  simp only [parseFloat, dropWhile_ended hspace, signOf_ended, takeWhile_ended (p := isDigit) rfl,
    dropWhile_ended (p := isDigit) rfl, fractionOf_ended, exponentOf_ended]

end Ended

/-- `" \t".includes(c)` -/
def isBlank (c : ℕ) : Bool := decide (c = 32 ∨ c = 9)

/-- A parameter starts at a place: only blanks lie between a semicolon and it. -/
def startsParameter (range : JSString) (start place : ℕ) : Bool :=
  let before := range.retreatWhile isBlank start place
  decide (before ≠ 0 ∧ range[before - 1]? = some 59)

/-- The loop over the places of `q=`, so many turns at most. -/
def qualityFrom (range : JSString) (start : ℕ) : ℕ → ℕ → Option ℤ
  | 0, _ => some one
  | turns + 1, place =>
    match Router.indexOf (js "q=") range place with
    | none => some one
    | some place =>
      if startsParameter range start place then parseFloat (range.drop (place + 2))
      else qualityFrom range start turns (place + 2)

/-- A range's `q` from its parameters starting at a place; 1 when it has none. -/
def rangeQuality (range : JSString) (start : ℕ) : Option ℤ :=
  qualityFrom range start (range.length + 1) start

section Locales

variable (toLowerCase : JSString → JSString)

/-- The supported locales by lowercased tag, and by the tag or base subtag a request's tag falls
back to. -/
structure LocaleIndex where
  exact : InsertionMap JSString JSString
  base : InsertionMap JSString JSString

/-- `lower.split("-", 1)[0]` -/
def baseSubtag (lower : JSString) : JSString := lower.takeWhile (· ≠ 45)

def indexLocales (locales : List JSString) : LocaleIndex :=
  locales.foldr (fun locale index =>
    let lower := toLowerCase locale
    ⟨index.exact.set lower locale,
      (index.base.set lower locale).set (baseSubtag lower) locale⟩) ⟨∅, ∅⟩

def matchLocale (tag : JSString) (index : LocaleIndex) : Option JSString :=
  let lower := toLowerCase tag
  index.exact.get lower <|> index.base.get (baseSubtag lower)

/-- `range.split(";", 1)[0].trim()` -/
def tagOf (range : JSString) : JSString := trim (range.takeWhile (· ≠ 59))

def better (index : LocaleIndex) (wildcard : JSString) (best : Option JSString × ℤ)
    (range : JSString) : Option JSString × ℤ :=
  let tag := tagOf range
  match rangeQuality range ((List.indexFrom 59 range 0).elim 0 (· + 1)) with
  | none => best
  | some quality =>
    if tag = [] ∨ quality ≤ best.2 then best
    else
      match if tag = js "*" then some wildcard else matchLocale toLowerCase tag index with
      | none => best
      | some matched => (some matched, quality)

def matchHeader (header : JSString) (index : LocaleIndex) (wildcard : JSString) :
    Option JSString :=
  ((header.splitOn 44).foldl (better toLowerCase index wildcard) (none, 0)).1

/-- The number after the first parameter named `q`; 1 when there is none. -/
def firstQuality (parameters : List JSString) : Option ℤ :=
  match (parameters.map (·.dropWhile isBlank)).find? (js "q=").isPrefixOf with
  | some parameter => parseFloat (parameter.drop 2)
  | none => some one

def qualityOf (range : JSString) : Option ℤ := firstQuality (range.splitOn 59).tail

/-- The tags of the header with their qualities, those with a positive one. -/
def rankedRanges (header : JSString) : List (JSString × ℤ) :=
  (header.splitOn 44).filterMap fun range =>
    ((qualityOf range).filter (0 < ·)).map (tagOf range, ·)

def matchTag (locales : List JSString) (wildcard tag : JSString) : Option JSString :=
  if tag = js "*" then some wildcard
  else
    let lower := toLowerCase tag
    locales.find? (toLowerCase · = lower) <|>
      locales.find? fun locale => toLowerCase locale = baseSubtag lower ∨
        baseSubtag (toLowerCase locale) = baseSubtag lower

def bestMatch (locales : List JSString) (wildcard : JSString) (ranges : List (JSString × ℤ)) :
    Option JSString :=
  (ranges.sortOn fun range => -range.2).findSome? fun range =>
    matchTag toLowerCase locales wildcard range.1

end Locales

section Quality

variable {range text : JSString} {start place c : ℕ}

theorem startsParameter_self (range : JSString) (start : ℕ) :
    startsParameter range start start = decide (start ≠ 0 ∧ range[start - 1]? = some 59) := by
  simp [startsParameter, List.retreatWhile, List.retreatTurns]

theorem startsParameter_succ (hstart : start ≤ place) (hc : range[place]? = some c) :
    startsParameter range start (place + 1) =
      (decide (c = 59) || (startsParameter range start place && isBlank c)) := by
  have hturns : place + 1 - start = (place - start) + 1 := by omega
  simp only [startsParameter, List.retreatWhile, hturns, List.retreatTurns, Nat.add_sub_cancel, hc,
    Option.any_some]
  cases hblank : isBlank c with
  | true =>
    have hne : c ≠ 59 := by
      rintro rfl
      cases hblank
    rw [decide_eq_false hne, Bool.false_or, Bool.and_true, if_pos rfl]
    exact decide_eq_decide.mpr Iff.rfl
  | false => simp [hc]

def scanQuality : Bool → JSString → Option ℤ
  | _, [] => some one
  | atStart, c :: text =>
    if atStart = true ∧ c = 113 ∧ text.head? = some 61 then parseFloat text.tail
    else scanQuality (decide (c = 59) || (atStart && isBlank c)) text

theorem indexOf_succ (hc : range.drop place = c :: text)
    (hnot : ¬(js "q=").isPrefixOf (c :: text) = true) :
    Router.indexOf (js "q=") range place = Router.indexOf (js "q=") range (place + 1) := by
  have hdrop : range.drop (place + 1) = text := by rw [← List.tail_drop, hc, List.tail_cons]
  rw [Router.indexOf, hc, Router.firstIndexOf, if_neg hnot, Router.indexOf, hdrop, Option.map_map]
  congr 1
  funext i
  simp only [Function.comp_apply]
  omega

theorem units_name : js "q=" = [113, 61] := by decide

theorem isPrefixOf_name_iff : (js "q=").isPrefixOf (c :: text) = true ↔
    c = 113 ∧ text.head? = some 61 := by
  rw [units_name, List.isPrefixOf_iff_prefix, List.cons_prefix_cons]
  cases text with
  | nil => simp
  | cons d text => simp [eq_comm]

theorem qualityFrom_eq_scan {turns : ℕ} (hturns : range.length < place + turns)
    (hstart : start ≤ place) (hplace : place ≤ range.length) :
    qualityFrom range start turns place =
      scanQuality (startsParameter range start place) (range.drop place) := by
  induction hleft : range.length - place using Nat.strong_induction_on generalizing place turns with
  | _ left ih =>
    cases turns with
    | zero => omega
    | succ turns =>
      cases hdrop : range.drop place with
      | nil => simp [qualityFrom, Router.indexOf, hdrop, Router.firstIndexOf, scanQuality, units_name]
      | cons c text =>
        have hlt : place < range.length := by
          by_contra hge
          rw [List.drop_eq_nil_of_le (by omega)] at hdrop
          cases hdrop
        have hget : range[place]? = some c := by
          rw [← List.head?_drop, hdrop, List.head?_cons]
        have htext : range.drop (place + 1) = text := by
          rw [← List.tail_drop, hdrop, List.tail_cons]
        have hnext := startsParameter_succ hstart hget
        by_cases hname : (js "q=").isPrefixOf (c :: text) = true
        · have hfound : Router.indexOf (js "q=") range place = some place := by
            rw [Router.indexOf, hdrop, Router.firstIndexOf, if_pos hname]
            rfl
          obtain ⟨rfl, hhead⟩ := isPrefixOf_name_iff.mp hname
          obtain ⟨rest, rfl⟩ : ∃ rest, text = 61 :: rest := by
            cases text with
            | nil => cases hhead
            | cons d rest => exact ⟨rest, by simpa using hhead⟩
          have hrest : range.drop (place + 2) = rest := by
            rw [← List.tail_drop, htext, List.tail_cons]
          have hget' : range[place + 1]? = some 61 := by
            rw [← List.head?_drop, htext, List.head?_cons]
          rw [qualityFrom, hfound]
          simp only [hrest]
          cases hparameter : startsParameter range start place with
          | true => simp [scanQuality]
          | false =>
            have hlength : place + 2 ≤ range.length := by
              have hlen := congrArg List.length htext
              rw [List.length_drop, List.length_cons] at hlen
              omega
            have hafter := startsParameter_succ (hstart.trans (Nat.le_succ _)) hget'
            rw [if_neg Bool.false_ne_true, ih _ (by omega) (by omega) (by omega) hlength rfl, hrest,
              hafter]
            simp [scanQuality, isBlank]
        · have hsame : qualityFrom range start (turns + 1) place =
              qualityFrom range start (turns + 1) (place + 1) := by
            rw [qualityFrom, indexOf_succ hdrop hname, qualityFrom]
          rw [isPrefixOf_name_iff] at hname
          rw [hsame, ih _ (by omega) (by omega) (by omega) hlt rfl, htext, hnext, scanQuality,
            if_neg fun h => hname h.2]

theorem firstQuality_cons (parameter : JSString) (parameters : List JSString) :
    firstQuality (parameter :: parameters) =
      if (js "q=").isPrefixOf (parameter.dropWhile isBlank) then
        parseFloat ((parameter.dropWhile isBlank).drop 2)
      else firstQuality parameters := by
  rw [firstQuality, List.map_cons, List.find?_cons]
  split_ifs with h
  · simp [h]
  · simp [h, firstQuality]

theorem parseFloat_takeWhile (text : JSString) :
    parseFloat (text.takeWhile (· ≠ 59)) = parseFloat text := by
  conv_rhs => rw [← List.takeWhile_append_dropWhile (p := (· ≠ 59)) (l := text)]
  cases hdrop : text.dropWhile (· ≠ 59) with
  | nil => rw [List.append_nil]
  | cons c rest =>
    have hne : text.dropWhile (· ≠ 59) ≠ [] := by
      rw [hdrop]
      exact List.cons_ne_nil c rest
    have hc := List.head_dropWhile_not (· ≠ 59) hne
    simp only [hdrop, List.head_cons] at hc
    obtain rfl : c = 59 := by simpa using hc
    rw [parseFloat_ended]

theorem scanQuality_eq (text : JSString) (atStart : Bool) : scanQuality atStart text =
    if atStart then firstQuality (text.splitOn 59) else firstQuality (text.splitOn 59).tail := by
  induction text generalizing atStart with
  | nil => cases atStart <;> simp [scanQuality, firstQuality, units_name]
  | cons c text ih =>
    rw [scanQuality, ih, List.splitOn_cons_eq_if_modifyHead]
    by_cases hsemi : c = 59
    · subst hsemi
      cases atStart <;> simp [firstQuality_cons, isBlank, units_name]
    · obtain ⟨parameters, hsplit⟩ := List.exists_splitOn 59 text
      simp only [hsplit, beq_iff_eq, hsemi, if_false, List.modifyHead_cons, List.tail_cons]
      cases atStart with
      | false => simp
      | true =>
        rw [if_pos rfl, firstQuality_cons, firstQuality_cons]
        by_cases hname : c = 113 ∧ text.head? = some 61
        · obtain ⟨rest, rfl⟩ : ∃ rest, text = 61 :: rest := by
            cases text with
            | nil => cases hname.2
            | cons d rest => exact ⟨rest, by simpa using hname.2⟩
          have hrest := parseFloat_takeWhile rest
          rw [hname.1, if_pos ⟨rfl, rfl, rfl⟩]
          simpa [isBlank, units_name] using hrest.symm
        · rw [if_neg fun h => hname h.2]
          cases hblank : isBlank c with
          | true => simp [hblank]
          | false =>
            have hnot : ¬(js "q=").isPrefixOf (c :: text.takeWhile (· ≠ 59)) = true := by
              rw [isPrefixOf_name_iff]
              rintro ⟨hc, hhead⟩
              refine hname ⟨hc, ?_⟩
              cases text with
              | nil => cases hhead
              | cons d rest =>
                by_cases hd : d = 59
                · simp [hd] at hhead
                · simpa [hd] using hhead
            rw [List.dropWhile_cons_of_neg (by simp [hblank]), if_neg hnot]
            simp

theorem rangeQuality_eq (range : JSString) :
    rangeQuality range ((List.indexFrom 59 range 0).elim 0 (· + 1)) = qualityOf range := by
  cases hsemi : List.indexFrom 59 range 0 with
  | none =>
    have hnot := List.indexFrom_eq_none_iff.mp hsemi
    rw [List.drop_zero] at hnot
    rw [Option.elim_none, rangeQuality, qualityFrom_eq_scan (by omega) le_rfl (Nat.zero_le _),
      startsParameter_self, scanQuality_eq, List.drop_zero, qualityOf, List.splitOn_eq_singleton hnot]
    simp
  | some i =>
    obtain ⟨-, hget, -⟩ := List.indexFrom_eq_some_iff.mp hsemi
    obtain ⟨hlt, -⟩ := List.getElem?_eq_some_iff.mp hget
    have hsplit := List.splitOn_drop_of_indexFrom hsemi
    rw [List.drop_zero] at hsplit
    rw [Option.elim_some, rangeQuality, qualityFrom_eq_scan (by omega) le_rfl (by omega),
      startsParameter_self, Nat.add_sub_cancel, scanQuality_eq, qualityOf, hsplit]
    simp [hget]

end Quality

section Maps

variable (toLowerCase : JSString → JSString) (locales : List JSString) (k : JSString)

theorem get_exact_indexLocales : (indexLocales toLowerCase locales).exact.get k =
    locales.find? (toLowerCase · = k) := by
  induction locales with
  | nil => rfl
  | cons locale locales ih =>
    have hexact : (indexLocales toLowerCase (locale :: locales)).exact =
        (indexLocales toLowerCase locales).exact.set (toLowerCase locale) locale := rfl
    rw [hexact, List.find?_cons, InsertionMap.get_set]
    by_cases hk : k = toLowerCase locale
    · simp [hk]
    · simpa [hk, Ne.symm hk] using ih

theorem get_base_indexLocales : (indexLocales toLowerCase locales).base.get k =
    locales.find? fun locale => toLowerCase locale = k ∨ baseSubtag (toLowerCase locale) = k := by
  induction locales with
  | nil => rfl
  | cons locale locales ih =>
    have hbase : (indexLocales toLowerCase (locale :: locales)).base =
        ((indexLocales toLowerCase locales).base.set (toLowerCase locale) locale).set
          (baseSubtag (toLowerCase locale)) locale := rfl
    rw [hbase, List.find?_cons, InsertionMap.get_set, InsertionMap.get_set]
    by_cases hsub : k = baseSubtag (toLowerCase locale)
    · simp [hsub]
    · by_cases hk : k = toLowerCase locale
      · simp [hk]
      · simpa [hk, Ne.symm hk, hsub, Ne.symm hsub] using ih

theorem matchLocale_eq (tag : JSString) :
    matchLocale toLowerCase tag (indexLocales toLowerCase locales) =
      (locales.find? (toLowerCase · = toLowerCase tag) <|>
        locales.find? fun locale => toLowerCase locale = baseSubtag (toLowerCase tag) ∨
          baseSubtag (toLowerCase locale) = baseSubtag (toLowerCase tag)) := by
  rw [matchLocale, get_exact_indexLocales, get_base_indexLocales]

end Maps

section Pass

variable (toLowerCase : JSString → JSString) (locales : List JSString) (wildcard : JSString)

def offerOf (range : JSString) : Option (JSString × ℤ) :=
  ((qualityOf range).filter fun quality => 0 < quality ∧ tagOf range ≠ []).map (tagOf range, ·)

theorem filter_rankedRanges (header : JSString) :
    (rankedRanges header).filter (·.1 ≠ []) = (header.splitOn 44).filterMap offerOf := by
  rw [rankedRanges, List.filter_filterMap]
  congr 1
  funext range
  rw [offerOf]
  cases qualityOf range with
  | none => rfl
  | some quality =>
    by_cases hpos : 0 < quality <;> by_cases htag : tagOf range = [] <;>
      simp [Option.filter, hpos, htag]

/-- The best locale is the match of the first of the best offers so far. -/
inductive Ranked (offers : List (JSString × ℤ)) : Option JSString × ℤ → Prop
  | empty (h : ∀ offer ∈ offers, matchTag toLowerCase locales wildcard offer.1 = none) :
    Ranked offers (none, 0)
  | held {best : JSString} {quality : ℤ} (hpos : 0 < quality)
    (h : offers.FirstLeast (fun offer => -offer.2)
      (fun offer => matchTag toLowerCase locales wildcard offer.1) (-quality) best) :
    Ranked offers (some best, quality)

variable {toLowerCase locales wildcard} {offers : List (JSString × ℤ)} {offer : JSString × ℤ}
  {best : Option JSString × ℤ}

theorem Ranked.nonneg (h : Ranked toLowerCase locales wildcard offers best) : 0 ≤ best.2 := by
  cases h with
  | empty => exact le_rfl
  | held hpos => exact hpos.le

theorem Ranked.keep (h : Ranked toLowerCase locales wildcard offers best) (hpos : 0 < offer.2)
    (hoffer : matchTag toLowerCase locales wildcard offer.1 = none ∨ offer.2 ≤ best.2) :
    Ranked toLowerCase locales wildcard (offers ++ [offer]) best := by
  cases h with
  | empty h =>
    refine .empty fun other hmem => ?_
    rcases List.mem_append.mp hmem with hmem | hmem
    · exact h other hmem
    · rw [List.mem_singleton.mp hmem]
      exact hoffer.resolve_right (not_le.mpr hpos)
  | held hquality h => exact .held hquality (h.concat (hoffer.imp_right neg_le_neg))

theorem Ranked.take (h : Ranked toLowerCase locales wildcard offers best) {matched : JSString}
    (hmatch : matchTag toLowerCase locales wildcard offer.1 = some matched)
    (hlt : best.2 < offer.2) :
    Ranked toLowerCase locales wildcard (offers ++ [offer]) (some matched, offer.2) := by
  refine .held (h.nonneg.trans_lt hlt) (List.FirstLeast.concat_lt hmatch fun other hmem hsome => ?_)
  cases h with
  | empty h =>
    rw [h other hmem] at hsome
    cases hsome
  | held _ h => exact (neg_lt_neg hlt).trans_le (h.least other hmem hsome)

theorem Ranked.better (h : Ranked toLowerCase locales wildcard offers best) (range : JSString) :
    Ranked toLowerCase locales wildcard (offers ++ (offerOf range).toList)
      (better toLowerCase (indexLocales toLowerCase locales) wildcard best range) := by
  rw [I18n.better, rangeQuality_eq]
  cases hquality : qualityOf range with
  | none => simpa [offerOf, hquality] using h
  | some quality =>
    by_cases htag : tagOf range = []
    · simpa [offerOf, hquality, htag, Option.filter] using h
    · by_cases hpos : 0 < quality
      · have hoffer : (offerOf range).toList = [(tagOf range, quality)] := by
          simp [offerOf, hquality, htag, hpos, Option.filter]
        have hmatch : (if tagOf range = js "*" then some wildcard
            else matchLocale toLowerCase (tagOf range) (indexLocales toLowerCase locales)) =
            matchTag toLowerCase locales wildcard (tagOf range) := by
          rw [matchTag, matchLocale_eq]
        rw [hoffer]
        simp only [htag, false_or, hmatch]
        split_ifs with hle
        · exact h.keep hpos (Or.inr hle)
        · cases hmatched : matchTag toLowerCase locales wildcard (tagOf range) with
          | none => exact h.keep hpos (Or.inl hmatched)
          | some matched => exact h.take hmatched (not_le.mp hle)
      · have hle : quality ≤ best.2 := (not_lt.mp hpos).trans h.nonneg
        simpa [offerOf, hquality, hpos, hle, Option.filter] using h

theorem ranked_foldl (ranges : List JSString)
    (h : Ranked toLowerCase locales wildcard offers best) :
    Ranked toLowerCase locales wildcard (offers ++ ranges.filterMap offerOf)
      (ranges.foldl (I18n.better toLowerCase (indexLocales toLowerCase locales) wildcard) best) := by
  induction ranges generalizing offers best with
  | nil => simpa using h
  | cons range ranges ih =>
    have hrest := ih (h.better range)
    rw [List.append_assoc] at hrest
    rw [List.foldl_cons, List.filterMap_cons]
    cases hoffer : offerOf range <;> simpa [hoffer] using hrest

theorem Ranked.fst_eq (h : Ranked toLowerCase locales wildcard offers best) :
    best.1 = bestMatch toLowerCase locales wildcard offers := by
  rw [bestMatch]
  cases h with
  | empty h => exact (List.findSome?_sortOn_eq_none_iff.mpr h).symm
  | @held best quality _ h =>
    cases hfound : (offers.sortOn fun offer => -offer.2).findSome? fun offer =>
        matchTag toLowerCase locales wildcard offer.1 with
    | none =>
      obtain ⟨offer, hmem, hoffer⟩ := List.exists_of_findSome?_eq_some h.first
      have hnone := List.findSome?_sortOn_eq_none_iff.mp hfound offer (List.mem_of_mem_filter hmem)
      rw [hnone] at hoffer
      cases hoffer
    | some found =>
      obtain ⟨k, hk⟩ := List.firstLeast_of_sortOn hfound
      rw [h.unique hk]

end Pass

/-- The one pass over the header finds what the sorted search finds among the ranges with a tag. -/
theorem matchHeader_eq_bestMatch (toLowerCase : JSString → JSString) (locales : List JSString)
    (header wildcard : JSString) :
    matchHeader toLowerCase header (indexLocales toLowerCase locales) wildcard =
      bestMatch toLowerCase locales wildcard
        ((rankedRanges header).filter fun range => range.1 ≠ []) := by
  have hempty : Ranked toLowerCase locales wildcard [] (none, 0) := .empty nofun
  have hpass := ranked_foldl (header.splitOn 44) hempty
  rw [filter_rankedRanges]
  exact hpass.fst_eq

/-- A range without a tag matches no locale, not even one with an empty tag. -/
theorem matchHeader_ne_bestMatch :
    matchHeader id [] (indexLocales id [[]]) [] ≠ bestMatch id [[]] [] (rankedRanges []) := by
  decide +kernel

end Nifra.I18n
